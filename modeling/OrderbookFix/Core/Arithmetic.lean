import OrderbookFix.Core.Invariants
/-!
# Arithmetic of a submit

Quantities come off the wire as any 64-bit word. A submit is safe as long
as each level it crosses adds up below half the word size, whatever the
size of the order and of the rest of the book: nothing overflows, nobody
is filled past its leaves, and no crossing level is passed over. Past
that bound the signed delta overflows, and a total that wraps to nothing
hides its level.
-/

namespace OrderbookFix

namespace Core

namespace Engine

/-- A call with a free key whose order crosses only levels that add up
below half the word size. -/
def Bounded (e : Engine) (c : Call) : Prop :=
  e.Fresh c ∧
    match c with
    | .submit n => ∀ l ∈ (e.book.levels n.side.book.opposite).entries,
        crosses n.side n.price l.1 = true →
          ((e.book.ordersAt l.2).map fun o => o.leavesQty.toNat).sum < 2 ^ 63
    | _ => True

instance (e : Engine) (c : Call) : Decidable (e.Bounded c) :=
  match c with
  | .submit n => inferInstanceAs (Decidable (e.Fresh (.submit n) ∧ ∀ l ∈ _, _ → _))
  | .cancel s clord => inferInstanceAs (Decidable (e.Fresh (.cancel s clord) ∧ True))
  | .setAlgo a => inferInstanceAs (Decidable (e.Fresh (.setAlgo a) ∧ True))

/-- **A safe submit**, as the fills it gives the orders of the opposite
ladder, best price first. The trades and what is written back are those
of the fills. -/
structure SafeFills (e e' : Engine) (n : NewOrder) (evs : EventList) (fs : List Quantity) :
    Prop where
  length : fs.length = (e.book.ordersOn n.side.book.opposite).length
  trades : evs = .ack ⟨n.id, n.clordId⟩ ::
    (orderTrades n.order (e.book.ordersOn n.side.book.opposite) fs).map .trade
  written : e'.book.ordersOn n.side.book.opposite =
    (fillQueue (e.book.ordersOn n.side.book.opposite) fs).filter fun r => r.leavesQty ≠ 0
  /-- no resting order is filled past its leaves -/
  resting : ∀ x ∈ (e.book.ordersOn n.side.book.opposite).zip fs, x.2 ≤ x.1.leavesQty
  /-- nor the aggressor past its own -/
  aggressor : (fs.map UInt64.toNat).sum ≤ n.qty.toNat
  /-- a crossing order is used up unless the aggressor is -/
  noneSkipped : ∀ x ∈ (e.book.ordersOn n.side.book.opposite).zip fs,
    crosses n.side n.price x.1.price = true →
      x.2 = x.1.leavesQty ∨ (fs.map UInt64.toNat).sum = n.qty.toNat
  /-- and a level is filled only once the better ones are used up -/
  inOrder : ∀ x ∈ (e.book.ordersOn n.side.book.opposite).zip fs,
    ∀ y ∈ (e.book.ordersOn n.side.book.opposite).zip fs,
      n.side.book.opposite.before y.1.price x.1.price → x.2 ≠ 0 → y.2 = y.1.leavesQty

end Engine

/-- The bound, on the represented ladder. -/
theorem Rep.level_lt {e : Engine} {d : Depth} {n : NewOrder} (h : Rep e.book d)
    (hb : e.Bounded (.submit n)) :
    ∀ a ∈ d.ladder n.side.book.opposite, crosses n.side n.price a.1 = true →
      leavesSum a.2 < 2 ^ 63 := by
  intro a ha hc
  rw [← h.ladder_eq] at ha
  obtain ⟨l, hl, rfl⟩ := List.mem_map.mp ha
  exact hb.2 l hl hc

/-- **A bounded submit is safe.** -/
theorem submit_safe {e : Engine} {d : Depth} {n : NewOrder} (h : Rep e.book d)
    (hb : e.Bounded (.submit n)) :
    ∃ e' evs, e.step (.submit n) = .ok (e', evs) ∧ (∃ d', Rep e'.book d') ∧
      ∃ fs, e.SafeFills e' n evs fs := by
  have hlt := h.level_lt hb
  have hdef : d.Defined e.algo (.submit n) := matchDefined_of_lt hlt
  rcases step_sim h hb.1 with ⟨hndef, -⟩ | ⟨-, e', hs, hrep⟩
  · exact absurd hdef hndef
  obtain ⟨fs, hex⟩ := @execution_submit e.algo d n.order h.toPlaced fun a ha hc => by
    have := hlt a ha hc
    omega
  have hopp : e.book.ordersOn n.side.book.opposite = d.ordersOn n.order.side.book.opposite :=
    h.ordersOn_eq _
  refine ⟨e', _, hs, ⟨_, hrep⟩, fs, ?_⟩
  refine ⟨?_, ?_, ?_, ?_, hex.alloc.sum_le_avail, ?_, ?_⟩
  · rw [hopp]
    exact hex.length_eq
  · rw [hopp]
    exact hex.events
  · rw [hopp, hrep.ordersOn_eq]
    exact hex.opposite
  · rw [hopp]
    exact fun x hx => UInt64.le_iff_toNat_le.mpr ((List.forall₂_iff_zip.mp hex.fill_le).2 hx)
  · rw [hopp]
    intro x hx hc
    by_cases hused : (fs.map UInt64.toNat).sum = n.qty.toNat
    · exact Or.inr hused
    · refine Or.inl (UInt64.toNat_inj.mp ?_)
      have hfull := hex.fill_eq_want (Nat.lt_of_le_of_ne hex.alloc.sum_le_avail hused) x hx
      rw [hfull, want]
      exact if_pos hc
  · rw [hopp]
    exact hex.priority

/-- A bounded call keeps the representation. -/
theorem step_bounded {e : Engine} {d : Depth} {c : Call} (h : Rep e.book d) (hb : e.Bounded c) :
    ∃ e' evs, e.step c = .ok (e', evs) ∧ ∃ d', Rep e'.book d' := by
  cases c with
  | submit n =>
    obtain ⟨e', evs, hs, hrep, -⟩ := submit_safe h hb
    exact ⟨e', evs, hs, hrep⟩
  | cancel s clord =>
    rcases step_sim h hb.1 with ⟨hndef, -⟩ | ⟨-, e', hs, hrep⟩
    · exact absurd trivial hndef
    · exact ⟨e', _, hs, _, hrep⟩
  | setAlgo a =>
    rcases step_sim h hb.1 with ⟨hndef, -⟩ | ⟨-, e', hs, hrep⟩
    · exact absurd trivial hndef
    · exact ⟨e', _, hs, _, hrep⟩

/-- **Every submit of a bounded run is safe.** A submit of a run is the
last call of the run up to it, so it is enough to look at that one. -/
theorem run_submit_safe (algo : MatchAlgo) (calls : List Call) (n : NewOrder)
    (hb : Guarded Engine.step Engine.Bounded (Engine.new algo) (calls ++ [.submit n])) :
    ∃ e outs, run Engine.step (Engine.new algo) calls = .ok (e, outs) ∧
      ∃ e' evs, e.step (.submit n) = .ok (e', evs) ∧ ∃ fs, e.SafeFills e' n evs fs := by
  obtain ⟨hcalls, hlast⟩ := Guarded.append.mp hb
  obtain ⟨e, outs, hr, d, hrep⟩ :=
    run_inv_ok (H := fun _ : List Call => True)
      (J := fun _ (_ : EventList) (e : Engine) => ∃ d, Rep e.book d) (fun _ _ _ => trivial)
      (fun past outs e c hJ hf _ => by
        obtain ⟨d, hrep⟩ := hJ
        exact step_bounded hrep hf)
      ⟨Depth.new, rep_new⟩ hcalls trivial
  obtain ⟨e', evs, hs, -, hsafe⟩ := submit_safe hrep (hlast e outs hr).1
  exact ⟨e, outs, hr, e', evs, hs, hsafe⟩

/-- An order for all the word holds, against a level just below half of
it. -/
theorem run_submit_safe_wide_order :
    ∃ e outs, run Engine.step (Engine.new .proRata)
        [.submit ⟨1, 0, ⟨ascii "A"⟩, .sell, 10, 0x7ffffffffffffffe⟩,
          .submit ⟨2, 0, ⟨ascii "B"⟩, .sell, 10, 1⟩] = .ok (e, outs) ∧
      ∃ e' evs, e.step (.submit ⟨3, 0, ⟨ascii "C"⟩, .buy, 10, 0xffffffffffffffff⟩) =
          .ok (e', evs) ∧
        ∃ fs, e.SafeFills e' ⟨3, 0, ⟨ascii "C"⟩, .buy, 10, 0xffffffffffffffff⟩ evs fs :=
  run_submit_safe .proRata
    [.submit ⟨1, 0, ⟨ascii "A"⟩, .sell, 10, 0x7ffffffffffffffe⟩,
      .submit ⟨2, 0, ⟨ascii "B"⟩, .sell, 10, 1⟩] _ (by decide +kernel)

/-- At half the word size one unit off the level overflows its delta; two
such orders add up to nothing, and pro-rata passes their level over. -/
theorem wide_level_unsafe :
    run Engine.step (Engine.new .fifo)
        [.submit ⟨1, 0, ⟨ascii "A"⟩, .sell, 10, 0x8000000000000000⟩,
          .submit ⟨2, 0, ⟨ascii "B"⟩, .buy, 10, 1⟩] = .error .signedOverflow ∧
      ∃ e evs, run Engine.step (Engine.new .proRata)
          [.submit ⟨1, 0, ⟨ascii "A"⟩, .sell, 10, 0x8000000000000000⟩,
            .submit ⟨2, 0, ⟨ascii "B"⟩, .sell, 10, 0x8000000000000000⟩,
            .submit ⟨3, 0, ⟨ascii "C"⟩, .buy, 10, 1⟩] = .ok (e, evs) ∧
        (∀ t, .trade t ∉ evs) ∧ 10 ∈ e.book.prices .bid ∧ 10 ∈ e.book.prices .ask := by
  refine ⟨raises_iff.mp (by decide +kernel), ?_⟩
  obtain ⟨e, evs, hr, hc⟩ := @exists_of_run_check _ _ _ _ Engine.step
    (fun r => decide (tradesIn (r.2.map .event) = [] ∧ 10 ∈ r.1.book.prices .bid ∧
      10 ∈ r.1.book.prices .ask))
    (Engine.new .proRata)
    [.submit ⟨1, 0, ⟨ascii "A"⟩, .sell, 10, 0x8000000000000000⟩,
      .submit ⟨2, 0, ⟨ascii "B"⟩, .sell, 10, 0x8000000000000000⟩,
      .submit ⟨3, 0, ⟨ascii "C"⟩, .buy, 10, 1⟩] (by decide +kernel)
  obtain ⟨hnone, hbid, hask⟩ := of_decide_eq_true hc
  refine ⟨e, evs, hr, fun t ht => ?_, hbid, hask⟩
  have hmem := List.filterMap_eq_nil_iff.mp hnone _ (List.mem_map_of_mem (f := Record.event) ht)
  cases hmem

end Core

end OrderbookFix
