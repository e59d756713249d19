import OrderbookFix.Core.Model.Engine
import OrderbookFix.Core.Helpers.Quantities
/-!
# Calls on a represented book

Each call of the engine does on the values what the value-level call
does, or is a signed overflow. The invariants of the values and what one
call does to them follow from the execution of a submit; a cancel only
takes orders away.
-/

namespace OrderbookFix

namespace Core

/-- A call on the book as values. -/
def Depth.step (algo : MatchAlgo) (d : Depth) : Call → Depth × EventList
  | .submit n => d.submit algo n.order
  | .cancel s clord => (d.cancel ⟨s, clord.value⟩, [])
  | .setAlgo _ => (d, [])

/-- The signed arithmetic of a call stays in range. -/
def Depth.Defined (algo : MatchAlgo) (d : Depth) : Call → Prop
  | .submit n => MatchDefined algo (d.ladder n.side.book.opposite) n.order
  | _ => True

/-- **A call on a represented book** with a free key. -/
theorem step_sim {e : Engine} {d : Depth} {c : Call} (h : Rep e.book d) (hf : e.Fresh c) :
    (¬ d.Defined e.algo c ∧ e.step c = .error .signedOverflow) ∨
      (d.Defined e.algo c ∧ ∃ e', e.step c = .ok (e', (d.step e.algo c).2) ∧
        Rep e'.book (d.step e.algo c).1) := by
  cases c with
  | submit n =>
    have hk : e.book.index.lookup n.order.key = none := hf
    rcases submit_sim h hk with ⟨hdef, b', hb, hrep⟩ | ⟨hndef, hb⟩
    · exact Or.inr ⟨hdef, { e with book := b' }, by rw [Engine.step, hb]; rfl, hrep⟩
    · exact Or.inl ⟨hndef, by rw [Engine.step, hb]⟩
  | cancel s clord =>
    obtain ⟨r, b', hb, hrep, -⟩ := cancel_sim h s clord
    exact Or.inr ⟨trivial, { e with book := b' }, by rw [Engine.step, hb]; rfl, hrep⟩
  | setAlgo a => exact Or.inr ⟨trivial, { e with algo := a }, rfl, h⟩

theorem rep_new : Rep OrderBook.new Depth.new where
  levels s := by cases s <;> exact .nil
  placed s a ha := by cases s <;> cases ha
  nodup := List.nodup_nil
  index k p := by
    constructor
    · intro h
      cases h
    · rintro ⟨h, -⟩
      cases h

/-! ## Cancelling -/

theorem ordersOn_cancel {d : Depth} {k : IndexKey} {s : BookSide} :
    (d.cancel k).ordersOn s = (d.ordersOn s).filter fun o => o.key ≠ k := by
  have hladder : (d.cancel k).ladder s = dropKey k (d.ladder s) := by cases s <;> rfl
  rw [Depth.ordersOn, Depth.ordersOn, hladder]
  induction d.ladder s with
  | nil => rfl
  | cons a l ih =>
    rw [dropKey] at ih
    rw [dropKey, List.map_cons, List.flatMap_cons, List.flatMap_cons, List.filter_append, ih]

theorem orders_cancel {d : Depth} {k : IndexKey} :
    (d.cancel k).orders = d.orders.filter fun o => o.key ≠ k := by
  rw [Depth.orders, Depth.orders, ordersOn_cancel, ordersOn_cancel, List.filter_append]

theorem leavesSum_filter_le {os : List Order} {p : Order → Bool} :
    leavesSum (os.filter p) ≤ leavesSum os :=
  (List.filter_sublist.map _).sum_le_sum fun _ _ => Nat.zero_le _

/-! ## Submitting -/

theorem mem_orders_setLadder {d : Depth} {s : BookSide} {l : Ladder} {o : Order} :
    o ∈ (d.setLadder s l).orders ↔ o ∈ l.flatMap Prod.snd ∨ o ∈ d.ordersOn s.opposite := by
  cases s with
  | bid => exact List.mem_append
  | ask => exact List.mem_append.trans or_comm

/-- The orders of the two ladders, the one submitted to first. -/
theorem orders_perm {d : Depth} (s : BookSide) :
    d.orders.Perm (d.ordersOn s ++ d.ordersOn s.opposite) := by
  cases s with
  | bid => exact List.Perm.refl _
  | ask => exact List.perm_append_comm

/-- What a match traded. -/
def tradedBy (algo : MatchAlgo) (d : Depth) (o : Order) : Quantity :=
  ((matchLadder algo (d.ladder o.side.book.opposite) o).2.2.map Trade.qty).sum

/-- The values after the match of a submit, before its order rests. -/
def Depth.matched (algo : MatchAlgo) (d : Depth) (o : Order) : Depth :=
  d.setLadder o.side.book.opposite
    (sweepLadder (matchLadder algo (d.ladder o.side.book.opposite) o).1)

theorem submit_fst {algo : MatchAlgo} {d : Depth} {o : Order} :
    (d.submit algo o).1 =
      if 0 < (o.fill (tradedBy algo d o)).leavesQty then
        (d.matched algo o).setLadder o.side.book (restLadder o.side.book
          (o.fill (tradedBy algo d o)) ((d.matched algo o).ladder o.side.book))
      else d.matched algo o := by
  rw [tradedBy, ← aggr_matchLadder, Depth.submit]
  dsimp only
  rw [aggr_matchLadder]
  rfl

/-- The orders after a match are orders from before it, as they are
named. -/
theorem mem_orders_matched {algo : MatchAlgo} {d : Depth} {o r : Order}
    (h : r ∈ (d.matched algo o).orders) : ∃ x ∈ d.orders, x.id = r.id ∧ x.key = r.key := by
  rcases mem_orders_setLadder.mp h with h | h
  · obtain ⟨a, ha, hr⟩ := List.mem_flatMap.mp h
    refine forall_sweep_match (P := fun r => ∃ x ∈ d.orders, x.id = r.id ∧ x.key = r.key)
      (fun _ _ => Iff.rfl) (fun a ha r hr => ?_) a ha r hr
    exact ⟨r, mem_orders.mpr ⟨_, mem_ordersOn.mpr ⟨a, ha, hr⟩⟩, rfl, rfl⟩
  · exact ⟨r, mem_orders.mpr ⟨_, h⟩, rfl, rfl⟩

theorem mem_orders_rest {d : Depth} {o r : Order} :
    r ∈ (d.setLadder o.side.book (restLadder o.side.book o (d.ladder o.side.book))).orders ↔
      r = o ∨ r ∈ d.orders := by
  rw [mem_orders_setLadder, restLadder_perm.mem_iff, List.mem_cons, or_assoc,
    (orders_perm o.side.book).mem_iff, List.mem_append]
  rfl

/-- **After a submit** the book holds the order submitted or orders it
held before. -/
theorem mem_orders_submit {algo : MatchAlgo} {d : Depth} {o r : Order}
    (h : r ∈ (d.submit algo o).1.orders) :
    (r.id = o.id ∧ r.key = o.key) ∨ ∃ x ∈ d.orders, x.id = r.id ∧ x.key = r.key := by
  rw [submit_fst] at h
  split_ifs at h
  · rcases (mem_orders_rest (o := o.fill (tradedBy algo d o))).mp h with rfl | h
    · exact .inl ⟨rfl, rfl⟩
    · exact .inr (mem_orders_matched h)
  · exact .inr (mem_orders_matched h)

/-- **What is not traded rests.** -/
theorem rests_submit {algo : MatchAlgo} {d : Depth} {o : Order}
    (h : o.leavesQty - tradedBy algo d o ≠ 0) :
    o.fill (tradedBy algo d o) ∈ (d.submit algo o).1.orders := by
  have hpos : 0 < (o.fill (tradedBy algo d o)).leavesQty := UInt64.pos_iff_ne_zero.mpr h
  rw [submit_fst, if_pos hpos]
  exact (mem_orders_rest (o := o.fill (tradedBy algo d o))).mpr (.inl rfl)

/-! ## Invariants of the values -/

/-- **The values of a well-formed book**: open orders, uncrossed. -/
structure Depth.Good (d : Depth) : Prop where
  live : ∀ o ∈ d.orders, o.leavesQty ≠ 0 ∧ o.leavesQty.toNat ≤ o.origQty.toNat
  uncrossed : d.Uncrossed

theorem good_new : Depth.new.Good where
  live o ho := by cases ho
  uncrossed s x hx := by cases s <;> cases hx

theorem Depth.Good.cancel {d : Depth} (h : d.Good) (k : IndexKey) : (d.cancel k).Good where
  live o ho := by
    rw [orders_cancel] at ho
    exact h.live o (List.mem_filter.mp ho).1
  uncrossed s x hx y hy := by
    rw [ordersOn_cancel] at hx hy
    exact h.uncrossed s x (List.mem_filter.mp hx).1 y (List.mem_filter.mp hy).1

namespace Execution

variable {d d' : Depth} {o : Order} {fs : List Quantity} {evs : EventList}

theorem mem_own (h : Execution d o fs d' evs) {r : Order} (hr : r ∈ d'.ordersOn o.side.book) :
    (r = o.fill fs.sum ∧ 0 < r.leavesQty) ∨ r ∈ d.ordersOn o.side.book := by
  rw [h.own.mem_iff, List.mem_append, residual] at hr
  rcases hr with hr | hr
  · split at hr
    · rename_i hpos
      obtain rfl := List.mem_singleton.mp hr
      exact Or.inl ⟨rfl, hpos⟩
    · cases hr
  · exact Or.inr hr

/-- **A submit keeps the invariant**, its order coming in open. -/
theorem good (h : Execution d o fs d' evs) (hd : d.Good)
    (ho : o.leavesQty.toNat ≤ o.origQty.toNat) : d'.Good where
  live r hr := by
    rw [(orders_perm o.side.book).mem_iff, List.mem_append] at hr
    rcases hr with hr | hr
    · rcases h.mem_own hr with ⟨rfl, hpos⟩ | hr
      · have hleft := h.leaves_left
        refine ⟨ne_zero_iff_toNat.mpr (by rw [toNat_pos] at hpos; omega), ?_⟩
        change _ ≤ o.origQty.toNat
        omega
      · exact hd.live r ((orders_perm o.side.book).mem_iff.mpr (List.mem_append_left _ hr))
    · obtain ⟨x, hx, rfl, hne⟩ := h.mem_opposite hr
      have hold := hd.live x.1 ((orders_perm o.side.book).mem_iff.mpr
        (List.mem_append_right _ (List.of_mem_zip hx).1))
      have hle : x.2.toNat ≤ x.1.leavesQty.toNat := (List.forall₂_iff_zip.mp h.fill_le).2 hx
      refine ⟨hne, ?_⟩
      rw [Order.leavesQty_fill, toNat_sub_of_le hle]
      change _ ≤ x.1.origQty.toNat
      omega
  uncrossed := by
    refine uncrossed_of_side o.side.book fun x hx y hy => ?_
    rcases h.mem_own hx with ⟨rfl, hpos⟩ | hx
    · exact crosses_eq_false_iff.mp (h.not_crosses hpos hy)
    · obtain ⟨z, hz, rfl, -⟩ := h.mem_opposite hy
      exact hd.uncrossed o.side.book x hx z.1 (List.of_mem_zip hz).1

/-- A submit adds at most its own quantity to the book. -/
theorem leavesSum_le (h : Execution d o fs d' evs) :
    leavesSum d'.orders ≤ leavesSum d.orders + o.leavesQty.toNat := by
  have hres := h.leavesSum_residual
  have hfill := leavesSum_fillQueue h.fill_le
  rw [leavesSum_perm (orders_perm o.side.book), leavesSum_perm (orders_perm o.side.book),
    leavesSum_append, leavesSum_append, h.opposite, leavesSum_filter, leavesSum_perm h.own,
    leavesSum_append]
  omega

end Execution

end Core

end OrderbookFix
