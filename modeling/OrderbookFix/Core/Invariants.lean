import OrderbookFix.Core.Helpers.Calls
/-!
# Invariants of the book

What holds of the book after every call of a run that never hands in the
key of a live order. Whatever the quantities, the levels and the index
hold the same orders. Where the quantities handed in add up below half
the word size, no call fails, and the book is well formed: uncrossed, its
orders open and in their places, its cached figures and best prices
exact.
-/

namespace OrderbookFix

namespace Core

/-! ## Reading a represented book -/

theorem filterMap_of_map_some {α β : Type*} {f : α → Option β} {ps : List α} {os : List β}
    (h : ps.map f = os.map some) : ps.filterMap f = os := by
  have hid := congrArg (List.filterMap id) h
  simpa [List.filterMap_map] using hid

namespace Rep

variable {b : OrderBook} {d : Depth} (h : Rep b d)
include h

theorem ordersOn_eq (s : BookSide) : b.ordersOn s = d.ordersOn s :=
  filterMap_of_map_some (flatMap_queue (h.levels s))

theorem orders_eq : b.orders = d.orders := filterMap_of_map_some h.map_linked

/-- The levels of the book are the ladder. -/
theorem ladder_eq (s : BookSide) :
    (b.levels s).entries.map (fun e => (e.1, b.ordersAt e.2)) = d.ladder s := by
  refine List.forall₂_eq_eq_eq ▸ (List.forall₂_map_left_iff.mpr ((h.levels s).imp ?_))
  intro e a ha
  exact Prod.ext ha.1 (filterMap_of_map_some ha.2.queue)

/-- The level behind an entry of a ladder. -/
theorem exists_level {s : BookSide} {e : Price × PriceLevel} (he : e ∈ (b.levels s).entries) :
    ∃ a ∈ d.ladder s, e.1 = a.1 ∧ LevelRep b.heap e.2 a.2 := by
  obtain ⟨es, fs, hsplit⟩ := List.append_of_mem he
  have hl := h.levels s
  rw [hsplit] at hl
  obtain ⟨pre, a, post, hd, -, ha, -⟩ := forall₂_split hl
  exact ⟨a, by rw [hd]; exact List.mem_append_right _ (List.mem_cons_self ..), ha⟩

theorem owned : b.Owned where
  nodup := h.nodup
  indexed p hp := by
    obtain ⟨o, -, ho⟩ := h.exists_of_linked hp
    exact ⟨o, ho, (h.index o.key p).mpr ⟨hp, by rw [keyAt, ho]; rfl⟩⟩
  linked k p hk := by
    obtain ⟨hp, hkey⟩ := (h.index k p).mp hk
    obtain ⟨o, -, ho⟩ := h.exists_of_linked hp
    rw [keyAt, ho] at hkey
    exact ⟨hp, o, ho, Option.some.inj hkey⟩

end Rep

/-! ## Best prices -/

/-- The first price of a ladder with an order at it. -/
def Ladder.best (l : Ladder) : Option Price := (l.find? fun a => a.2 ≠ []).map Prod.fst

theorem best_of_forall₂ {h : Heap Order} {es : List (Price × PriceLevel)} {l : Ladder}
    (hl : List.Forall₂ (fun e a => e.1 = a.1 ∧ LevelRep h e.2 a.2) es l) :
    (es.find? fun e => !e.2.empty).map Prod.fst = Ladder.best l := by
  induction hl with
  | nil => rfl
  | @cons e a es l hab _ ih =>
    have hempty : (!e.2.empty) = decide (a.2 ≠ []) := by
      rw [Bool.eq_iff_iff, Bool.not_eq_true', ← Bool.not_eq_true, hab.2.empty_iff]
      simp
    rw [Ladder.best, List.find?_cons, List.find?_cons, hempty]
    cases decide (a.2 ≠ [])
    · exact ih
    · exact congrArg some hab.1

theorem Rep.best_eq {b : OrderBook} {d : Depth} (h : Rep b d) (s : BookSide) :
    b.best s = Ladder.best (d.ladder s) := best_of_forall₂ (h.levels s)

/-- **The first occupied price is the best**: it is the price of an
order, and no order of the ladder has a better one. -/
theorem Ladder.best_spec {s : BookSide} {l : Ladder}
    (hsorted : l.Pairwise fun a b => s.before a.1 b.1) (hp : l.Priced) :
    match Ladder.best l with
    | none => l.flatMap Prod.snd = []
    | some p => p ∈ (l.flatMap Prod.snd).map Order.price ∧
        ∀ q ∈ (l.flatMap Prod.snd).map Order.price, q = p ∨ s.before p q := by
  induction l with
  | nil => rfl
  | cons a l ih =>
    obtain ⟨hhead, htail⟩ := List.pairwise_cons.mp hsorted
    have hpl : Ladder.Priced l := fun c hc => hp c (List.mem_cons_of_mem _ hc)
    have hpa := hp a (List.mem_cons_self ..)
    by_cases hne : a.2 = []
    · have hbest : Ladder.best (a :: l) = Ladder.best l := by
        rw [Ladder.best, List.find?_cons_of_neg (by simpa using hne)]
        rfl
      rw [hbest, List.flatMap_cons, hne, List.nil_append]
      exact ih htail hpl
    · have hbest : Ladder.best (a :: l) = some a.1 := by
        rw [Ladder.best, List.find?_cons_of_pos (by simpa using hne)]
        rfl
      rw [hbest]
      refine ⟨?_, fun q hq => ?_⟩
      · obtain ⟨o, ho⟩ := List.exists_mem_of_ne_nil _ hne
        refine List.mem_map.mpr ⟨o, ?_, hpa o ho⟩
        rw [List.flatMap_cons]
        exact List.mem_append_left _ ho
      · obtain ⟨o, ho, rfl⟩ := List.mem_map.mp hq
        rw [List.flatMap_cons, List.mem_append] at ho
        rcases ho with ho | ho
        · exact Or.inl (hpa o ho)
        · obtain ⟨c, hc, hoc⟩ := List.mem_flatMap.mp ho
          rw [hpl c hc o hoc]
          exact Or.inr (hhead c hc)

theorem Rep.bestBid_eq {b : OrderBook} {d : Depth} (h : Rep b d) :
    b.bestBid = (b.prices .bid).max? := by
  have hspec := Ladder.best_spec (h.toPlaced.sorted .bid) (h.toPlaced.priced .bid)
  rw [OrderBook.bestBid, h.best_eq, OrderBook.prices, h.ordersOn_eq, Depth.ordersOn]
  rcases hb : Ladder.best (d.ladder .bid) with _ | p
  · rw [hb] at hspec
    rw [hspec]
    rfl
  · rw [hb] at hspec
    refine (List.max?_eq_some_iff.mpr ⟨hspec.1, fun q hq => ?_⟩).symm
    rcases hspec.2 q hq with rfl | hlt
    · exact Int.le_refl _
    · exact Int.le_of_lt hlt

theorem Rep.bestAsk_eq {b : OrderBook} {d : Depth} (h : Rep b d) :
    b.bestAsk = (b.prices .ask).min? := by
  have hspec := Ladder.best_spec (h.toPlaced.sorted .ask) (h.toPlaced.priced .ask)
  rw [OrderBook.bestAsk, h.best_eq, OrderBook.prices, h.ordersOn_eq, Depth.ordersOn]
  rcases hb : Ladder.best (d.ladder .ask) with _ | p
  · rw [hb] at hspec
    rw [hspec]
    rfl
  · rw [hb] at hspec
    refine (List.min?_eq_some_iff.mpr ⟨hspec.1, fun q hq => ?_⟩).symm
    rcases hspec.2 q hq with rfl | hlt
    · exact Int.le_refl _
    · exact Int.le_of_lt hlt

/-- **Good values make a well-formed book.** -/
theorem Rep.wellFormed {b : OrderBook} {d : Depth} (h : Rep b d) (hd : d.Good)
    (hsum : leavesSum d.orders < 2 ^ 64) : b.WellFormed where
  uncrossed x hx y hy := by
    rw [OrderBook.prices, h.ordersOn_eq] at hx hy
    obtain ⟨o, ho, rfl⟩ := List.mem_map.mp hx
    obtain ⟨r, hr, rfl⟩ := List.mem_map.mp hy
    exact hd.uncrossed .bid o ho r hr
  placed s e he p hp := by
    obtain ⟨a, ha, hpx, hl⟩ := h.exists_level he
    have hm : b.heap.cells p ∈ a.2.map some := by
      rw [← hl.queue]
      exact List.mem_map_of_mem hp
    obtain ⟨o, ho, hcell⟩ := List.mem_map.mp hm
    obtain ⟨hprice, hside⟩ := h.placed s a ha o ho
    obtain ⟨hne, hle⟩ := hd.live o (mem_orders.mpr ⟨s, mem_ordersOn.mpr ⟨a, ha, ho⟩⟩)
    exact ⟨o, hcell.symm, UInt64.pos_iff_ne_zero.mpr hne, UInt64.le_iff_toNat_le.mpr hle, hside,
      hprice.trans hpx.symm⟩
  cached s e he := by
    obtain ⟨a, ha, -, hl⟩ := h.exists_level he
    have hlen : e.2.queue.length = a.2.length := by simpa using congrArg List.length hl.queue
    have hle := leavesSum_le_of_mem ha
    refine ⟨by rw [hlen]; exact hl.count, ?_⟩
    rw [OrderBook.ordersAt, filterMap_of_map_some hl.queue, hl.total]
    exact toNat_sum_leaves (by omega)
  bestBid := h.bestBid_eq
  bestAsk := h.bestAsk_eq

/-! ## Runs -/

instance (e : Engine) (c : Call) : Decidable (e.Fresh c) :=
  match c with
  | .submit n => inferInstanceAs (Decidable (e.book.find n.session n.clordId = none))
  | .cancel _ _ => inferInstanceAs (Decidable True)
  | .setAlgo _ => inferInstanceAs (Decidable True)

theorem submitted_append {cs cs' : List Call} :
    submitted (cs ++ cs') = submitted cs ++ submitted cs' := List.filterMap_append ..

theorem submittedQty_append {cs cs' : List Call} :
    submittedQty (cs ++ cs') = submittedQty cs + submittedQty cs' := by
  rw [submittedQty, submitted_append, List.map_append, List.sum_append]
  rfl

/-- A submit to a bounded book is an execution. -/
theorem execution_of_lt {algo : MatchAlgo} {d : Depth} (n : NewOrder) (h : d.Placed)
    (hsum : leavesSum d.orders < 2 ^ 63) :
    ∃ fs, Execution d n.order fs (d.submit algo n.order).1 (d.submit algo n.order).2 :=
  execution_submit h fun a ha _ => by
    have := leavesSum_le_of_mem ha
    omega

/-- **One call within the bound**: it does what the value-level call
does, the values stay good, and no more quantity is on the book than was
handed in. -/
theorem step_good {e : Engine} {d : Depth} {c : Call} {past : List Call} (h : Rep e.book d)
    (hd : d.Good) (hle : leavesSum d.orders ≤ submittedQty past) (hf : e.Fresh c)
    (hsum : submittedQty (past ++ [c]) < 2 ^ 63) :
    ∃ e', e.step c = .ok (e', (d.step e.algo c).2) ∧ Rep e'.book (d.step e.algo c).1 ∧
      (d.step e.algo c).1.Good ∧
      leavesSum (d.step e.algo c).1.orders ≤ submittedQty (past ++ [c]) := by
  rw [submittedQty_append] at hsum ⊢
  -- Below 2 ^ 63 no level total can wrap, so the match never leaves its domain.
  have hdef : d.Defined e.algo c := by
    cases c with
    | submit n =>
      refine matchDefined_of_lt fun a ha _ => ?_
      have := leavesSum_le_of_mem ha
      omega
    | cancel s clord => trivial
    | setAlgo a => trivial
  rcases step_sim h hf with ⟨hndef, -⟩ | ⟨-, e', hs, hrep⟩
  · exact absurd hdef hndef
  refine ⟨e', hs, hrep, ?_⟩
  cases c with
  | submit n =>
    obtain ⟨fs, hex⟩ := @execution_of_lt e.algo d n h.toPlaced (by omega)
    have hn : submittedQty [.submit n] = n.order.leavesQty.toNat := Nat.add_zero _
    have hadd := hex.leavesSum_le
    exact ⟨hex.good hd (Nat.le_refl _), by rw [hn]; exact Nat.le_trans hadd (by omega)⟩
  | cancel s clord =>
    refine ⟨hd.cancel _, ?_⟩
    have hdrop : leavesSum (d.cancel ⟨s, clord.value⟩).orders ≤ leavesSum d.orders := by
      rw [orders_cancel]
      exact leavesSum_filter_le
    exact Nat.le_trans hdrop (by omega)
  | setAlgo a => exact ⟨hd, Nat.le_trans hle (by omega)⟩

/-- **Such a run returns**, with a book of good values whose open
quantity is within what was handed in. -/
theorem run_good (algo : MatchAlgo) (calls : List Call)
    (hfresh : Guarded Engine.step Engine.Fresh (Engine.new algo) calls)
    (hsum : submittedQty calls < 2 ^ 63) :
    ∃ e evs, run Engine.step (Engine.new algo) calls = .ok (e, evs) ∧
      ∃ d, Rep e.book d ∧ d.Good ∧ leavesSum d.orders ≤ submittedQty calls :=
  run_inv_ok (H := fun cs => submittedQty cs < 2 ^ 63)
    (J := fun past _ (e : Engine) =>
      ∃ d, Rep e.book d ∧ d.Good ∧ leavesSum d.orders ≤ submittedQty past)
    (fun cs cs' h => by rw [submittedQty_append] at h; omega)
    (fun past outs e c hJ hf h => by
      obtain ⟨d, hrep, hd, hle⟩ := hJ
      obtain ⟨e', hs, hJ'⟩ := step_good hrep hd hle hf h
      exact ⟨e', _, hs, _, hJ'⟩)
    ⟨Depth.new, rep_new, good_new, Nat.zero_le _⟩ hfresh hsum

/-- **The book is well formed after every call** of a run that reuses no
live key and hands in less than half the word size: every such run, and
so every beginning of it, ends in a well-formed book. -/
theorem run_wellFormed (algo : MatchAlgo) (calls : List Call)
    (hfresh : Guarded Engine.step Engine.Fresh (Engine.new algo) calls)
    (hsum : submittedQty calls < 2 ^ 63) :
    ∃ e evs, run Engine.step (Engine.new algo) calls = .ok (e, evs) ∧ e.book.WellFormed := by
  obtain ⟨e, evs, hr, d, hrep, hd, hle⟩ := run_good algo calls hfresh hsum
  exact ⟨e, evs, hr, hrep.wellFormed hd (by omega)⟩

/-- A partial fill, a switch of the algorithm and a cancel. -/
theorem run_wellFormed_partial_fill :
    ∃ e evs, run Engine.step (Engine.new .fifo)
      [.submit ⟨1, 0, ⟨ascii "A"⟩, .sell, 10, 5⟩, .submit ⟨2, 0, ⟨ascii "B"⟩, .buy, 11, 3⟩,
        .setAlgo .proRata, .cancel 0 ⟨ascii "A"⟩] = .ok (e, evs) ∧ e.book.WellFormed :=
  run_wellFormed _ _ (by decide +kernel) (by decide)

/-- **The levels and the index hold the same orders after every call** of
a run that reuses no live key, whatever its quantities. Such a run can
end early by a signed overflow only. -/
theorem run_owned (algo : MatchAlgo) (calls : List Call)
    (hfresh : Guarded Engine.step Engine.Fresh (Engine.new algo) calls) :
    run Engine.step (Engine.new algo) calls = .error .signedOverflow ∨
      ∃ e evs, run Engine.step (Engine.new algo) calls = .ok (e, evs) ∧ e.book.Owned := by
  rcases run_inv (E := (· = Fault.signedOverflow)) (H := fun _ : List Call => True)
      (J := fun _ (_ : EventList) (e : Engine) => ∃ d, Rep e.book d) (fun _ _ _ => trivial)
      (fun past outs e c hJ hf _ => by
        obtain ⟨d, hrep⟩ := hJ
        rcases step_sim hrep hf with ⟨-, hs⟩ | ⟨-, e', hs, hrep'⟩
        · exact Or.inl ⟨_, hs, rfl⟩
        · exact Or.inr ⟨e', _, hs, _, hrep'⟩)
      ⟨Depth.new, rep_new⟩ hfresh trivial with
    ⟨f, hr, rfl⟩ | ⟨e, evs, hr, d, hrep⟩
  · exact Or.inl hr
  · exact Or.inr ⟨e, evs, hr, hrep.owned⟩

theorem run_owned_partial_fill :
    run Engine.step (Engine.new .fifo)
      [.submit ⟨1, 0, ⟨ascii "A"⟩, .sell, 10, 5⟩, .submit ⟨2, 0, ⟨ascii "B"⟩, .buy, 11, 3⟩] =
        .error .signedOverflow ∨
    ∃ e evs, run Engine.step (Engine.new .fifo)
      [.submit ⟨1, 0, ⟨ascii "A"⟩, .sell, 10, 5⟩, .submit ⟨2, 0, ⟨ascii "B"⟩, .buy, 11, 3⟩] =
        .ok (e, evs) ∧ e.book.Owned :=
  run_owned _ _ (by decide +kernel)

/-- A second order under a live key is linked, and freed by the emplace
that finds the key taken. -/
theorem reused_key_not_owned :
    ∃ e evs, run Engine.step (Engine.new .fifo)
      [.submit ⟨1, 0, ⟨ascii "A"⟩, .buy, 10, 5⟩, .submit ⟨2, 0, ⟨ascii "A"⟩, .buy, 9, 5⟩] =
        .ok (e, evs) ∧ ¬ e.book.Owned := by
  obtain ⟨e, evs, hr, hc⟩ := @exists_of_run_check _ _ _ _ Engine.step
    (fun r => decide (1 ∈ r.1.book.linked ∧ r.1.book.heap.cells 1 = none)) (Engine.new .fifo)
    [.submit ⟨1, 0, ⟨ascii "A"⟩, .buy, 10, 5⟩, .submit ⟨2, 0, ⟨ascii "A"⟩, .buy, 9, 5⟩]
    (by decide +kernel)
  obtain ⟨hlinked, hdead⟩ := of_decide_eq_true hc
  refine ⟨e, evs, hr, fun ho => ?_⟩
  obtain ⟨o, hcell, -⟩ := ho.indexed 1 hlinked
  rw [hdead] at hcell
  cases hcell

end Core

end OrderbookFix
