import OrderbookFix.Core.Helpers.Levels
/-!
# Pro-rata and first come agree up to the last split

Both algorithms go down the ladder and give each level what the better
ones leave, or all it asks for. How much that is does not depend on the
algorithm, and where it is all or nothing, or there is one order to take
it, neither does the split. So the two can differ at one price only: the
last one reached, used up in part.
-/

namespace OrderbookFix

namespace Core

/-! ## What a submit did at a price -/

def Event.tradeAt (px : Price) : Event → Option Trade
  | .trade t => if t.price = px then some t else none
  | _ => none

/-- The trades put out at a price. -/
def tradesAt (px : Price) (evs : EventList) : List Trade := evs.filterMap (Event.tradeAt px)

/-- The quantity of trades. -/
def tradesQty (ts : List Trade) : ℕ := (ts.map fun t => t.qty.toNat).sum

namespace OrderBook

/-- The orders queued at a price, oldest first. -/
def liveAt (b : OrderBook) (s : BookSide) (px : Price) : List Order := (b.queueAt s px).reduceOption

/-- The quantity open at a price. -/
def openAt (b : OrderBook) (s : BookSide) (px : Price) : ℕ := leavesSum (b.liveAt s px)

end OrderBook

/-- **One submit, price by price**: after the Ack the trades come best
price first, and the queue at a price is the one before, each order less
its fill and in its place, without those the fills exhaust. -/
structure ByPrice (b : OrderBook) (o : Order) (r : OrderBook × EventList) : Prop where
  events : ∃ ts : List Trade, r.2 = .ack ⟨o.id, o.clordId⟩ :: ts.map .trade ∧
    KeySorted o.side.book.opposite.before Trade.price ts
  levels : ∀ px, ∃ fs : List Quantity,
    List.Forall₂ (fun f x => f ≤ x.leavesQty) fs (b.liveAt o.side.book.opposite px) ∧
    tradesAt px r.2 = tradesOf o px (b.liveAt o.side.book.opposite px) fs ∧
    r.1.queueAt o.side.book.opposite px =
      ((fillQueue (b.liveAt o.side.book.opposite px) fs).filter fun x => x.leavesQty ≠ 0).map some

/-- **Two submits agree up to the last split.** -/
structure Agree (b : OrderBook) (o : Order) (r r' : OrderBook × EventList) : Prop where
  /-- the same quantity at every price -/
  traded : ∀ px, tradesQty (tradesAt px r.2) = tradesQty (tradesAt px r'.2)
  /-- the same residual, resting the same way -/
  residual : ∃ ts ts' : List Trade, r.2 = .ack ⟨o.id, o.clordId⟩ :: ts.map .trade ∧
    r'.2 = .ack ⟨o.id, o.clordId⟩ :: ts'.map .trade ∧
    o.leavesQty.toNat - tradesQty ts = o.leavesQty.toNat - tradesQty ts'
  own : ∀ px, r.1.queueAt o.side.book px = r'.1.queueAt o.side.book px
  /-- the same trades and queue at a level of one order, or used up -/
  whole : ∀ px, (b.liveAt o.side.book.opposite px).length ≤ 1 ∨
      tradesQty (tradesAt px r.2) = b.openAt o.side.book.opposite px →
    tradesAt px r.2 = tradesAt px r'.2 ∧
      r.1.queueAt o.side.book.opposite px = r'.1.queueAt o.side.book.opposite px
  /-- a level where they differ is used up in part, those before it are
  used up and those after it are not reached -/
  last : ∀ px, (tradesAt px r.2 ≠ tradesAt px r'.2 ∨
      r.1.queueAt o.side.book.opposite px ≠ r'.1.queueAt o.side.book.opposite px) →
    0 < tradesQty (tradesAt px r.2) ∧
    tradesQty (tradesAt px r.2) < b.openAt o.side.book.opposite px ∧
    (∀ px', o.side.book.opposite.before px' px →
      tradesQty (tradesAt px' r.2) = b.openAt o.side.book.opposite px') ∧
    ∀ px', o.side.book.opposite.before px px' → tradesQty (tradesAt px' r.2) = 0

/-! ## Fills by price -/

section Fills

variable {algo : MatchAlgo} {d : Depth} {o : Order} {fs : List Quantity} {px : Price}

/-- The orders at a price with their fills. -/
def pricedFills (os : List Order) (fs : List Quantity) (px : Price) : List (Order × Quantity) :=
  (os.zip fs).filter fun x => x.1.price = px

theorem map_fst_pricedFills {os : List Order} (h : fs.length = os.length) :
    (pricedFills os fs px).map Prod.fst = os.filter fun r => r.price = px := by
  have hos : (os.zip fs).map Prod.fst = os := List.map_fst_zip (le_of_eq h.symm)
  conv_rhs => rw [← hos]
  rw [pricedFills, List.filter_map]
  rfl

theorem zip_pricedFills {os : List Order} (h : fs.length = os.length) :
    (os.filter fun r => r.price = px).zip ((pricedFills os fs px).map Prod.snd) = pricedFills os fs px := by
  rw [← map_fst_pricedFills h, List.zip_map']
  exact List.map_id _

/-- What the orders at better prices ask for. -/
def askedBefore (d : Depth) (o : Order) (px : Price) : ℕ :=
  (((d.ordersOn o.side.book.opposite).filter fun r =>
    o.side.book.opposite.before r.price px).map (want o)).sum

/-- What the orders at a price ask for. -/
def askedAt (d : Depth) (o : Order) (px : Price) : ℕ :=
  (((d.ordersOn o.side.book.opposite).filter fun r => r.price = px).map (want o)).sum

theorem filter_before {l pre post : Ladder} {s : BookSide} {os : List Order}
    (hsorted : l.Pairwise fun a b => s.before a.1 b.1) (hpriced : l.Priced)
    (hl : l = pre ++ (px, os) :: post) :
    ((l.flatMap Prod.snd).filter fun r => s.before r.price px) = pre.flatMap Prod.snd := by
  subst hl
  obtain ⟨-, htail, hcross⟩ := List.pairwise_append.mp hsorted
  obtain ⟨hpost, -⟩ := List.pairwise_cons.mp htail
  rw [List.flatMap_append, List.filter_append]
  have hkeep : (pre.flatMap Prod.snd).filter (fun r => s.before r.price px) = pre.flatMap Prod.snd := by
    refine List.filter_eq_self.mpr fun r hr => decide_eq_true ?_
    obtain ⟨a, ha, hra⟩ := List.mem_flatMap.mp hr
    rw [hpriced a (List.mem_append_left _ ha) r hra]
    exact hcross a ha (px, os) (List.mem_cons_self ..)
  have hdrop : (((px, os) :: post).flatMap Prod.snd).filter (fun r => s.before r.price px) = [] := by
    refine List.filter_eq_nil_iff.mpr fun r hr => ?_
    obtain ⟨a, ha, hra⟩ := List.mem_flatMap.mp hr
    rw [decide_eq_true_eq, hpriced a (List.mem_append_right _ ha) r hra]
    rcases List.mem_cons.mp ha with rfl | ha
    · exact irrefl_of _ _
    · exact asymm_of _ (hpost a ha)
  rw [hkeep, hdrop, List.append_nil]

theorem length_flatten_fills {fss : List (List Quantity)} {l : Ladder}
    (h : List.Forall₂ (fun fs a => fs.length = a.2.length) fss l) :
    fss.flatten.length = (l.flatMap Prod.snd).length := by
  induction h with
  | nil => rfl
  | cons hab _ ih =>
    rw [List.flatten_cons, List.flatMap_cons, List.length_append, List.length_append, hab, ih]

/-- The fills at the price of a level are those of the level. -/
theorem pricedFills_of_split {l pre post : Ladder} {s : BookSide} {os : List Order}
    {fpre fpost : List (List Quantity)} {f : List Quantity}
    (hsorted : l.Pairwise fun a b => s.before a.1 b.1) (hpriced : l.Priced)
    (hl : l = pre ++ (px, os) :: post) (hpre : fpre.length = pre.length)
    (hlen : List.Forall₂ (fun fs a => fs.length = a.2.length) (fpre ++ f :: fpost) l) :
    f.length = os.length ∧
      pricedFills (l.flatMap Prod.snd) (fpre ++ f :: fpost).flatten px = os.zip f := by
  subst hl
  obtain ⟨-, htail, hcross⟩ := List.pairwise_append.mp hsorted
  obtain ⟨hpost, -⟩ := List.pairwise_cons.mp htail
  obtain ⟨pre', a, post', heq, hpre', hf, -⟩ := forall₂_split hlen
  obtain ⟨rfl, hcons⟩ := List.append_inj heq.symm (hpre'.length_eq.symm.trans hpre)
  obtain ⟨rfl, rfl⟩ := List.cons.inj hcons
  have hflat := length_flatten_fills hpre'
  -- A ladder quotes each price once, so the levels before and after this one hold nothing at `px`.
  have hne : ∀ (c : Ladder) (g : List Quantity), (∀ a ∈ c, a.1 ≠ px) → Ladder.Priced c →
      (((c.flatMap Prod.snd).zip g).filter fun x => x.1.price = px) = [] := by
    intro c g hc hp
    refine List.filter_eq_nil_iff.mpr fun x hx => ?_
    obtain ⟨a, ha, hra⟩ := List.mem_flatMap.mp (List.of_mem_zip hx).1
    rw [decide_eq_true_eq, hp a ha _ hra]
    exact hc a ha
  refine ⟨hf, ?_⟩
  rw [pricedFills, List.flatMap_append, List.flatten_append, List.zip_append hflat.symm,
    List.flatMap_cons, List.flatten_cons, List.zip_append hf.symm, List.filter_append,
    List.filter_append, hne, hne, List.nil_append, List.append_nil]
  · refine List.filter_eq_self.mpr fun x hx => decide_eq_true ?_
    exact hpriced (px, os) (List.mem_append_right _ (List.mem_cons_self ..)) _ (List.of_mem_zip hx).1
  · rintro a ha rfl
    exact irrefl_of _ _ (hpost a ha)
  · exact fun a ha => hpriced a (List.mem_append_right _ (List.mem_cons_of_mem _ ha))
  · rintro a ha rfl
    exact irrefl_of _ _ (hcross a ha (a.1, os) (List.mem_cons_self ..))
  · exact fun a ha => hpriced a (List.mem_append_left _ ha)

/-- **What one price gets**: an allocation of what the better prices leave
of the order. -/
theorem isAlloc_at (h : d.Placed)
    (hlt : ∀ a ∈ d.ladder o.side.book.opposite,
      crosses o.side o.price a.1 = true → leavesSum a.2 < 2 ^ 64)
    (hfs : fs = (ladderFills algo (d.ladder o.side.book.opposite) o).flatten) (px : Price) :
    IsAlloc (o.leavesQty.toNat - askedBefore d o px)
      (((d.ordersOn o.side.book.opposite).filter fun r => r.price = px).map (want o))
      ((pricedFills (d.ordersOn o.side.book.opposite) fs px).map fun x => x.2.toNat) := by
  set l := d.ladder o.side.book.opposite with hl
  have hsorted := h.sorted o.side.book.opposite
  have hpriced := h.priced o.side.book.opposite
  rw [← hl] at hsorted hpriced
  have hlen := @forall₂_ladderFills algo o l
  by_cases hex : ∃ a ∈ l, a.1 = px
  · obtain ⟨⟨px', os⟩, hmem, rfl⟩ := hex
    obtain ⟨pre, post, hsplit⟩ := List.append_of_mem hmem
    have hcascade := @cascade_ladderFills algo o l hlt
    rw [hsplit, List.map_append, List.map_cons] at hcascade
    obtain ⟨gpre, g, gpost, heq, hglen, halloc⟩ := hcascade.split
    rw [← hsplit] at heq
    obtain ⟨fpre, rest, hfss, rfl, hrest⟩ := List.map_eq_append_iff.mp heq
    obtain ⟨f, fpost, rfl, rfl, -⟩ := List.map_eq_cons_iff.mp hrest
    rw [hfss] at hfs hlen
    obtain ⟨hf, hfills⟩ := pricedFills_of_split hsorted hpriced hsplit (by simpa using hglen) hlen
    have hos := h.filter_price (hl.symm.trans hsplit)
    have hbefore := filter_before hsorted hpriced hsplit
    have hpre : (pre.map (demand o)).flatten.sum = askedBefore d o px' := by
      rw [askedBefore, Depth.ordersOn, ← hl, hbefore,
        flatten_demand fun a ha => hpriced a (by rw [hsplit]; exact List.mem_append_left _ ha)]
    have hdemand : demand o (px', os) = os.map (want o) := by
      have := @flatten_demand o [(px', os)] fun a ha => by
        rw [List.mem_singleton.mp ha]
        exact hpriced _ hmem
      simpa using this
    rw [hos, hfs, Depth.ordersOn, ← hl, hfills, ← hpre, ← hdemand]
    have hsnd : (os.zip f).map (fun x => x.2.toNat) = f.map UInt64.toNat := by
      have hz : (os.zip f).map Prod.snd = f := List.map_snd_zip (le_of_eq hf)
      conv_rhs => rw [← hz]
      rw [List.map_map]
      rfl
    rw [hsnd]
    exact halloc
  · -- nothing is queued there
    have hnone : (d.ordersOn o.side.book.opposite).filter (fun r => r.price = px) = [] :=
      filter_price_of_ne hpriced fun a ha hpx => hex ⟨a, ha, hpx⟩
    have hfills : pricedFills (d.ordersOn o.side.book.opposite) fs px = [] := by
      have hle := congrArg List.length (@map_fst_pricedFills fs px
        (d.ordersOn o.side.book.opposite) (by rw [hfs]; exact length_flatten_fills hlen))
      rw [hnone, List.length_map] at hle
      exact List.length_eq_zero_iff.mp hle
    rw [hnone, hfills]
    exact ⟨.nil, (Nat.min_zero _).symm⟩

/-- Prices in order ask in turn. -/
theorem asked_add_le {px px' : Price} (h : o.side.book.opposite.before px px') :
    askedBefore d o px + askedAt d o px ≤ askedBefore d o px' := by
  rw [askedBefore, askedAt, askedBefore]
  induction d.ordersOn o.side.book.opposite with
  | nil => exact Nat.le_refl _
  | cons r os ih =>
    by_cases hb : o.side.book.opposite.before r.price px
    · have hne : ¬ r.price = px := fun hc => irrefl_of _ _ (hc ▸ hb)
      have hb' : o.side.book.opposite.before r.price px' := trans_of _ hb h
      simp only [List.filter_cons, hb, hne, hb', decide_true, decide_false, if_true,
        Bool.false_eq_true, if_false, List.map_cons, List.sum_cons]
      omega
    · by_cases he : r.price = px
      · have hirr : ¬ o.side.book.opposite.before px px := irrefl_of _ _
        simp only [List.filter_cons, he, h, hirr, decide_true, decide_false, if_true,
          Bool.false_eq_true, if_false, List.map_cons, List.sum_cons]
        omega
      · by_cases hb' : o.side.book.opposite.before r.price px'
        · simp only [List.filter_cons, hb, he, hb', decide_true, decide_false, if_true,
            Bool.false_eq_true, if_false, List.map_cons, List.sum_cons]
          omega
        · simp only [List.filter_cons, hb, he, hb', decide_false, Bool.false_eq_true, if_false]
          exact ih

/-- A price asks for what is open there, where the order crosses it. -/
theorem askedAt_of_crosses (h : crosses o.side o.price px = true) :
    askedAt d o px =
      leavesSum ((d.ordersOn o.side.book.opposite).filter fun r => r.price = px) := by
  refine congrArg List.sum (List.map_congr_left fun r hr => if_pos ?_)
  have hpx : r.price = px := by simpa using (List.mem_filter.mp hr).2
  rw [hpx]
  exact h

theorem askedAt_of_not_crosses (h : ¬ crosses o.side o.price px = true) : askedAt d o px = 0 := by
  refine List.sum_eq_zero fun w hw => ?_
  obtain ⟨r, hr, rfl⟩ := List.mem_map.mp hw
  have hpx : r.price = px := by simpa using (List.mem_filter.mp hr).2
  refine if_neg ?_
  rw [hpx]
  exact h

theorem askedAt_le : askedAt d o px ≤
    leavesSum ((d.ordersOn o.side.book.opposite).filter fun r => r.price = px) := by
  by_cases hc : crosses o.side o.price px = true
  · exact Nat.le_of_eq (askedAt_of_crosses hc)
  · rw [askedAt_of_not_crosses hc]
    exact Nat.zero_le _

/-- The quantity of the trades of fills. -/
theorem tradesQty_of_fills {l : List (Order × Quantity)} {g : Order × Quantity → Trade}
    (hg : ∀ x, (g x).qty = x.2) :
    tradesQty ((l.filter fun x => x.2 ≠ 0).map g) = (l.map fun x => x.2.toNat).sum := by
  induction l with
  | nil => rfl
  | cons x l ih =>
    by_cases hx : x.2 = 0
    · rw [List.filter_cons_of_neg (by simpa using hx), ih, List.map_cons, List.sum_cons, hx]
      exact (Nat.zero_add _).symm
    · rw [List.filter_cons_of_pos (by simpa using hx), tradesQty] at *
      rw [List.map_cons, List.map_cons, List.sum_cons, List.map_cons, List.sum_cons, hg, ← ih]

/-- The trades of a submit at a price. -/
theorem tradesAt_fills {os : List Order} (h : fs.length = os.length) (a : Ack) :
    tradesAt px (.ack a :: (orderTrades o os fs).map .trade) =
      tradesOf o px (os.filter fun r => r.price = px) ((pricedFills os fs px).map Prod.snd) := by
  have hfilter : ∀ ts : List Trade,
      tradesAt px (.ack a :: ts.map .trade) = ts.filter fun t => t.price = px := by
    intro ts
    rw [tradesAt, List.filterMap_cons_none rfl, List.filterMap_map]
    induction ts with
    | nil => rfl
    | cons t ts ih =>
      by_cases ht : t.price = px
      · rw [List.filterMap_cons_some (b := t) (by simp [Event.tradeAt, ht]),
          List.filter_cons_of_pos (by simpa using ht), ih]
      · rw [List.filterMap_cons_none (by simp [Event.tradeAt, ht]),
          List.filter_cons_of_neg (by simpa using ht), ih]
  rw [hfilter, tradesOf, zip_pricedFills h, orderTrades, List.filter_map, pricedFills,
    List.filter_filter, List.filter_filter]
  have hcomm : ((fun t : Trade => decide (t.price = px)) ∘
      fun x : Order × Quantity => trade o x.1 x.1.price x.2) = fun x => decide (x.1.price = px) := rfl
  rw [hcomm]
  simp only [Bool.and_comm]
  refine List.map_congr_left fun x hx => ?_
  have hpx : x.1.price = px := by
    have := (List.mem_filter.mp hx).2
    simp only [Bool.and_eq_true, decide_eq_true_eq] at this
    tauto
  rw [hpx]

/-- The orders a match leaves at a price. -/
theorem filter_fillQueue {os : List Order} (h : fs.length = os.length) :
    (((fillQueue os fs).filter fun r => r.leavesQty ≠ 0).filter fun r => r.price = px) =
      (fillQueue (os.filter fun r => r.price = px) ((pricedFills os fs px).map Prod.snd)).filter
        fun r => r.leavesQty ≠ 0 := by
  have hzip : ∀ (os : List Order) (fs : List Quantity),
      fillQueue os fs = (os.zip fs).map fun x => x.1.fill x.2 := by
    intro os fs
    rw [fillQueue, List.zip_eq_zipWith, List.map_zipWith]
  rw [hzip, hzip, zip_pricedFills h, pricedFills, List.filter_comm, List.filter_map]
  rfl

end Fills

/-! ## One submit, price by price -/

section Submit

variable {algo : MatchAlgo} {b : OrderBook} {d : Depth} {o : Order}

theorem Rep.liveAt_eq (h : Rep b d) (s : BookSide) (px : Price) :
    b.liveAt s px = (d.ordersOn s).filter fun r => r.price = px := by
  rw [OrderBook.liveAt, h.queueAt_eq]
  exact filterMap_of_map_some (List.map_map ..)

/-- **A submit read by price**, with the fills over the opposite side. -/
structure Priced (b : OrderBook) (d : Depth) (algo : MatchAlgo) (o : Order) (fs : List Quantity)
    (r : OrderBook × EventList) : Prop where
  length : fs.length = (d.ordersOn o.side.book.opposite).length
  events : r.2 = .ack ⟨o.id, o.clordId⟩ ::
    (orderTrades o (d.ordersOn o.side.book.opposite) fs).map .trade
  alloc : IsAlloc o.leavesQty.toNat ((d.ordersOn o.side.book.opposite).map (want o))
    (fs.map UInt64.toNat)
  allocAt : ∀ px, IsAlloc (o.leavesQty.toNat - askedBefore d o px)
    (((d.ordersOn o.side.book.opposite).filter fun r => r.price = px).map (want o))
    ((pricedFills (d.ordersOn o.side.book.opposite) fs px).map fun x => x.2.toNat)
  queue : ∀ px, r.1.queueAt o.side.book.opposite px =
    ((fillQueue ((d.ordersOn o.side.book.opposite).filter fun r => r.price = px)
      ((pricedFills (d.ordersOn o.side.book.opposite) fs px).map Prod.snd)).filter
        fun x => x.leavesQty ≠ 0).map some
  own : ∃ b', Rep b' (d.matched algo o) ∧
    (d.matched algo o).ordersOn o.side.book.opposite =
      (fillQueue (d.ordersOn o.side.book.opposite) fs).filter (fun r => r.leavesQty ≠ 0) ∧
    ∀ px, r.1.queueAt o.side.book px = b.queueAt o.side.book px ++
      if px = o.price ∧ 0 < (o.fill fs.sum).leavesQty then
        [if b'.index.lookup o.key = none then some (o.fill fs.sum) else none]
      else []

theorem submit_priced (h : Rep b d) (algo : MatchAlgo) (o : Order)
    (hlt : ∀ a ∈ d.ladder o.side.book.opposite,
      crosses o.side o.price a.1 = true → leavesSum a.2 < 2 ^ 63) :
    ∃ fs r, submit algo b o = .ok r ∧ Priced b d algo o fs r := by
  have hlt' : ∀ a ∈ d.ladder o.side.book.opposite,
      crosses o.side o.price a.1 = true → leavesSum a.2 < 2 ^ 64 := fun a ha hc =>
    Nat.lt_trans (hlt a ha hc) (by decide)
  have hplaced := h.toPlaced
  obtain ⟨fs, hfs⟩ : ∃ fs, fs = (ladderFills algo (d.ladder o.side.book.opposite) o).flatten :=
    ⟨_, rfl⟩
  have hlen : fs.length = (d.ordersOn o.side.book.opposite).length := by
    rw [hfs]
    exact length_flatten_fills forall₂_ladderFills
  obtain ⟨b', hb', hsub⟩ := submit_fills h hlt hfs
  have hopp := ordersOn_matched hplaced hfs
  refine ⟨fs, _, hsub, hlen, rfl, ?_, isAlloc_at hplaced hlt' hfs, fun px => ?_, b', hb', hopp,
    fun px => ?_⟩
  · rw [hfs]
    exact (execution_ladderFills hplaced hlt').alloc
  · -- resting touches the other side only
    have hrest : (if 0 < (o.fill fs.sum).leavesQty then b'.rest (o.fill fs.sum) else b').queueAt
        o.side.book.opposite px = b'.queueAt o.side.book.opposite px := by
      split
      · rw [hb'.queueAt_rest, if_neg fun hc => book_opposite_ne _ hc.1.symm, List.append_nil]
      · rfl
    rw [hrest, hb'.queueAt_eq, hopp, filter_fillQueue hlen]
  · have hown : b'.queueAt o.side.book px = b.queueAt o.side.book px := by
      rw [hb'.queueAt_eq, h.queueAt_eq, ordersOn_matched_own]
    dsimp only
    have hat : (o.side.book = (o.fill fs.sum).side.book ∧ px = (o.fill fs.sum).price) ↔
        px = o.price := ⟨And.right, fun hpx => ⟨rfl, hpx⟩⟩
    by_cases hpos : 0 < (o.fill fs.sum).leavesQty
    · rw [if_pos hpos, hb'.queueAt_rest, hown]
      simp only [hpos, and_true, hat]
      rfl
    · rw [if_neg hpos, hown, if_neg fun hc => hpos hc.2, List.append_nil]

end Submit

section Priced

variable {algo algo' : MatchAlgo} {b : OrderBook} {d : Depth} {o : Order} {fs fs' : List Quantity}
variable {r r' : OrderBook × EventList}

namespace Priced

theorem tradesAt_eq (h : Priced b d algo o fs r) (px : Price) :
    tradesAt px r.2 = tradesOf o px ((d.ordersOn o.side.book.opposite).filter fun r => r.price = px)
      ((pricedFills (d.ordersOn o.side.book.opposite) fs px).map Prod.snd) := by
  rw [h.events, tradesAt_fills h.length]

/-- **What is traded at a price**: what it asks for, as far as the better
prices leave it. -/
theorem qtyAt (h : Priced b d algo o fs r) (px : Price) :
    tradesQty (tradesAt px r.2) =
      min (o.leavesQty.toNat - askedBefore d o px) (askedAt d o px) := by
  rw [h.tradesAt_eq, tradesOf, zip_pricedFills h.length, tradesQty_of_fills fun _ => rfl]
  exact (h.allocAt px).sum

/-- Fills that are the same at a price show the same there. -/
theorem same_at (h : Priced b d algo o fs r) (h' : Priced b d algo' o fs' r') {px : Price}
    (hsame : ((pricedFills (d.ordersOn o.side.book.opposite) fs px).map fun x => x.2.toNat) =
      (pricedFills (d.ordersOn o.side.book.opposite) fs' px).map fun x => x.2.toNat) :
    tradesAt px r.2 = tradesAt px r'.2 ∧
      r.1.queueAt o.side.book.opposite px = r'.1.queueAt o.side.book.opposite px := by
  have hfills : (pricedFills (d.ordersOn o.side.book.opposite) fs px).map Prod.snd =
      (pricedFills (d.ordersOn o.side.book.opposite) fs' px).map Prod.snd := by
    refine List.map_injective_iff.mpr (fun a b => UInt64.toNat_inj.mp) ?_
    rw [List.map_map, List.map_map]
    exact hsame
  rw [h.tradesAt_eq, h'.tradesAt_eq, h.queue, h'.queue, hfills]
  exact ⟨rfl, rfl⟩

/-- The two are the same at a price that is one order, or gets all it asks
for, or nothing. -/
theorem same_of_whole (h : Priced b d algo o fs r) (h' : Priced b d algo' o fs' r') {px : Price}
    (hw : ((d.ordersOn o.side.book.opposite).filter fun r => r.price = px).length ≤ 1 ∨
      askedAt d o px ≤ o.leavesQty.toNat - askedBefore d o px ∨
      o.leavesQty.toNat - askedBefore d o px = 0) :
    tradesAt px r.2 = tradesAt px r'.2 ∧
      r.1.queueAt o.side.book.opposite px = r'.1.queueAt o.side.book.opposite px := by
  refine h.same_at h' ?_
  rw [← List.length_map (want o)] at hw
  rw [(h.allocAt px).eq_greedy hw, (h'.allocAt px).eq_greedy hw]

/-- The trades come best price first. -/
theorem keySorted (h : d.Placed)
    (hlen : fs.length = (d.ordersOn o.side.book.opposite).length) :
    KeySorted o.side.book.opposite.before Trade.price
      (orderTrades o (d.ordersOn o.side.book.opposite) fs) := by
  have hsorted : ((d.ordersOn o.side.book.opposite).map Order.price).Pairwise
      fun x y => ¬ o.side.book.opposite.before y x :=
    List.pairwise_map.mpr (Ladder.keySorted (h.sorted _) (h.priced _))
  have hsub : ((orderTrades o (d.ordersOn o.side.book.opposite) fs).map Trade.price).Sublist
      ((d.ordersOn o.side.book.opposite).map Order.price) := by
    have hprices : (orderTrades o (d.ordersOn o.side.book.opposite) fs).map Trade.price =
        ((((d.ordersOn o.side.book.opposite).zip fs).filter fun x => x.2 ≠ 0).map Prod.fst).map
          Order.price := by
      rw [orderTrades, List.map_map, List.map_map]
      rfl
    rw [hprices]
    refine List.Sublist.map _ ?_
    have hfst : ((d.ordersOn o.side.book.opposite).zip fs).map Prod.fst =
        d.ordersOn o.side.book.opposite := List.map_fst_zip (le_of_eq hlen.symm)
    conv_rhs => rw [← hfst]
    exact List.filter_sublist.map _
  exact List.pairwise_map.mp (hsorted.sublist hsub)

theorem byPrice (h : Priced b d algo o fs r) (hrep : Rep b d) : ByPrice b o r where
  events := ⟨_, h.events, keySorted hrep.toPlaced h.length⟩
  levels px := by
    rw [hrep.liveAt_eq]
    refine ⟨_, ?_, h.tradesAt_eq px, h.queue px⟩
    have hle := (h.allocAt px).le
    rw [List.forall₂_map_left_iff, List.forall₂_map_right_iff] at hle
    rw [List.forall₂_map_left_iff]
    refine hle.imp fun x y hxy => UInt64.le_iff_toNat_le.mpr (Nat.le_trans hxy ?_)
    rw [want]
    split
    · exact Nat.le_refl _
    · exact Nat.zero_le _

/-- What is left of the order rests the same way. -/
theorem own_eq (h : Priced b d algo o fs r) (h' : Priced b d algo' o fs' r') (px : Price) :
    r.1.queueAt o.side.book px = r'.1.queueAt o.side.book px := by
  obtain ⟨b₁, hb₁, hopp₁, hown₁⟩ := h.own
  obtain ⟨b₂, hb₂, hopp₂, hown₂⟩ := h'.own
  have hlt : o.leavesQty.toNat < 2 ^ 64 := o.leavesQty.toNat_lt
  have hsum₁ := toNat_sum (Nat.lt_of_le_of_lt h.alloc.sum_le_avail hlt)
  have hsum₂ := toNat_sum (Nat.lt_of_le_of_lt h'.alloc.sum_le_avail hlt)
  have hsum : fs.sum = fs'.sum := by
    rw [← UInt64.toNat_inj, hsum₁, hsum₂, h.alloc.sum, h'.alloc.sum]
  rw [hown₁, hown₂, ← hsum]
  by_cases hrest : px = o.price ∧ 0 < (o.fill fs.sum).leavesQty
  · -- with quantity left every fill is what was asked for, so the same orders are gone
    have hleft : (fs.map UInt64.toNat).sum < o.leavesQty.toNat := by
      have hpos := toNat_pos.mp hrest.2
      have hle := h.alloc.sum_le_avail
      rw [Order.leavesQty_fill, toNat_sub_of_le (by omega)] at hpos
      omega
    have hfs : fs = fs' := by
      refine List.map_injective_iff.mpr (fun a b => UInt64.toNat_inj.mp) ?_
      rw [h.alloc.eq_of_sum_lt hleft, h'.alloc.eq_of_sum_lt (by rw [← hsum₂, ← hsum, hsum₁]; exact hleft)]
    have horders : ∀ s, (d.matched algo o).ordersOn s = (d.matched algo' o).ordersOn s := by
      intro s
      rcases eq_or_eq_opposite o.side.book s with rfl | rfl
      · rw [ordersOn_matched_own, ordersOn_matched_own]
      · rw [hopp₁, hopp₂, hfs]
    have hkey : b₁.index.lookup o.key = none ↔ b₂.index.lookup o.key = none := by
      rw [hb₁.lookup_eq_none, hb₂.lookup_eq_none, Depth.orders, Depth.orders, horders, horders]
    simp only [if_pos hrest, hkey]
  · rw [if_neg hrest, if_neg hrest]

/-- **A price where the two differ** is used up in part; those before it
are used up, and those after it get nothing. -/
theorem last (h : Priced b d algo o fs r) (h' : Priced b d algo' o fs' r') {px : Price}
    (hdiff : tradesAt px r.2 ≠ tradesAt px r'.2 ∨
      r.1.queueAt o.side.book.opposite px ≠ r'.1.queueAt o.side.book.opposite px) :
    0 < tradesQty (tradesAt px r.2) ∧
    tradesQty (tradesAt px r.2) <
      leavesSum ((d.ordersOn o.side.book.opposite).filter fun r => r.price = px) ∧
    (∀ px', o.side.book.opposite.before px' px →
      tradesQty (tradesAt px' r.2) =
        leavesSum ((d.ordersOn o.side.book.opposite).filter fun r => r.price = px')) ∧
    ∀ px', o.side.book.opposite.before px px' → tradesQty (tradesAt px' r.2) = 0 := by
  -- Were the price filled whole or left alone, both algorithms would leave the same queue there.
  have hpart : 0 < o.leavesQty.toNat - askedBefore d o px ∧
      o.leavesQty.toNat - askedBefore d o px < askedAt d o px := by
    by_contra hc
    obtain ⟨ht, hq⟩ : tradesAt px r.2 = tradesAt px r'.2 ∧
        r.1.queueAt o.side.book.opposite px = r'.1.queueAt o.side.book.opposite px :=
      h.same_of_whole h' (.inr (by omega))
    exact hdiff.elim (fun hd => hd ht) fun hd => hd hq
  have hcross : crosses o.side o.price px = true := by
    by_contra hc
    have := @askedAt_of_not_crosses d o px hc
    omega
  have hle := @askedAt_le d o px
  refine ⟨?_, ?_, fun px' hb => ?_, fun px' hb => ?_⟩
  · rw [h.qtyAt]
    omega
  · rw [h.qtyAt]
    omega
  · have hadd := @asked_add_le d o px' px hb
    rw [h.qtyAt, ← askedAt_of_crosses (crosses_of_before hb hcross)]
    omega
  · have hadd := @asked_add_le d o px px' hb
    rw [h.qtyAt]
    omega

/-- **Two submits of one order agree up to the last split.** -/
theorem agree (h : Priced b d algo o fs r) (h' : Priced b d algo' o fs' r') (hrep : Rep b d) :
    Agree b o r r' where
  traded px := by rw [h.qtyAt, h'.qtyAt]
  residual := by
    refine ⟨_, _, h.events, h'.events, ?_⟩
    have hqty : ∀ {algo fs r}, Priced b d algo o fs r →
        tradesQty (orderTrades o (d.ordersOn o.side.book.opposite) fs) =
          (fs.map UInt64.toNat).sum := by
      intro algo fs r h
      have hsnd : ((d.ordersOn o.side.book.opposite).zip fs).map Prod.snd = fs :=
        List.map_snd_zip (le_of_eq h.length)
      rw [orderTrades, tradesQty_of_fills fun _ => rfl]
      conv_rhs => rw [← hsnd]
      rw [List.map_map]
      rfl
    rw [hqty h, hqty h', h.alloc.sum, h'.alloc.sum]
  own := h.own_eq h'
  whole px hw := by
    refine h.same_of_whole h' ?_
    rw [OrderBook.openAt, hrep.liveAt_eq, h.qtyAt] at hw
    have hle := @askedAt_le d o px
    omega
  last px hdiff := by
    simp only [OrderBook.openAt, hrep.liveAt_eq]
    exact h.last h' hdiff

end Priced

end Priced

/-- **Pro-rata and first come agree up to the last split**, after any run
that reuses no live key and hands in less than half the word size, for
any order whatever its key and quantity. -/
theorem prorata_fifo_agree (algo : MatchAlgo) (calls : List Call)
    (hfresh : Guarded Engine.step Engine.Fresh (Engine.new algo) calls)
    (hsum : submittedQty calls < 2 ^ 63) :
    ∃ e evs, run Engine.step (Engine.new algo) calls = .ok (e, evs) ∧
      ∀ o : Order, ∃ r r', submit .proRata e.book o = .ok r ∧ submit .fifo e.book o = .ok r' ∧
        ByPrice e.book o r ∧ ByPrice e.book o r' ∧ Agree e.book o r r' := by
  obtain ⟨e, evs, hr, d, hrep, -, hle⟩ := run_good algo calls hfresh hsum
  refine ⟨e, evs, hr, fun o => ?_⟩
  have hlt : ∀ a ∈ d.ladder o.side.book.opposite,
      crosses o.side o.price a.1 = true → leavesSum a.2 < 2 ^ 63 := fun a ha _ => by
    have := leavesSum_le_of_mem ha
    omega
  obtain ⟨fs, r, hsub, hp⟩ := submit_priced hrep .proRata o hlt
  obtain ⟨fs', r', hsub', hp'⟩ := submit_priced hrep .fifo o hlt
  exact ⟨r, r', hsub, hsub', hp.byPrice hrep, hp'.byPrice hrep, hp.agree hp' hrep⟩

/-- Two sells at one price and one behind them. -/
theorem prorata_fifo_agree_three_sells :
    ∃ e evs, run Engine.step (Engine.new .proRata)
        [.submit ⟨1, 1, ⟨ascii "A"⟩, .sell, 100, 5⟩, .submit ⟨2, 2, ⟨ascii "B"⟩, .sell, 100, 5⟩,
          .submit ⟨3, 3, ⟨ascii "C"⟩, .sell, 101, 5⟩] = .ok (e, evs) ∧
      ∀ o : Order, ∃ r r', submit .proRata e.book o = .ok r ∧ submit .fifo e.book o = .ok r' ∧
        ByPrice e.book o r ∧ ByPrice e.book o r' ∧ Agree e.book o r r' :=
  prorata_fifo_agree _ _ (by decide +kernel) (by decide)

end Core

end OrderbookFix
