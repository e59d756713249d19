import OrderbookFix.Core.Helpers.Alloc
/-!
# What a submit does to the book as values

The level by level match read as one list of fills over the orders of the
opposite ladder, best price first. The fills go down the ladder as a
cascade, so they allocate the aggressor's leaves over the orders it
crosses, and a level is touched only once the better ones are used up.
-/

namespace OrderbookFix

namespace Core

/-! ## The fills of a ladder -/

/-- What the orders of a level ask of the aggressor: their leaves where
it crosses the level, nothing elsewhere. -/
def demand (aggr : Order) (a : Price × List Order) : List ℕ :=
  if crosses aggr.side aggr.price a.1 then a.2.map fun o => o.leavesQty.toNat
  else a.2.map fun _ => 0

/-- The fills of a level. -/
def levelFills (algo : MatchAlgo) (aggr : Order) (a : Price × List Order) : List Quantity :=
  if crosses aggr.side aggr.price a.1 then fillsAt algo aggr a.2 else a.2.map fun _ => 0

/-- The fills of a ladder, level by level. -/
def ladderFills (algo : MatchAlgo) : Ladder → Order → List (List Quantity)
  | [], _ => []
  | a :: rest, aggr =>
    levelFills algo aggr a :: ladderFills algo rest (aggr.fill (levelFills algo aggr a).sum)

/-- A ladder after its fills. -/
def fillLadder (l : Ladder) (fss : List (List Quantity)) : Ladder :=
  List.zipWith (fun a fs => (a.1, fillQueue a.2 fs)) l fss

/-- The trades of a ladder's fills. -/
def ladderTrades (aggr : Order) (l : Ladder) (fss : List (List Quantity)) : List Trade :=
  (List.zipWith (fun a fs => tradesOf aggr a.1 a.2 fs) l fss).flatten

@[simp] theorem Order.leavesQty_fill (o : Order) (f : Quantity) :
    (o.fill f).leavesQty = o.leavesQty - f := rfl

@[simp] theorem Order.fill_fill (o : Order) (f g : Quantity) :
    (o.fill f).fill g = o.fill (f + g) := by
  simp only [Order.fill, Order.mk.injEq, true_and]
  grind

theorem fillsAt_of_zero {algo : MatchAlgo} {aggr : Order} (h : aggr.leavesQty = 0)
    {os : List Order} : fillsAt algo aggr os = os.map fun _ => 0 := by
  have hzero : ∀ f ∈ fillsAt algo aggr os, f = 0 := by
    rw [fillsAt, h]
    cases algo with
    | proRata =>
      intro f hf
      rw [fills, prorataFills, if_pos (Or.inr rfl)] at hf
      obtain ⟨q, -, rfl⟩ := List.mem_map.mp hf
      rfl
    | fifo => exact fun f hf => fifoFills_of_not_lt (UInt64.lt_irrefl 0) _ f hf
  rw [List.eq_replicate_of_mem hzero, length_fillsAt, List.map_const']

section Fills

variable {algo : MatchAlgo} {aggr : Order} {l : Ladder}

theorem length_levelFills {a : Price × List Order} :
    (levelFills algo aggr a).length = a.2.length := by
  rw [levelFills]
  split
  · exact length_fillsAt
  · rw [List.length_map]

/-- An order with nothing left, or that crosses nothing, fills nothing. -/
theorem ladderFills_of_idle
    (h : aggr.leavesQty = 0 ∨ ∀ a ∈ l, crosses aggr.side aggr.price a.1 = false) :
    ladderFills algo l aggr = l.map fun a => a.2.map fun _ => 0 := by
  induction l with
  | nil => rfl
  | cons a l ih =>
    have hlevel : levelFills algo aggr a = a.2.map fun _ => 0 := by
      rw [levelFills]
      split
      · rename_i hc
        rcases h with h | h
        · exact fillsAt_of_zero h
        · rw [h a (List.mem_cons_self ..)] at hc
          cases hc
      · rfl
    have hsum : (levelFills algo aggr a).sum = 0 := by
      rw [hlevel]
      exact sum_eq_zero fun f hf => by
        obtain ⟨o, -, rfl⟩ := List.mem_map.mp hf
        rfl
    rw [ladderFills, hsum, Order.fill_zero, hlevel, List.map_cons,
      ih (h.imp id fun h a ha => h a (List.mem_cons_of_mem _ ha))]

theorem fillLadder_of_idle : fillLadder l (l.map fun a => a.2.map fun _ => 0) = l := by
  induction l with
  | nil => rfl
  | cons a l ih =>
    simp only [fillLadder, List.map_cons, List.zipWith_cons_cons, fillQueue_zero] at ih ⊢
    rw [ih]

theorem tradesOf_of_idle {px : Price} {os : List Order} :
    tradesOf aggr px os (os.map fun _ => 0) = [] := by
  induction os with
  | nil => rfl
  | cons o os ih => rw [List.map_cons, tradesOf_cons, if_pos rfl, ih]

theorem ladderTrades_of_idle : ladderTrades aggr l (l.map fun a => a.2.map fun _ => 0) = [] := by
  induction l with
  | nil => rfl
  | cons a l ih =>
    simp only [ladderTrades, List.map_cons, List.zipWith_cons_cons, List.flatten_cons,
      tradesOf_of_idle] at ih ⊢
    exact ih

theorem sum_flatten_of_idle : (l.map fun a => a.2.map fun _ => (0 : Quantity)).flatten.sum = 0 := by
  refine sum_eq_zero fun f hf => ?_
  obtain ⟨fs, hfs, hf⟩ := List.mem_flatten.mp hf
  obtain ⟨a, -, rfl⟩ := List.mem_map.mp hfs
  obtain ⟨o, -, rfl⟩ := List.mem_map.mp hf
  rfl

theorem sweepLadder_cons_nil {px : Price} : sweepLadder ((px, []) :: l) = sweepLadder l := by
  simp [sweepLadder]

theorem sweepLadder_cons_congr {a : Price × List Order} {l' : Ladder}
    (h : sweepLadder l = sweepLadder l') : sweepLadder (a :: l) = sweepLadder (a :: l') := by
  simp only [sweepLadder, List.map_cons, List.filter_cons] at h ⊢
  rw [h]

/-- Where nothing is filled, the ladder, the order and the trades are as
given. -/
theorem fills_of_idle
    (h : aggr.leavesQty = 0 ∨ ∀ a ∈ l, crosses aggr.side aggr.price a.1 = false) :
    sweepLadder l = sweepLadder (fillLadder l (ladderFills algo l aggr)) ∧
      aggr = aggr.fill (ladderFills algo l aggr).flatten.sum ∧
      [] = ladderTrades aggr l (ladderFills algo l aggr) := by
  rw [ladderFills_of_idle h]
  exact ⟨by rw [fillLadder_of_idle], by rw [sum_flatten_of_idle, Order.fill_zero],
    ladderTrades_of_idle.symm⟩

/-- **The match of a ladder is its fills**, where the levels the order
crosses come first. -/
theorem matchLadder_eq_fills
    (h : l.Pairwise fun a b =>
      crosses aggr.side aggr.price b.1 = true → crosses aggr.side aggr.price a.1 = true) :
    sweepLadder (matchLadder algo l aggr).1 =
        sweepLadder (fillLadder l (ladderFills algo l aggr)) ∧
      (matchLadder algo l aggr).2.1 = aggr.fill (ladderFills algo l aggr).flatten.sum ∧
      (matchLadder algo l aggr).2.2 = ladderTrades aggr l (ladderFills algo l aggr) := by
  induction l generalizing aggr with
  | nil => exact ⟨rfl, (Order.fill_zero aggr).symm, rfl⟩
  | cons a l ih =>
    obtain ⟨px, os⟩ := a
    obtain ⟨hhead, htail⟩ := List.pairwise_cons.mp h
    rw [matchLadder]
    split
    · -- an empty level is skipped, and its fills are none
      rename_i hos
      subst hos
      have hlevel : levelFills algo aggr (px, []) = [] := List.length_eq_zero_iff.mp length_levelFills
      obtain ⟨h1, h2, h3⟩ := ih htail
      rw [ladderFills, hlevel, List.sum_nil, Order.fill_zero, List.flatten_cons, List.nil_append]
      refine ⟨?_, h2, h3⟩
      rw [h1]
      exact sweepLadder_cons_nil.symm
    split
    · rename_i hstop
      refine fills_of_idle (hstop.imp id fun hc a ha => ?_)
      have hpx : crosses aggr.side aggr.price px = false := by simpa using hc
      rcases List.mem_cons.mp ha with rfl | ha
      · exact hpx
      · by_contra hne
        have hcross := hhead a ha (by simpa using hne)
        rw [hpx] at hcross
        cases hcross
    rename_i hstop
    have hcross : crosses aggr.side aggr.price px = true := by
      rw [not_or] at hstop
      simpa using hstop.2
    have hlevel : levelFills algo aggr (px, os) = fillsAt algo aggr os := by
      rw [levelFills, if_pos hcross]
    rw [ladderFills, hlevel, List.flatten_cons, List.sum_append, ← Order.fill_fill]
    set aggr' := aggr.fill (fillsAt algo aggr os).sum with haggr'
    have htrades : ladderTrades aggr ((px, os) :: l)
          (fillsAt algo aggr os :: ladderFills algo l aggr') =
        tradesOf aggr px os (fillsAt algo aggr os) ++
          ladderTrades aggr' l (ladderFills algo l aggr') := rfl
    rw [htrades]
    dsimp only
    split
    · -- the aggressor is used up here
      rename_i hzero
      rw [ladderFills_of_idle (Or.inl hzero), sum_flatten_of_idle, Order.fill_zero,
        ladderTrades_of_idle, List.append_nil]
      refine ⟨?_, rfl, rfl⟩
      rw [fillLadder, List.zipWith_cons_cons, ← fillLadder, fillLadder_of_idle]
    · obtain ⟨h1, h2, h3⟩ := @ih aggr' htail
      exact ⟨sweepLadder_cons_congr h1, h2, by rw [h3]⟩

/-- The fills of a level share the order's leaves out over what the level
asks for. -/
theorem isAlloc_levelFills {a : Price × List Order}
    (h : crosses aggr.side aggr.price a.1 = true → leavesSum a.2 < 2 ^ 64) :
    IsAlloc aggr.leavesQty.toNat (demand aggr a) ((levelFills algo aggr a).map UInt64.toNat) := by
  rw [demand, levelFills]
  split
  · rename_i hc
    exact isAlloc_fillsAt (h hc)
  · rw [List.map_map]
    refine ⟨List.forall₂_same.mpr fun _ _ => Nat.le_refl _, ?_⟩
    have hz : (a.2.map fun _ => 0).sum = 0 := by simp
    change (a.2.map fun _ => 0).sum = _
    rw [hz, Nat.min_zero]

/-- What a level leaves of the order. -/
theorem leaves_fill_levelFills {a : Price × List Order}
    (h : crosses aggr.side aggr.price a.1 = true → leavesSum a.2 < 2 ^ 64) :
    (aggr.fill (levelFills algo aggr a).sum).leavesQty.toNat =
      aggr.leavesQty.toNat - ((levelFills algo aggr a).map UInt64.toNat).sum := by
  have halloc : IsAlloc aggr.leavesQty.toNat (demand aggr a)
      ((levelFills algo aggr a).map UInt64.toNat) := isAlloc_levelFills h
  have hle := halloc.sum_le_avail
  have hlt : aggr.leavesQty.toNat < 2 ^ 64 := aggr.leavesQty.toNat_lt
  have hsum := @toNat_sum (levelFills algo aggr a) (by omega)
  rw [Order.leavesQty_fill, UInt64.toNat_sub_of_le, hsum]
  rw [UInt64.le_iff_toNat_le, hsum]
  exact hle

/-- **The fills go down the ladder as a cascade.** -/
theorem cascade_ladderFills
    (h : ∀ a ∈ l, crosses aggr.side aggr.price a.1 = true → leavesSum a.2 < 2 ^ 64) :
    Cascade aggr.leavesQty.toNat (l.map (demand aggr))
      ((ladderFills algo l aggr).map fun fs => fs.map UInt64.toNat) := by
  induction l generalizing aggr with
  | nil => exact .nil _
  | cons a l ih =>
    have ha := h a (List.mem_cons_self ..)
    refine .cons (isAlloc_levelFills ha) ?_
    rw [← leaves_fill_levelFills ha]
    exact @ih (aggr.fill _) fun a ha => h a (List.mem_cons_of_mem _ ha)

/-- First come is head to tail. -/
theorem toNat_levelFills_fifo {a : Price × List Order} :
    (levelFills .fifo aggr a).map UInt64.toNat =
      Alloc.greedy aggr.leavesQty.toNat (demand aggr a) := by
  by_cases hc : crosses aggr.side aggr.price a.1 = true
  · rw [levelFills, demand, if_pos hc, if_pos hc, fillsAt, fills,
      toNat_fifoFills (UInt64.le_iff_toNat_le.mpr (Nat.zero_le _)), List.map_map]
    rfl
  · refine (@isAlloc_levelFills .fifo aggr a fun h => absurd h hc).eq_greedy (.inr (.inl ?_))
    rw [demand, if_neg hc]
    simp

/-- **The fills of a ladder, served head to tail**: first come always is,
and so is pro-rata where it splits no level. -/
theorem toNat_ladderFills
    (h : ∀ a ∈ l, crosses aggr.side aggr.price a.1 = true → leavesSum a.2 < 2 ^ 64)
    (hw : algo = .fifo ∨ Cascade.Whole aggr.leavesQty.toNat (l.map (demand aggr))) :
    (ladderFills algo l aggr).flatten.map UInt64.toNat =
      Alloc.greedy aggr.leavesQty.toNat (l.map (demand aggr)).flatten := by
  rw [List.map_flatten]
  rcases hw with rfl | hw
  · induction l generalizing aggr with
    | nil => rfl
    | cons a l ih =>
      have ha := h a (List.mem_cons_self ..)
      have hleft := @leaves_fill_levelFills .fifo aggr a ha
      have hsum := (@isAlloc_levelFills .fifo aggr a ha).sum
      have hnext : (aggr.fill (levelFills .fifo aggr a).sum).leavesQty.toNat =
          aggr.leavesQty.toNat - (demand aggr a).sum := by omega
      have hrest := @ih (aggr.fill (levelFills .fifo aggr a).sum)
        fun a ha => h a (List.mem_cons_of_mem _ ha)
      rw [hnext] at hrest
      rw [ladderFills, List.map_cons, List.flatten_cons, List.map_cons, List.flatten_cons,
        Alloc.greedy_append, toNat_levelFills_fifo, hrest]
      rfl
  · exact (cascade_ladderFills h).eq_greedy hw

/-- Levels of less than half the word size are matched in range. -/
theorem matchDefined_of_lt
    (h : ∀ a ∈ l, crosses aggr.side aggr.price a.1 = true → leavesSum a.2 < 2 ^ 63) :
    MatchDefined algo l aggr := by
  induction l generalizing aggr with
  | nil => trivial
  | cons a l ih =>
    obtain ⟨px, os⟩ := a
    have htail : ∀ f, MatchDefined algo l (aggr.fill f) := fun f =>
      @ih (aggr.fill f) fun a ha => h a (List.mem_cons_of_mem _ ha)
    rw [MatchDefined]
    split
    · simpa using htail 0
    split
    · trivial
    · rename_i hstop
      rw [not_or] at hstop
      exact ⟨levelDefined_of_lt (h _ (List.mem_cons_self ..) (by simpa using hstop.2)),
        Or.inr (htail _)⟩

end Fills

/-! ## The fills over the orders of a ladder -/

/-- What an order asks of the aggressor. -/
def want (aggr o : Order) : ℕ :=
  if crosses aggr.side aggr.price o.price then o.leavesQty.toNat else 0

/-- The trades of fills over a list of orders, each at its own price. -/
def orderTrades (aggr : Order) (os : List Order) (fs : List Quantity) : List Trade :=
  ((os.zip fs).filter fun x => x.2 ≠ 0).map fun x => trade aggr x.1 x.1.price x.2

/-- Every order of a ladder is queued at its own price. -/
def Ladder.Priced (l : Ladder) : Prop := ∀ a ∈ l, ∀ o ∈ a.2, o.price = a.1

section Flat

variable {algo : MatchAlgo} {aggr : Order} {l : Ladder} {fss : List (List Quantity)}

theorem forall₂_ladderFills :
    List.Forall₂ (fun fs a => fs.length = a.2.length) (ladderFills algo l aggr) l := by
  induction l generalizing aggr with
  | nil => exact .nil
  | cons a l ih => exact .cons length_levelFills ih

theorem flatMap_fillLadder
    (h : List.Forall₂ (fun fs a => fs.length = a.2.length) fss l) :
    (fillLadder l fss).flatMap Prod.snd = fillQueue (l.flatMap Prod.snd) fss.flatten := by
  induction h with
  | nil => rfl
  | cons hab _ ih =>
    rw [fillLadder, List.zipWith_cons_cons, List.flatMap_cons, ← fillLadder, ih, fillQueue,
      fillQueue, fillQueue, List.flatMap_cons, List.flatten_cons, List.zipWith_append hab.symm]

theorem flatMap_sweepLadder :
    (sweepLadder l).flatMap Prod.snd =
      (l.flatMap Prod.snd).filter fun o => o.leavesQty ≠ 0 := by
  induction l with
  | nil => rfl
  | cons a l ih =>
    rw [sweepLadder] at ih
    rw [List.flatMap_cons, List.filter_append, ← ih, sweepLadder, List.map_cons, List.filter_cons]
    split
    · rfl
    · rename_i hnil
      have hempty : (a.2.filter fun o => o.leavesQty ≠ 0) = [] := by simpa using hnil
      rw [hempty, List.nil_append]

theorem orderTrades_append {os os' : List Order} {fs fs' : List Quantity}
    (h : fs.length = os.length) :
    orderTrades aggr (os ++ os') (fs ++ fs') =
      orderTrades aggr os fs ++ orderTrades aggr os' fs' := by
  rw [orderTrades, List.zip_append h.symm, List.filter_append, List.map_append]
  rfl

theorem tradesOf_eq_orderTrades {px : Price} {os : List Order} {fs : List Quantity}
    (h : ∀ o ∈ os, o.price = px) : tradesOf aggr px os fs = orderTrades aggr os fs := by
  refine List.map_congr_left fun x hx => ?_
  rw [h x.1 (List.of_mem_zip (List.mem_filter.mp hx).1).1]

theorem ladderTrades_eq (hp : l.Priced)
    (h : List.Forall₂ (fun fs a => fs.length = a.2.length) fss l) :
    ladderTrades aggr l fss = orderTrades aggr (l.flatMap Prod.snd) fss.flatten := by
  induction h with
  | nil => rfl
  | @cons fs a fss l hab _ ih =>
    have htail := ih fun a ha => hp a (List.mem_cons_of_mem _ ha)
    rw [ladderTrades, List.zipWith_cons_cons, List.flatten_cons, ← ladderTrades, htail,
      tradesOf_eq_orderTrades (hp a (List.mem_cons_self ..)), List.flatMap_cons,
      List.flatten_cons, orderTrades_append hab]

theorem flatten_demand (hp : l.Priced) :
    (l.map (demand aggr)).flatten = (l.flatMap Prod.snd).map (want aggr) := by
  induction l with
  | nil => rfl
  | cons a l ih =>
    have hlevel : demand aggr a = a.2.map (want aggr) := by
      have hwant : ∀ o ∈ a.2, want aggr o =
          if crosses aggr.side aggr.price a.1 then o.leavesQty.toNat else 0 := fun o ho => by
        rw [want, hp a (List.mem_cons_self ..) o ho]
      rw [List.map_congr_left hwant, demand]
      split <;> rfl
    rw [List.map_cons, List.flatten_cons, List.flatMap_cons, List.map_append, hlevel,
      ih fun a ha => hp a (List.mem_cons_of_mem _ ha)]

end Flat

/-! ## Priority -/

/-- On the ladder an order is matched against, what it crosses comes
first. -/
theorem crosses_of_before {side : Side} {px a b : Price}
    (h : side.book.opposite.before a b) (hb : crosses side px b = true) :
    crosses side px a = true := by
  by_cases hs : side = .buy
  · subst hs
    have hab : a < b := h
    simp only [crosses, if_true, decide_eq_true_eq] at hb ⊢
    exact Int.le_trans (Int.le_of_lt hab) hb
  · have hab : b < a := by
      cases side with
      | buy => exact absurd rfl hs
      | sell => exact h
      | other c => exact h
    simp only [crosses, if_neg hs, decide_eq_true_eq] at hb ⊢
    exact Int.le_trans hb (Int.le_of_lt hab)

/-- A fill below the head of the ladder means the head is used up. -/
theorem levelFills_of_later {algo : MatchAlgo} {aggr : Order} {a : Price × List Order} {l : Ladder}
    (hhead : ∀ c ∈ l, aggr.side.book.opposite.before a.1 c.1)
    (hsum : ∀ c ∈ a :: l, crosses aggr.side aggr.price c.1 = true → leavesSum c.2 < 2 ^ 64)
    {f : Quantity} (hne : f ≠ 0)
    (hmem : f ∈ (ladderFills algo l (aggr.fill (levelFills algo aggr a).sum)).flatten) :
    levelFills algo aggr a = a.2.map Order.leavesQty := by
  have hcross : crosses aggr.side aggr.price a.1 = true := by
    by_contra hc
    refine hne ?_
    have hidle : ∀ c ∈ l, crosses aggr.side aggr.price c.1 = false := fun c hcl => by
      by_contra hcc
      exact hc (crosses_of_before (hhead c hcl) (by simpa using hcc))
    rw [@ladderFills_of_idle algo (aggr.fill _) l (Or.inr hidle)] at hmem
    obtain ⟨fs, hfs, hf⟩ := List.mem_flatten.mp hmem
    obtain ⟨c, -, rfl⟩ := List.mem_map.mp hfs
    obtain ⟨o, -, ho⟩ := List.mem_map.mp hf
    exact ho.symm
  -- A later level is filled only once this one is exhausted, so a fill there means a full one here.
  have hlater : ((ladderFills algo l (aggr.fill (levelFills algo aggr a).sum)).map
      fun fs => fs.map UInt64.toNat).flatten.sum ≠ 0 := by
    have hle := List.le_sum_of_mem (List.mem_map_of_mem (f := UInt64.toNat) hmem)
    rw [List.map_flatten] at hle
    intro h0
    rw [h0] at hle
    exact hne (UInt64.toNat_inj.mp ((Nat.le_zero.mp hle).trans UInt64.toNat_zero.symm))
  have hcascade := @cascade_ladderFills algo aggr (a :: l) hsum
  rw [ladderFills, List.map_cons, List.map_cons] at hcascade
  have hfull := hcascade.full_of_later hlater
  rw [demand, if_pos hcross] at hfull
  refine List.map_injective_iff.mpr (fun _ _ => UInt64.toNat_inj.mp) ?_
  rw [hfull, List.map_map]
  rfl

/-- **Price priority**: an order is filled only once every better priced
one is filled in full. -/
theorem priority_ladderFills {algo : MatchAlgo} {aggr : Order} {l : Ladder}
    (hord : l.Pairwise fun a b => aggr.side.book.opposite.before a.1 b.1) (hp : l.Priced)
    (hsum : ∀ a ∈ l, crosses aggr.side aggr.price a.1 = true → leavesSum a.2 < 2 ^ 64)
    {x y : Order × Quantity}
    (hx : x ∈ (l.flatMap Prod.snd).zip (ladderFills algo l aggr).flatten)
    (hy : y ∈ (l.flatMap Prod.snd).zip (ladderFills algo l aggr).flatten)
    (hxy : aggr.side.book.opposite.before y.1.price x.1.price) (hne : x.2 ≠ 0) :
    y.2 = y.1.leavesQty := by
  induction l generalizing aggr with
  | nil => cases hx
  | cons a l ih =>
    obtain ⟨hhead, htail⟩ := List.pairwise_cons.mp hord
    have hpl : Ladder.Priced l := fun a ha => hp a (List.mem_cons_of_mem _ ha)
    rw [ladderFills, List.flatMap_cons, List.flatten_cons,
      List.zip_append length_levelFills.symm, List.mem_append] at hx hy
    -- the price of an order on the rest of the ladder comes after the head's
    have hafter : ∀ z ∈ (l.flatMap Prod.snd).zip
        (ladderFills algo l (aggr.fill (levelFills algo aggr a).sum)).flatten,
        aggr.side.book.opposite.before a.1 z.1.price := by
      intro z hz
      obtain ⟨c, hc, ho⟩ := List.mem_flatMap.mp (List.of_mem_zip hz).1
      rw [hpl c hc _ ho]
      exact hhead c hc
    have hat : ∀ z ∈ a.2.zip (levelFills algo aggr a), z.1.price = a.1 := fun z hz =>
      hp a (List.mem_cons_self ..) _ (List.of_mem_zip hz).1
    rcases hx with hx | hx
    · exfalso
      rw [hat x hx] at hxy
      rcases hy with hy | hy
      · rw [hat y hy] at hxy
        exact irrefl_of _ _ hxy
      · exact irrefl_of _ _ (trans_of _ hxy (hafter y hy))
    rcases hy with hy | hy
    · have hfills := levelFills_of_later hhead hsum hne (List.of_mem_zip hx).2
      rw [hfills, List.zip_map_right, List.zip_eq_zipWith, List.zipWith_self, List.map_map] at hy
      obtain ⟨o, -, rfl⟩ := List.mem_map.mp hy
      rfl
    · exact @ih (aggr.fill _) htail hpl (fun a ha => hsum a (List.mem_cons_of_mem _ ha)) hx hy hxy

/-! ## Submitting -/

/-- What is left of an order to rest. -/
def residual (o : Order) (fs : List Quantity) : List Order :=
  if (o.fill fs.sum).leavesQty > 0 then [o.fill fs.sum] else []

/-- **An execution**: what a submit does, as one list of fills over the
orders of the opposite ladder. -/
structure Execution (d : Depth) (o : Order) (fs : List Quantity) (d' : Depth)
    (evs : EventList) : Prop where
  /-- the fills share the order's leaves out over what it crosses -/
  alloc : IsAlloc o.leavesQty.toNat ((d.ordersOn o.side.book.opposite).map (want o))
    (fs.map UInt64.toNat)
  /-- a better price is used up first -/
  priority : ∀ x ∈ (d.ordersOn o.side.book.opposite).zip fs,
    ∀ y ∈ (d.ordersOn o.side.book.opposite).zip fs,
      o.side.book.opposite.before y.1.price x.1.price → x.2 ≠ 0 → y.2 = y.1.leavesQty
  opposite : d'.ordersOn o.side.book.opposite =
    (fillQueue (d.ordersOn o.side.book.opposite) fs).filter fun r => r.leavesQty ≠ 0
  own : (d'.ordersOn o.side.book).Perm (residual o fs ++ d.ordersOn o.side.book)
  events : evs = .ack ⟨o.id, o.clordId⟩ ::
    (orderTrades o (d.ordersOn o.side.book.opposite) fs).map .trade

/-- The ladders are sorted, and every order sits where it belongs. -/
structure Depth.Placed (d : Depth) : Prop where
  sorted : ∀ s, (d.ladder s).Pairwise fun a b => s.before a.1 b.1
  priced : ∀ s, Ladder.Priced (d.ladder s)
  side : ∀ s, ∀ o ∈ d.ordersOn s, o.side.book = s

theorem restLadder_perm {s : BookSide} {o : Order} {l : Ladder} :
    ((restLadder s o l).flatMap Prod.snd).Perm (o :: l.flatMap Prod.snd) :=
  OrderedMap.flatMap_upsertList_perm (g := id) rfl
    (fun os => List.perm_append_singleton o os) l

/-- **A submit executes the fills of its ladder**, where the levels it
crosses add up below the word size. -/
theorem execution_ladderFills {algo : MatchAlgo} {d : Depth} {o : Order} (h : d.Placed)
    (hsum : ∀ a ∈ d.ladder o.side.book.opposite,
      crosses o.side o.price a.1 = true → leavesSum a.2 < 2 ^ 64) :
    Execution d o (ladderFills algo (d.ladder o.side.book.opposite) o).flatten
      (d.submit algo o).1 (d.submit algo o).2 := by
  set opp := o.side.book.opposite with hopp
  set l := d.ladder opp with hl
  have hsorted := h.sorted opp
  have hpriced := h.priced opp
  rw [← hl] at hsorted hpriced
  obtain ⟨hsweep, haggr, htrades⟩ := @matchLadder_eq_fills algo o l
    (hsorted.imp fun hab hb => crosses_of_before hab hb)
  have hlen := @forall₂_ladderFills algo o l
  set fss := ladderFills algo l o with hfss
  have hown : o.side.book ≠ opp := book_opposite_ne _
  -- The remainder rests on the own side, so the swept opposite ladder is read back unchanged.
  have hdepth : (d.submit algo o).1 =
      if (o.fill fss.flatten.sum).leavesQty > 0 then
        (d.setLadder opp (sweepLadder (fillLadder l fss))).setLadder o.side.book
          (restLadder o.side.book (o.fill fss.flatten.sum) (d.ladder o.side.book))
      else d.setLadder opp (sweepLadder (fillLadder l fss)) := by
    simp only [Depth.submit, ← hopp, ← hl, haggr, hsweep]
    change (if _ then Depth.setLadder _ o.side.book (restLadder o.side.book _
      (Depth.ladder _ o.side.book)) else _) = _
    rw [ladder_setLadder_of_ne hown]
  have hladder : (d.submit algo o).1.ladder opp = sweepLadder (fillLadder l fss) := by
    rw [hdepth]
    split
    · rw [ladder_setLadder_of_ne hown.symm, ladder_setLadder]
    · rw [ladder_setLadder]
  refine ⟨?_, ?_, ?_, ?_, ?_⟩
  · have hcascade := (@cascade_ladderFills algo o l hsum).flatten
    rw [flatten_demand hpriced, ← List.map_flatten] at hcascade
    exact hcascade
  · intro x hx y hy hxy hne
    exact priority_ladderFills hsorted hpriced hsum hx hy hxy hne
  · rw [Depth.ordersOn, hladder, flatMap_sweepLadder, flatMap_fillLadder hlen]
    rfl
  · rw [Depth.ordersOn, Depth.ordersOn, hdepth, residual]
    split
    · rw [ladder_setLadder]
      exact restLadder_perm
    · rw [ladder_setLadder_of_ne hown, List.nil_append]
  · simp only [Depth.submit, ← hopp, ← hl, htrades]
    rw [ladderTrades_eq hpriced hlen]
    rfl

/-- **A submit is an execution.** -/
theorem execution_submit {algo : MatchAlgo} {d : Depth} {o : Order} (h : d.Placed)
    (hsum : ∀ a ∈ d.ladder o.side.book.opposite,
      crosses o.side o.price a.1 = true → leavesSum a.2 < 2 ^ 64) :
    ∃ fs, Execution d o fs (d.submit algo o).1 (d.submit algo o).2 :=
  ⟨_, execution_ladderFills h hsum⟩

theorem Rep.toPlaced {b : OrderBook} {d : Depth} (h : Rep b d) : d.Placed where
  sorted s := by
    have hkeys := map_fst_of_forall₂ (h.levels s)
    have hsorted := (b.levels s).sorted
    have hmap : ((b.levels s).entries.map Prod.fst).Pairwise s.before :=
      List.pairwise_map.mpr hsorted
    rw [hkeys] at hmap
    exact List.pairwise_map.mp hmap
  priced s a ha o ho := (h.placed s a ha o ho).1
  side s o ho := by
    obtain ⟨a, ha, hoa⟩ := mem_ordersOn.mp ho
    exact (h.placed s a ha o hoa).2

end Core

end OrderbookFix
