import OrderbookFix.Common.StableSort
import OrderbookFix.Core.Invariants
/-!
# Reading a book by price

The queue at a price, read off the values of a represented book, and what
resting an order adds to it. Resting is read for any order: where the key
is taken the node is linked all the same, and holds nothing.
-/

namespace OrderbookFix

namespace Core

/-! ## Orders by price -/

theorem filter_price_of_ne {l : Ladder} (hp : l.Priced) {px : Price} (h : ∀ a ∈ l, a.1 ≠ px) :
    (l.flatMap Prod.snd).filter (fun o => o.price = px) = [] := by
  refine List.filter_eq_nil_iff.mpr fun o ho => ?_
  obtain ⟨a, ha, hoa⟩ := List.mem_flatMap.mp ho
  rw [decide_eq_true_eq, hp a ha o hoa]
  exact h a ha

/-- **The orders at the price of a level are its queue.** -/
theorem Depth.Placed.filter_price {d : Depth} (h : d.Placed) {s : BookSide} {pre post : Ladder}
    {px : Price} {os : List Order} (hd : d.ladder s = pre ++ (px, os) :: post) :
    (d.ordersOn s).filter (fun o => o.price = px) = os := by
  have hsorted := h.sorted s
  have hpriced := h.priced s
  rw [hd] at hsorted hpriced
  obtain ⟨-, htail, hcross⟩ := List.pairwise_append.mp hsorted
  obtain ⟨hpost, -⟩ := List.pairwise_cons.mp htail
  have hpre : (pre.flatMap Prod.snd).filter (fun o => o.price = px) = [] := by
    refine filter_price_of_ne (fun a ha => hpriced a (List.mem_append_left _ ha)) ?_
    rintro a ha rfl
    exact irrefl_of _ _ (hcross a ha (a.1, os) (List.mem_cons_self ..))
  have hpost' : (post.flatMap Prod.snd).filter (fun o => o.price = px) = [] := by
    refine filter_price_of_ne (fun a ha => hpriced a
      (List.mem_append_right _ (List.mem_cons_of_mem _ ha))) ?_
    rintro a ha rfl
    exact irrefl_of _ _ (hpost a ha)
  have hos : os.filter (fun o => o.price = px) = os := List.filter_eq_self.mpr fun o ho =>
    decide_eq_true (hpriced (px, os) (List.mem_append_right _ (List.mem_cons_self ..)) o ho)
  rw [Depth.ordersOn, hd, List.flatMap_append, List.flatMap_cons, List.filter_append,
    List.filter_append, hpre, hos, hpost', List.nil_append, List.append_nil]

/-- The orders of a ladder come best price first. -/
theorem Ladder.keySorted {s : BookSide} {l : Ladder}
    (hsorted : l.Pairwise fun a b => s.before a.1 b.1) (hpriced : l.Priced) :
    KeySorted s.before Order.price (l.flatMap Prod.snd) := by
  rw [KeySorted]
  induction l with
  | nil => exact .nil
  | cons a l ih =>
    obtain ⟨hhead, htail⟩ := List.pairwise_cons.mp hsorted
    have hpa := hpriced a (List.mem_cons_self ..)
    have hpl : Ladder.Priced l := fun c hc => hpriced c (List.mem_cons_of_mem _ hc)
    rw [List.flatMap_cons, List.pairwise_append]
    refine ⟨?_, ih htail hpl, fun x hx y hy => ?_⟩
    · refine List.pairwise_of_forall_mem_list fun x hx y hy => ?_
      rw [hpa x hx, hpa y hy]
      exact irrefl_of _ _
    · obtain ⟨c, hc, hyc⟩ := List.mem_flatMap.mp hy
      rw [hpa x hx, hpl c hc y hyc]
      exact asymm_of _ (hhead c hc)

/-- **The queue at a price**, as values. -/
theorem Rep.queueAt_eq {b : OrderBook} {d : Depth} (h : Rep b d) (s : BookSide) (px : Price) :
    b.queueAt s px = ((d.ordersOn s).filter fun o => o.price = px).map some := by
  rw [OrderBook.queueAt]
  rcases hfind : (b.levels s).find? px with _ | l
  · have hnone : ∀ a ∈ d.ladder s, a.1 ≠ px := by
      intro a ha hpx
      rw [← h.ladder_eq] at ha
      obtain ⟨e, he, rfl⟩ := List.mem_map.mp ha
      have := List.find?_eq_none.mp (Option.map_eq_none_iff.mp hfind) e he
      exact this (decide_eq_true hpx)
    rw [Depth.ordersOn, filter_price_of_ne (h.toPlaced.priced s) hnone]
    rfl
  · obtain ⟨es, gs, hsplit⟩ := OrderedMap.exists_split_of_find? hfind
    obtain ⟨pre, a, post, hd, -, ⟨hpx, hl⟩, -⟩ := forall₂_split (hsplit ▸ h.levels s)
    obtain ⟨px', os⟩ := a
    obtain rfl : px = px' := hpx
    rw [h.toPlaced.filter_price hd]
    exact hl.queue

/-! ## Resting an order -/

section Rest

variable {b : OrderBook} {d : Depth}

theorem levels_emplace (b : OrderBook) (k : IndexKey) (p : Ptr) (s : BookSide) :
    (b.emplace k p).levels s = b.levels s := by
  unfold OrderBook.emplace
  split <;> cases s <;> rfl

theorem find?_levels_rest (o : Order) (s : BookSide) (px : Price) :
    ((b.rest o).levels s).find? px =
      if s = o.side.book ∧ px = o.price then
        some ((((b.levels s).find? px).getD PriceLevel.new).pushBack b.heap.next o)
      else (b.levels s).find? px := by
  have hheap : ∀ t, ({ b with heap := b.heap.alloc o } : OrderBook).levels t = b.levels t := by
    intro t
    cases t <;> rfl
  rw [OrderBook.rest, levels_emplace]
  by_cases hs : s = o.side.book
  · subst hs
    rw [levels_setLevels, OrderedMap.find?_upsert, hheap]
    by_cases hpx : px = o.price
    · rw [if_pos hpx, if_pos ⟨rfl, hpx⟩, hpx]
    · rw [if_neg hpx, if_neg fun h => hpx h.2]
  · rw [levels_setLevels_of_ne hs, hheap, if_neg fun h => hs h.1]

theorem cells_rest (o : Order) (p : Ptr) :
    (b.rest o).heap.cells p =
      if p = b.heap.next then if b.index.lookup o.key = none then some o else none
      else b.heap.cells p := by
  rw [OrderBook.rest, OrderBook.emplace, index_setLevels]
  by_cases hp : p = b.heap.next
  · subst hp
    rw [if_pos rfl]
    rcases hk : b.index.lookup o.key with _ | q
    · rw [if_pos rfl]
      simp [heap_setLevels]
    · rw [if_neg (by simp)]
      simp [heap_setLevels]
  · rw [if_neg hp]
    split
    · simp [heap_setLevels, Heap.alloc_of_ne _ hp]
    · simp [heap_setLevels, Heap.free_of_ne _ hp, Heap.alloc_of_ne _ hp]

/-- **Resting an order** puts its node at the end of its price's queue. -/
theorem Rep.queueAt_rest (h : Rep b d) (o : Order) (s : BookSide) (px : Price) :
    (b.rest o).queueAt s px =
      b.queueAt s px ++
        if s = o.side.book ∧ px = o.price then
          [if b.index.lookup o.key = none then some o else none]
        else [] := by
  -- the nodes that were there keep what they hold
  have hold : ∀ l, (b.levels s).find? px = some l →
      l.queue.map (b.rest o).heap.cells = l.queue.map b.heap.cells := by
    intro l hl
    refine List.map_congr_left fun p hp => ?_
    obtain ⟨es, gs, hsplit⟩ := OrderedMap.exists_split_of_find? hl
    have hlinked : p ∈ b.linked := mem_linked.mpr ⟨s, mem_linkedOn.mpr ⟨(px, l), by simp [hsplit], hp⟩⟩
    obtain ⟨o', -, hcell⟩ := h.exists_of_linked hlinked
    rw [cells_rest, if_neg (b.heap.ne_next hcell)]
  rw [OrderBook.queueAt, OrderBook.queueAt, find?_levels_rest]
  by_cases hat : s = o.side.book ∧ px = o.price
  · rw [if_pos hat, if_pos hat]
    rcases hfind : (b.levels s).find? px with _ | l
    · simp [PriceLevel.pushBack, PriceLevel.new, cells_rest]
    · simp [PriceLevel.pushBack, hold l hfind, cells_rest]
  · rw [if_neg hat, if_neg hat, List.append_nil]
    rcases hfind : (b.levels s).find? px with _ | l
    · rfl
    · exact hold l hfind

end Rest

/-! ## A submit -/

section Submit

variable {algo : MatchAlgo} {b : OrderBook} {d : Depth} {o : Order}

/-- **A submit within the bound**, any order under any key: the match is
that of the fills, and what they leave of the order rests. -/
theorem submit_fills (h : Rep b d)
    (hlt : ∀ a ∈ d.ladder o.side.book.opposite,
      crosses o.side o.price a.1 = true → leavesSum a.2 < 2 ^ 63) {fs : List Quantity}
    (hfs : fs = (ladderFills algo (d.ladder o.side.book.opposite) o).flatten) :
    ∃ b', Rep b' (d.matched algo o) ∧
      submit algo b o = .ok
        (if 0 < (o.fill fs.sum).leavesQty then b'.rest (o.fill fs.sum) else b',
          .ack ⟨o.id, o.clordId⟩ ::
            (orderTrades o (d.ordersOn o.side.book.opposite) fs).map .trade) := by
  have hlt' : ∀ a ∈ d.ladder o.side.book.opposite,
      crosses o.side o.price a.1 = true → leavesSum a.2 < 2 ^ 64 := fun a ha hc => by
    have := hlt a ha hc
    omega
  have hplaced := h.toPlaced
  rcases @submit_matches algo b d o h with ⟨-, b', hrep, hb⟩ | ⟨hndef, -⟩
  · refine ⟨b', hrep, ?_⟩
    have haggr := (@matchLadder_eq_fills algo o (d.ladder o.side.book.opposite)
      ((hplaced.sorted _).imp fun hab hc => crosses_of_before hab hc)).2.1
    rw [hb, haggr, (execution_ladderFills hplaced hlt').events, ← hfs]
  · exact absurd (matchDefined_of_lt hlt) hndef

/-- The opposite side after the match. -/
theorem ordersOn_matched (h : d.Placed) {fs : List Quantity}
    (hfs : fs = (ladderFills algo (d.ladder o.side.book.opposite) o).flatten) :
    (d.matched algo o).ordersOn o.side.book.opposite =
      (fillQueue (d.ordersOn o.side.book.opposite) fs).filter fun r => r.leavesQty ≠ 0 := by
  have hsweep := (@matchLadder_eq_fills algo o (d.ladder o.side.book.opposite)
    ((h.sorted _).imp fun hab hc => crosses_of_before hab hc)).1
  rw [Depth.ordersOn, Depth.matched, ladder_setLadder, hsweep, flatMap_sweepLadder,
    flatMap_fillLadder forall₂_ladderFills, ← hfs]
  rfl

/-- The order's own side is not matched. -/
theorem ordersOn_matched_own :
    (d.matched algo o).ordersOn o.side.book = d.ordersOn o.side.book := by
  rw [Depth.ordersOn, Depth.matched, ladder_setLadder_of_ne (book_opposite_ne _)]
  rfl

end Submit

end Core

end OrderbookFix
