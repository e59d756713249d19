import OrderbookFix.Core.Helpers.Levels
/-!
# Cancelling

What `find` and `cancel` do on a book that a run reaches. A cancel takes
one order out of the index, the heap and its level, and every lookup away
from that order returns what it did; a cancel of an unknown key returns
the book it was given. An order that rests without matching and is then
cancelled leaves the live contents as they were. The levels themselves
need not be: the walks erase the empty ones they pass, and the price of
the cancelled order keeps an empty one.
-/

namespace OrderbookFix

namespace Core

namespace OrderBook

/-- The level at a price, where an order is queued there. -/
def liveLevel (b : OrderBook) (s : BookSide) (px : Price) : Option PriceLevel :=
  ((b.levels s).find? px).filter fun l => !l.empty

/-- **The same live contents**: the same orders at the same addresses,
under the same keys, in the same queues with the same figures. -/
structure SameLive (b b' : OrderBook) : Prop where
  cells : ∀ p, b'.heap.cells p = b.heap.cells p
  index : ∀ k, b'.index.lookup k = b.index.lookup k
  levels : ∀ s px, b'.liveLevel s px = b.liveLevel s px

/-- **Exactly the order at `p` is gone**: its node is freed, its key is
free, its queue is the one it was in less its address, the level's
figures are lower by its share, and no other node, key or level differs. -/
structure Removed (b : OrderBook) (p : Ptr) (o : Order) (b' : OrderBook) : Prop where
  order : b.heap.cells p = some o
  cells : ∀ q, b'.heap.cells q = if q = p then none else b.heap.cells q
  index : ∀ k, b'.index.lookup k = if k = o.key then none else b.index.lookup k
  level : ∃ l l' pre post, (b.levels o.side.book).find? o.price = some l ∧
    (b'.levels o.side.book).find? o.price = some l' ∧
    l.queue = pre ++ p :: post ∧ l'.queue = pre ++ post ∧ p ∉ l'.queue ∧
    l'.count + 1 = l.count ∧ l'.totalQty.toNat + o.leavesQty.toNat = l.totalQty.toNat
  others : ∀ s px, ¬ (s = o.side.book ∧ px = o.price) →
    (b'.levels s).find? px = (b.levels s).find? px

/-- **What `find` and `cancel` do on a book.** -/
structure Cancels (b : OrderBook) : Prop where
  /-- `find` has exactly the linked orders, each under its key -/
  found : ∀ s clord p, b.find s clord = some p ↔
    p ∈ b.linked ∧ ∃ o, b.heap.cells p = some o ∧ o.key = ⟨s, clord.value⟩
  /-- what `find` has, `cancel` removes -/
  removes : ∀ s clord p, b.find s clord = some p →
    ∃ o b', b.cancel s clord = .ok (⟨true, []⟩, b') ∧ b.Removed p o b'
  /-- what `find` has not, `cancel` refuses -/
  refuses : ∀ s clord, b.find s clord = none →
    b.cancel s clord = .ok (⟨false, ascii "unknown order"⟩, b)
  /-- an order that does not cross, submitted and cancelled -/
  restores : ∀ algo (n : NewOrder), b.find n.session n.clordId = none → 0 < n.qty →
    (∀ o ∈ b.ordersOn n.side.book.opposite, crosses n.side n.price o.price = false) →
    ∃ b₁ evs b₂, submit algo b n.order = .ok (b₁, evs) ∧
      b₁.cancel n.session n.clordId = .ok (⟨true, []⟩, b₂) ∧ b.SameLive b₂

end OrderBook

/-! ## Removing one order -/

section Remove

variable {b : OrderBook} {d : Depth}

/-- A book as `drop` leaves it, level by level. -/
theorem find?_levels_drop {p : Ptr} {o : Order} (hlk : b.index.lookup o.key = some p)
    (s : BookSide) (px : Price) :
    ((b.drop p o).levels s).find? px =
      if s = o.side.book ∧ px = o.price then
        ((b.levels s).find? px).map (·.unlink p o)
      else (b.levels s).find? px := by
  obtain ⟨-, -, hown, hother⟩ := drop_eq hlk
  by_cases hs : s = o.side.book
  · subst hs
    rw [hown, OrderedMap.find?_modify]
    by_cases hpx : px = o.price
    · rw [if_pos hpx, if_pos ⟨rfl, hpx⟩, hpx]
    · rw [if_neg hpx, if_neg fun h => hpx h.2]
  · rw [hother s hs, if_neg fun h => hs h.1]

theorem cells_drop {p : Ptr} {o : Order} (hlk : b.index.lookup o.key = some p) (q : Ptr) :
    (b.drop p o).heap.cells q = if q = p then none else b.heap.cells q := by
  rw [(drop_eq hlk).1]
  rfl

theorem lookup_drop {p : Ptr} {o : Order} (hlk : b.index.lookup o.key = some p) (k : IndexKey) :
    (b.drop p o).index.lookup k = if k = o.key then none else b.index.lookup k := by
  rw [(drop_eq hlk).2.1]
  by_cases hk : k = o.key
  · rw [if_pos hk, hk, AList.lookup_erase]
  · rw [if_neg hk, AList.lookup_erase_ne hk]

/-- **Dropping a linked order removes it alone.** -/
theorem Rep.removed (h : Rep b d) (hsum : leavesSum d.orders < 2 ^ 64) {p : Ptr} {o : Order}
    (hp : p ∈ b.linked) (ho : b.heap.cells p = some o) : b.Removed p o (b.drop p o) := by
  have hlk : b.index.lookup o.key = some p := (h.index _ _).mpr ⟨hp, by rw [keyAt, ho]; rfl⟩
  obtain ⟨pre, post, oa, ob, hd, es, fs, l, pa, pb, hsplit, -, hl, -, hq, hoa, hob⟩ :=
    h.locate hp ho
  have hnd := nodup_queue (h.nodup_linkedOn _) hsplit
  obtain ⟨hqueue, hlev⟩ := hl.unlink hq hnd hoa hob
  have hfind : (b.levels o.side.book).find? o.price = some l := OrderedMap.find?_of_split hsplit
  refine ⟨ho, cells_drop hlk, lookup_drop hlk, ?_, fun s px hne => ?_⟩
  · refine ⟨l, l.unlink p o, pa, pb, hfind, ?_, hq, hqueue, ?_, ?_, ?_⟩
    · rw [find?_levels_drop hlk, if_pos ⟨rfl, rfl⟩, hfind]
      rfl
    · exact hnd.not_mem_erase
    · rw [hl.count, hlev.count, List.length_append, List.length_append, List.length_cons,
        Nat.add_assoc]
    · -- the wrapped totals are the sums of the leaves, in range with the order and without it
      have hle := @leavesSum_le_of_mem d o.side.book (o.price, oa ++ o :: ob)
        (by rw [hd]; exact List.mem_append_right _ (List.mem_cons_self ..))
      rw [leavesSum_append, leavesSum_cons] at hle
      rw [hl.total, hlev.total, toNat_sum_leaves, toNat_sum_leaves] <;>
        simp only [leavesSum_append, leavesSum_cons] <;> omega
  · rw [find?_levels_drop hlk, if_neg hne]

end Remove

/-! ## Walks that change nothing live -/

section Idle

variable {b b' b'' : OrderBook} {s : BookSide} {px : Price} {l : PriceLevel}

namespace OrderBook.SameLive

theorem refl (b : OrderBook) : b.SameLive b := ⟨fun _ => rfl, fun _ => rfl, fun _ _ => rfl⟩

theorem trans (h : b.SameLive b') (h' : b'.SameLive b'') : b.SameLive b'' where
  cells p := (h'.cells p).trans (h.cells p)
  index k := (h'.index k).trans (h.index k)
  levels s px := (h'.levels s px).trans (h.levels s px)

/-- A level with an order in it is in both books. -/
theorem find? (h : b.SameLive b') (hfind : (b'.levels s).find? px = some l)
    (hne : l.empty = false) : (b.levels s).find? px = some l := by
  have hlive : b.liveLevel s px = some l := by
    rw [← h.levels s px, liveLevel, hfind, Option.filter_some, hne]
    rfl
  exact Option.eq_some_of_filter_eq_some hlive

end OrderBook.SameLive

/-- Erasing an empty level. -/
theorem sameLive_erase (hfind : (b.levels s).find? px = some l) (hempty : l.empty = true) :
    b.SameLive (b.setLevels s ((b.levels s).erase px)) where
  cells p := by rw [heap_setLevels]
  index k := by rw [index_setLevels]
  levels t qx := by
    rw [OrderBook.liveLevel, OrderBook.liveLevel]
    rcases s.eq_or_ne_of t with rfl | ht
    · rw [levels_setLevels, OrderedMap.find?_erase]
      by_cases hq : qx = px
      · rw [if_pos hq, hq, hfind, Option.filter_some, hempty]
        rfl
      · rw [if_neg hq]
    · rw [levels_setLevels_of_ne ht]

/-- **A walk whose callback changes nothing** at a level with an order in
it only erases empty levels on its way. -/
theorem walkFrom_idle {fn : Price → MatchState → Except Fault (Bool × MatchState)} {aggr : Order}
    {out : EventList}
    (hfn : ∀ b', b.SameLive b' → ∀ px l, (b'.levels s).find? px = some l → l.empty = false →
      ∃ go, fn px ⟨b', aggr, out⟩ = .ok (go, ⟨b', aggr, out⟩)) {ps : List Price}
    (hsame : b.SameLive b') (hnd : ps.Nodup) (hps : ∀ p ∈ ps, ∃ l, (b'.levels s).find? p = some l) :
    ∃ b'', OrderBook.walkFrom s fn ps ⟨b', aggr, out⟩ = .ok ⟨b'', aggr, out⟩ ∧
      b.SameLive b'' := by
  induction ps generalizing b' with
  | nil => exact ⟨b', rfl, hsame⟩
  | cons p ps ih =>
    obtain ⟨hp, hnd'⟩ := List.nodup_cons.mp hnd
    obtain ⟨l, hl⟩ := hps p (List.mem_cons_self ..)
    have htail : ∀ q ∈ ps, ∃ l, (b'.levels s).find? q = some l := fun q hq =>
      hps q (List.mem_cons_of_mem _ hq)
    by_cases hempty : l.empty = true
    · -- the iterator has passed the erased price, and the rest are still there
      rw [OrderBook.walkFrom]
      simp only [hl, hempty, if_true]
      refine ih (hsame.trans (sameLive_erase hl hempty)) hnd' fun q hq => ?_
      have hqp : q ≠ p := fun h => hp (h ▸ hq)
      obtain ⟨l', hl'⟩ := htail q hq
      exact ⟨l', by rw [levels_setLevels, OrderedMap.find?_erase, if_neg hqp, hl']⟩
    · have hne : l.empty = false := Bool.eq_false_iff.mpr hempty
      obtain ⟨go, hgo⟩ := hfn b' hsame p l hl hne
      rw [OrderBook.walkFrom]
      simp only [hl, hne, Bool.false_eq_true, if_false, hgo, bind, Except.bind]
      cases go with
      | false => exact ⟨b', rfl, hsame⟩
      | true =>
        simp only [Bool.not_true, Bool.false_eq_true, if_false]
        exact ih hsame hnd' htail

theorem walk_idle {fn : Price → MatchState → Except Fault (Bool × MatchState)} {aggr : Order}
    {out : EventList}
    (hfn : ∀ b', b.SameLive b' → ∀ px l, (b'.levels s).find? px = some l → l.empty = false →
      ∃ go, fn px ⟨b', aggr, out⟩ = .ok (go, ⟨b', aggr, out⟩)) (hsame : b.SameLive b') :
    ∃ b'', OrderBook.walk s fn ⟨b', aggr, out⟩ = .ok ⟨b'', aggr, out⟩ ∧ b.SameLive b'' := by
  refine walkFrom_idle hfn hsame (b'.levels s).nodup_keys fun p hp => ?_
  obtain ⟨e, he, rfl⟩ := List.mem_map.mp hp
  obtain ⟨es, fs, hsplit⟩ := List.append_of_mem he
  exact ⟨e.2, OrderedMap.find?_of_split hsplit⟩

/-- A queue of open orders is not swept. -/
theorem sweepQueue_idle {ps : List Ptr}
    (h : ∀ p ∈ ps, ∃ o, b.heap.cells p = some o ∧ o.leavesQty ≠ 0) : sweepQueue ps b = .ok b := by
  induction ps with
  | nil => rfl
  | cons p ps ih =>
    obtain ⟨o, ho, hne⟩ := h p (List.mem_cons_self ..)
    rw [sweepQueue, deref_of_cell ho]
    change (if o.leavesQty = 0 then _ else sweepQueue ps b) = _
    rw [if_neg hne]
    exact ih fun q hq => h q (List.mem_cons_of_mem _ hq)

end Idle

/-! ## An order submitted and cancelled -/

section Restore

variable {b : OrderBook} {d : Depth} {o : Order}

/-- What a level of a represented book queues. -/
theorem OrderBook.WellFormed.queued (h : b.WellFormed) {s : BookSide} {px : Price} {l : PriceLevel}
    (hfind : (b.levels s).find? px = some l) {p : Ptr} (hp : p ∈ l.queue) :
    ∃ r ∈ b.ordersOn s, b.heap.cells p = some r ∧ r.leavesQty ≠ 0 ∧ r.price = px := by
  obtain ⟨es, fs, hsplit⟩ := OrderedMap.exists_split_of_find? hfind
  have he : (px, l) ∈ (b.levels s).entries := by
    rw [hsplit]
    exact List.mem_append_right _ (List.mem_cons_self ..)
  obtain ⟨r, hcell, hpos, -, -, hpx⟩ := h.placed s _ he p hp
  exact ⟨r, List.mem_filterMap.mpr ⟨p, mem_linkedOn.mpr ⟨_, he, hp⟩, hcell⟩, hcell,
    UInt64.pos_iff_ne_zero.mp hpos, hpx⟩

/-- **A submit that crosses nothing** acknowledges the order and rests
it; nothing else that is live changes. -/
theorem submit_idle (h : b.WellFormed) (algo : MatchAlgo) (hpos : 0 < o.leavesQty)
    (hcross : ∀ r ∈ b.ordersOn o.side.book.opposite, crosses o.side o.price r.price = false) :
    ∃ b', submit algo b o = .ok (b'.rest o, [.ack ⟨o.id, o.clordId⟩]) ∧ b.SameLive b' := by
  set opp := o.side.book.opposite with hopp
  -- the match stops at the first level with an order, whose price it does not cross
  obtain ⟨b₁, hw₁, hsame₁⟩ := @walk_idle b b opp (onLevel algo opp) o [.ack ⟨o.id, o.clordId⟩]
    (fun b' hsame px l hfind hne => by
      obtain ⟨p, hp⟩ := List.exists_mem_of_ne_nil l.queue
        (by simpa [PriceLevel.empty] using hne)
      obtain ⟨r, hr, -, -, rfl⟩ := h.queued (hsame.find? hfind hne) hp
      exact ⟨false, onLevel_stop (Or.inr (by simp [hcross r hr]))⟩) (.refl b)
  -- the sweep passes every level and finds its orders open
  obtain ⟨b₂, hw₂, hsame₂⟩ := @walk_idle b b₁ opp (sweepLevel opp) o [.ack ⟨o.id, o.clordId⟩]
    (fun b' hsame px l hfind hne => by
      refine ⟨true, ?_⟩
      have hsweep : sweepQueue l.queue b' = .ok b' := sweepQueue_idle fun p hp => by
        obtain ⟨r, -, hcell, hopen, -⟩ := h.queued (hsame.find? hfind hne) hp
        exact ⟨r, by rw [hsame.cells, hcell], hopen⟩
      simp only [sweepLevel, hfind, hsweep]
      rfl) hsame₁
  refine ⟨b₂, ?_, hsame₂⟩
  rw [submit_eq, ← hopp, hw₁]
  change (OrderBook.walk opp (sweepLevel opp) _ >>= _) = _
  rw [hw₂]
  change (if o.leavesQty > 0 then _ else _) = _
  rw [if_pos hpos]
  rfl

/-- A node put at the end of a queue and unlinked from it. -/
theorem unlink_pushBack {l : PriceLevel} {p : Ptr} (hp : p ∉ l.queue) :
    (l.pushBack p o).unlink p o = l := by
  have hqueue : (l.queue ++ [p]).erase p = l.queue := by
    rw [List.erase_append_right _ hp, List.erase_cons_head, List.append_nil]
  simp [PriceLevel.unlink, PriceLevel.pushBack, hqueue]

/-- **Resting an order and dropping it** restores what was live. -/
theorem sameLive_rest_drop (hk : b.index.lookup o.key = none)
    (hnext : ∀ l, (b.levels o.side.book).find? o.price = some l → b.heap.next ∉ l.queue) :
    b.SameLive ((b.rest o).drop b.heap.next o) := by
  obtain ⟨hheap, hindex, -, -⟩ := rest_eq hk
  have hlk : (b.rest o).index.lookup o.key = some b.heap.next := by
    rw [hindex, AList.lookup_insert]
  refine ⟨fun p => ?_, fun k => ?_, fun s px => ?_⟩
  · rw [cells_drop hlk, hheap]
    by_cases hp : p = b.heap.next
    · rw [if_pos hp, hp, b.heap.fresh _ (Nat.le_refl _)]
    · rw [if_neg hp, Heap.alloc_of_ne _ hp]
  · rw [lookup_drop hlk, hindex]
    by_cases hkk : k = o.key
    · rw [if_pos hkk, hkk, hk]
    · rw [if_neg hkk, AList.lookup_insert_ne hkk]
  · rw [OrderBook.liveLevel, OrderBook.liveLevel, find?_levels_drop hlk, find?_levels_rest]
    by_cases hat : s = o.side.book ∧ px = o.price
    · obtain ⟨rfl, rfl⟩ := hat
      rw [if_pos ⟨rfl, rfl⟩, if_pos ⟨rfl, rfl⟩, Option.map_some]
      rcases hfind : (b.levels o.side.book).find? o.price with _ | l
      · -- a level made for the order is left behind empty
        rw [Option.getD_none, unlink_pushBack (by simp [PriceLevel.new])]
        rfl
      · rw [Option.getD_some, unlink_pushBack (hnext l hfind)]
    · rw [if_neg hat, if_neg hat]

/-- **A submit that crosses nothing, then its cancel.** -/
theorem OrderBook.WellFormed.restores (h : b.WellFormed) (algo : MatchAlgo) (n : NewOrder)
    (hfree : b.find n.session n.clordId = none) (hpos : 0 < n.qty)
    (hcross : ∀ r ∈ b.ordersOn n.side.book.opposite, crosses n.side n.price r.price = false) :
    ∃ b₁ evs b₂, submit algo b n.order = .ok (b₁, evs) ∧
      b₁.cancel n.session n.clordId = .ok (⟨true, []⟩, b₂) ∧ b.SameLive b₂ := by
  obtain ⟨b', hsubmit, hsame⟩ := @submit_idle b n.order h algo hpos hcross
  have hk : b'.index.lookup n.order.key = none := (hsame.index _).trans hfree
  obtain ⟨hheap, hindex, -, -⟩ := rest_eq hk
  have hcancel : (b'.rest n.order).cancel n.session n.clordId =
      .ok (⟨true, []⟩, (b'.rest n.order).drop b'.heap.next n.order) :=
    @cancel_eq_drop _ n.session n.clordId _ n.order
      (by rw [hindex]; exact AList.lookup_insert ..) (by rw [hheap, Heap.alloc_self]) rfl
  refine ⟨_, _, _, hsubmit, hcancel, hsame.trans (sameLive_rest_drop hk fun l hfind hmem => ?_)⟩
  -- what is queued is allocated, and the next address is not
  have hne : l.empty = false := by
    rw [PriceLevel.empty, Bool.eq_false_iff, ne_eq, List.isEmpty_iff]
    rintro hnil
    rw [hnil] at hmem
    cases hmem
  obtain ⟨r, -, hcell, -⟩ := h.queued (hsame.find? hfind hne) hmem
  rw [← hsame.cells, b'.heap.fresh _ (Nat.le_refl _)] at hcell
  cases hcell

end Restore

/-! ## Every run -/

/-- **What `find` and `cancel` do** on a represented book whose leaves do
not wrap. -/
theorem Rep.cancels {b : OrderBook} {d : Depth} (h : Rep b d) (hd : d.Good)
    (hsum : leavesSum d.orders < 2 ^ 64) : b.Cancels where
  found s clord p := by
    rw [OrderBook.find, h.index, keyAt, Option.map_eq_some_iff]
  removes s clord p hfind := by
    obtain ⟨hp, hkey⟩ := (h.index _ p).mp hfind
    obtain ⟨o, hcell, hk⟩ := Option.map_eq_some_iff.mp hkey
    exact ⟨o, b.drop p o, cancel_eq_drop hfind hcell hk, h.removed hsum hp hcell⟩
  refuses s clord hfind := by
    rw [OrderBook.find] at hfind
    rw [OrderBook.cancel, hfind]
  restores := (h.wellFormed hd hsum).restores

/-- **A cancel removes exactly one order, and a refused one changes
nothing**, on every book reached by a run that reuses no live key and
hands in less than half the word size; and an order that crosses nothing
leaves no trace in the live contents once it is cancelled. -/
theorem run_cancels (algo : MatchAlgo) (calls : List Call)
    (hfresh : Guarded Engine.step Engine.Fresh (Engine.new algo) calls)
    (hsum : submittedQty calls < 2 ^ 63) :
    ∃ e evs, run Engine.step (Engine.new algo) calls = .ok (e, evs) ∧ e.book.Cancels := by
  obtain ⟨e, evs, hr, d, hrep, hd, hle⟩ := run_good algo calls hfresh hsum
  exact ⟨e, evs, hr, hrep.cancels hd (by omega)⟩

/-- Two bids at a price, the older of them partly filled and still to be
found, the order that filled it not, and an ask above them. -/
theorem run_cancels_partial_fill :
    ∃ e evs, run Engine.step (Engine.new .fifo)
      [.submit ⟨1, 0, ⟨ascii "A"⟩, .buy, 10, 5⟩, .submit ⟨2, 0, ⟨ascii "B"⟩, .buy, 10, 4⟩,
        .submit ⟨3, 1, ⟨ascii "A"⟩, .sell, 10, 3⟩, .submit ⟨4, 1, ⟨ascii "C"⟩, .sell, 12, 6⟩] =
        .ok (e, evs) ∧ e.book.Cancels ∧ e.book.find 0 ⟨ascii "A"⟩ = some 0 ∧
      e.book.find 1 ⟨ascii "A"⟩ = none := by
  obtain ⟨e, evs, hr, hc⟩ := run_cancels .fifo
    [.submit ⟨1, 0, ⟨ascii "A"⟩, .buy, 10, 5⟩, .submit ⟨2, 0, ⟨ascii "B"⟩, .buy, 10, 4⟩,
      .submit ⟨3, 1, ⟨ascii "A"⟩, .sell, 10, 3⟩, .submit ⟨4, 1, ⟨ascii "C"⟩, .sell, 12, 6⟩]
    (by decide +kernel) (by decide)
  obtain ⟨e', evs', hr', hfind⟩ := @exists_of_run_check _ _ _ _ Engine.step
    (fun r : Engine × EventList => decide (r.1.book.find 0 ⟨ascii "A"⟩ = some 0 ∧
      r.1.book.find 1 ⟨ascii "A"⟩ = none)) (Engine.new .fifo)
    [.submit ⟨1, 0, ⟨ascii "A"⟩, .buy, 10, 5⟩, .submit ⟨2, 0, ⟨ascii "B"⟩, .buy, 10, 4⟩,
      .submit ⟨3, 1, ⟨ascii "A"⟩, .sell, 10, 3⟩, .submit ⟨4, 1, ⟨ascii "C"⟩, .sell, 12, 6⟩]
    (by decide +kernel)
  obtain ⟨rfl, rfl⟩ : e' = e ∧ evs' = evs := by
    rw [hr] at hr'
    exact Prod.mk.inj (Except.ok.inj hr'.symm)
  exact ⟨e', evs', hr, hc, of_decide_eq_true hfind⟩

end Core

end OrderbookFix
