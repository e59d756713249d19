import OrderbookFix.Core.Helpers.Rep
/-!
# The book's own steps, over values

Dropping an empty level, filling one level, dropping one order with the
key it is indexed under, and resting an order whose key is free: each
keeps the representation and does to the values what the value-level
operation of the same name does.
-/

namespace OrderbookFix

namespace Core

/-- Changes to the heap away from the linked addresses of some levels do
not show there. -/
theorem forall₂_congr {h h' : Heap Order} {es : List (Price × PriceLevel)} {l : Ladder}
    (hl : List.Forall₂ (fun e a => e.1 = a.1 ∧ LevelRep h e.2 a.2) es l)
    (hh : ∀ p ∈ es.flatMap fun e => e.2.queue, h'.cells p = h.cells p) :
    List.Forall₂ (fun e a => e.1 = a.1 ∧ LevelRep h' e.2 a.2) es l := by
  induction hl with
  | nil => exact List.Forall₂.nil
  | cons hab _ ih =>
    simp only [List.flatMap_cons, List.mem_append] at hh
    exact List.Forall₂.cons ⟨hab.1, hab.2.congr fun p hp => hh p (Or.inl hp)⟩
      (ih fun p hp => hh p (Or.inr hp))

theorem linked_congr {b b' : OrderBook} (h : ∀ t, b'.linkedOn t = b.linkedOn t) :
    b'.linked = b.linked := by
  rw [OrderBook.linked, OrderBook.linked, h, h]

/-- A ladder as the other one or itself. -/
theorem BookSide.eq_or_ne_of (s t : BookSide) : t = s ∨ t ≠ s := em _

/-- The addresses of a ladder, at a split of its entries. -/
theorem linkedOn_of_split {b : OrderBook} {s : BookSide} {es fs : List (Price × PriceLevel)}
    {px : Price} {l : PriceLevel} (h : (b.levels s).entries = es ++ (px, l) :: fs) :
    b.linkedOn s = es.flatMap (fun e => e.2.queue) ++
      (l.queue ++ fs.flatMap fun e => e.2.queue) := by
  rw [OrderBook.linkedOn, h, List.flatMap_append, List.flatMap_cons]

namespace Rep

variable {b : OrderBook} {d : Depth} {s : BookSide}

/-- One ladder's addresses are distinct. -/
theorem nodup_linkedOn (h : Rep b d) (s : BookSide) : (b.linkedOn s).Nodup := by
  have hnd := h.nodup
  rw [OrderBook.linked, List.nodup_append] at hnd
  cases s
  · exact hnd.1
  · exact hnd.2.1

/-- The two ladders share no address. -/
theorem disjoint_linkedOn (h : Rep b d) {t : BookSide} (ht : t ≠ s) {p : Ptr}
    (hp : p ∈ b.linkedOn s) : p ∉ b.linkedOn t := by
  have hnd := h.nodup
  rw [OrderBook.linked, List.nodup_append] at hnd
  intro hq
  cases s <;> cases t
  · exact ht rfl
  · exact hnd.2.2 p hp p hq rfl
  · exact hnd.2.2 p hq p hp rfl
  · exact ht rfl

/-- **A change to one ladder**: the other keeps its levels and its
orders. -/
theorem setLadder (h : Rep b d) {b' : OrderBook} {l : Ladder}
    (hother : ∀ t ≠ s, b'.levels t = b.levels t)
    (hcells : ∀ t ≠ s, ∀ p ∈ b.linkedOn t, b'.heap.cells p = b.heap.cells p)
    (hlevels : List.Forall₂ (fun e a => e.1 = a.1 ∧ LevelRep b'.heap e.2 a.2)
      (b'.levels s).entries l)
    (hplaced : ∀ a ∈ l, ∀ o ∈ a.2, o.price = a.1 ∧ o.side.book = s) (hnodup : b'.linked.Nodup)
    (hindex : ∀ k p, b'.index.lookup k = some p ↔ p ∈ b'.linked ∧ keyAt b'.heap p = some k) :
    Rep b' (d.setLadder s l) := by
  refine ⟨fun t => ?_, fun t a ha => ?_, hnodup, hindex⟩
  · rcases s.eq_or_ne_of t with rfl | ht
    · rw [ladder_setLadder]
      exact hlevels
    · rw [hother t ht, ladder_setLadder_of_ne ht]
      exact forall₂_congr (h.levels t) (hcells t ht)
  · rcases s.eq_or_ne_of t with rfl | ht
    · rw [ladder_setLadder] at ha
      exact hplaced a ha
    · rw [ladder_setLadder_of_ne ht] at ha
      exact h.placed t a ha

/-- Where the orders of the levels before and after one belong. -/
theorem placed_of_split (h : Rep b d) {pre post : Ladder} {px : Price} {os : List Order}
    (hd : d.ladder s = pre ++ (px, os) :: post) :
    (∀ a ∈ pre ++ post, ∀ o ∈ a.2, o.price = a.1 ∧ o.side.book = s) ∧
      ∀ o ∈ os, o.price = px ∧ o.side.book = s := by
  have hplaced := h.placed s
  rw [hd] at hplaced
  refine ⟨fun a ha => hplaced a ?_,
    hplaced (px, os) (List.mem_append_right _ (List.mem_cons_self ..))⟩
  rcases List.mem_append.mp ha with ha | ha
  · exact List.mem_append_left _ ha
  · exact List.mem_append_right _ (List.mem_cons_of_mem _ ha)

/-- **A change to one level**: the heap is touched at its addresses only,
and the levels around it stay. -/
theorem setLevel (h : Rep b d) {b' : OrderBook} {pre post : Ladder} {px : Price}
    {os os' : List Order} {es fs : List (Price × PriceLevel)} {l l' : PriceLevel}
    (hd : d.ladder s = pre ++ (px, os) :: post)
    (hsplit : (b.levels s).entries = es ++ (px, l) :: fs)
    (hes : List.Forall₂ (fun e a => e.1 = a.1 ∧ LevelRep b.heap e.2 a.2) es pre)
    (hfs : List.Forall₂ (fun e a => e.1 = a.1 ∧ LevelRep b.heap e.2 a.2) fs post)
    (hentries : (b'.levels s).entries = es ++ (px, l') :: fs)
    (hother : ∀ t ≠ s, b'.levels t = b.levels t)
    (hoff : ∀ p, p ∉ l.queue → b'.heap.cells p = b.heap.cells p)
    (hl' : LevelRep b'.heap l' os') (hos' : ∀ o ∈ os', o.price = px ∧ o.side.book = s)
    (hnodup : b'.linked.Nodup)
    (hindex : ∀ k p, b'.index.lookup k = some p ↔ p ∈ b'.linked ∧ keyAt b'.heap p = some k) :
    Rep b' (d.setLadder s (pre ++ (px, os') :: post)) := by
  -- the addresses of the level are shared with no other
  have hon := linkedOn_of_split hsplit
  have hnd := h.nodup_linkedOn s
  rw [hon, List.nodup_append, List.nodup_append] at hnd
  obtain ⟨-, ⟨-, -, hlfs⟩, hesl⟩ := hnd
  have hplaced := (h.placed_of_split hd).1
  refine h.setLadder hother (fun t ht p hp => hoff p fun hpl => ?_) ?_ (fun a ha => ?_) hnodup hindex
  · refine h.disjoint_linkedOn ht ?_ hp
    rw [hon]
    exact List.mem_append_right _ (List.mem_append_left _ hpl)
  · rw [hentries]
    exact List.rel_append
      (forall₂_congr hes fun p hp => hoff p fun hpl =>
        hesl p hp p (List.mem_append_left _ hpl) rfl)
      (List.Forall₂.cons ⟨rfl, hl'⟩
        (forall₂_congr hfs fun p hp => hoff p fun hpl => hlfs p hpl p hp rfl))
  · rcases List.mem_append.mp ha with ha | ha
    · exact hplaced a (List.mem_append_left _ ha)
    rcases List.mem_cons.mp ha with rfl | ha
    · exact hos'
    · exact hplaced a (List.mem_append_right _ ha)

/-- Each ladder represents its own values. -/
theorem shows (h : Rep b d) {l : Ladder} (hd : d.ladder s = l) : Shows b s l :=
  ⟨hd ▸ h.levels s, h.nodup_linkedOn s⟩

end Rep

/-- The addresses of one level are distinct. -/
theorem nodup_queue {b : OrderBook} {s : BookSide} (h : (b.linkedOn s).Nodup)
    {es fs : List (Price × PriceLevel)} {px : Price} {l : PriceLevel}
    (hsplit : (b.levels s).entries = es ++ (px, l) :: fs) : l.queue.Nodup := by
  rw [linkedOn_of_split hsplit, List.nodup_append, List.nodup_append] at h
  exact h.2.1.1

/-- **What a match on one ladder leaves alone**: the index, the other
ladder with its orders, and all but the leaves of its own. -/
structure Framed (s : BookSide) (b b' : OrderBook) : Prop where
  index : b'.index = b.index
  others : ∀ t ≠ s, b'.levels t = b.levels t
  linkedOn : b'.linkedOn s = b.linkedOn s
  keys : ∀ p, keyAt b'.heap p = keyAt b.heap p
  cells : ∀ p ∉ b.linkedOn s, b'.heap.cells p = b.heap.cells p

namespace Framed

variable {s : BookSide} {b b₁ b' : OrderBook}

theorem refl (s : BookSide) (b : OrderBook) : Framed s b b :=
  ⟨rfl, fun _ _ => rfl, rfl, fun _ => rfl, fun _ _ => rfl⟩

theorem trans (h : Framed s b b₁) (h' : Framed s b₁ b') : Framed s b b' where
  index := h'.index.trans h.index
  others t ht := (h'.others t ht).trans (h.others t ht)
  linkedOn := h'.linkedOn.trans h.linkedOn
  keys p := (h'.keys p).trans (h.keys p)
  cells p hp := (h'.cells p (h.linkedOn ▸ hp)).trans (h.cells p hp)

/-- Nothing is linked or unlinked. -/
theorem linked (h : Framed s b b') : b'.linked = b.linked := by
  refine linked_congr fun t => ?_
  rcases s.eq_or_ne_of t with rfl | ht
  · exact h.linkedOn
  · rw [OrderBook.linkedOn, h.others t ht, OrderBook.linkedOn]

end Framed

/-- **A represented book whose one ladder was matched** is represented. -/
theorem Rep.of_framed {s : BookSide} {b b' : OrderBook} {d : Depth} {l : Ladder} (h : Rep b d)
    (hframed : Framed s b b') (hl : Shows b' s l)
    (hplaced : ∀ a ∈ l, ∀ o ∈ a.2, o.price = a.1 ∧ o.side.book = s) :
    Rep b' (d.setLadder s l) := by
  refine h.setLadder hframed.others (fun t ht p hp => hframed.cells p fun hps => ?_) hl.levels
    hplaced (by rw [hframed.linked]; exact h.nodup) fun k p => ?_
  · exact h.disjoint_linkedOn ht hps hp
  · rw [hframed.index, hframed.linked, hframed.keys]
    exact h.index k p

namespace Shows

variable {b : OrderBook} {s : BookSide} {pre post : Ladder} {px : Price} {os : List Order}

/-- **An empty level is dropped.** -/
theorem eraseEmpty (h : Shows b s (pre ++ (px, []) :: post)) :
    Shows (b.setLevels s ((b.levels s).erase px)) s (pre ++ post) ∧
      Framed s b (b.setLevels s ((b.levels s).erase px)) := by
  obtain ⟨es, fs, l, hsplit, hes, hl, hfs⟩ := levels_split h.levels
  have hq : l.queue = [] := by simpa using hl.queue
  have herase := OrderedMap.erase_of_split hsplit
  have hlinked : (b.setLevels s ((b.levels s).erase px)).linkedOn s = b.linkedOn s := by
    rw [linkedOn_of_split hsplit, hq, OrderBook.linkedOn, levels_setLevels, herase,
      List.flatMap_append, List.nil_append]
  refine ⟨⟨?_, by rw [hlinked]; exact h.nodup⟩, index_setLevels,
    fun t ht => levels_setLevels_of_ne ht, hlinked, fun p => by rw [heap_setLevels],
    fun p _ => by rw [heap_setLevels]⟩
  rw [heap_setLevels, levels_setLevels, herase]
  exact List.rel_append hes hfs

end Shows

/-- **An empty level is dropped**, of a represented book. -/
theorem Rep.eraseEmpty {b : OrderBook} {d : Depth} {s : BookSide} (h : Rep b d)
    {pre post : Ladder} {px : Price} (hd : d.ladder s = pre ++ (px, []) :: post) :
    Rep (b.setLevels s ((b.levels s).erase px)) (d.setLadder s (pre ++ post)) := by
  obtain ⟨hshows, hframed⟩ := (h.shows hd).eraseEmpty
  exact h.of_framed hframed hshows (h.placed_of_split hd).1

/-! ## Filling a level -/

theorem length_fillQueue {os : List Order} {fs : List Quantity} (h : fs.length = os.length) :
    (fillQueue os fs).length = os.length := by
  simp [fillQueue, h]

/-- The leaves of a filled queue, summed. -/
theorem sum_fillQueue {os : List Order} {fs : List Quantity} (h : fs.length = os.length) :
    ((fillQueue os fs).map Order.leavesQty).sum = (os.map Order.leavesQty).sum - fs.sum := by
  induction os generalizing fs with
  | nil =>
    have hfs : fs = [] := List.eq_nil_of_length_eq_zero (by simpa using h)
    subst hfs
    rfl
  | cons o os ih =>
    obtain _ | ⟨f, fs⟩ := fs
    · simp at h
    have := ih (by simpa using h)
    simp only [fillQueue, List.zipWith_cons_cons, List.map_cons, List.sum_cons, Order.fill] at this ⊢
    rw [this]
    grind

/-- What of an order its fills do not touch. -/
theorem map_fillQueue {β : Type*} {g : Order → β} (hg : ∀ o f, g (Order.fill o f) = g o)
    {os : List Order} {fs : List Quantity} (h : fs.length = os.length) :
    (fillQueue os fs).map g = os.map g := by
  induction os generalizing fs with
  | nil => rfl
  | cons o os ih =>
    obtain _ | ⟨f, fs⟩ := fs
    · simp at h
    have := ih (by simpa using h)
    simp only [fillQueue, List.zipWith_cons_cons, List.map_cons, hg] at this ⊢
    rw [this]

theorem ofInt_add (x y : Int) : UInt64.ofInt (x + y) = UInt64.ofInt x + UInt64.ofInt y := by
  rw [← UInt64.toNat_inj, UInt64.toNat_add]
  simp only [UInt64.ofInt, UInt64.toNat_ofNat']
  omega

theorem ofInt_sub (x y : Int) : UInt64.ofInt (x - y) = UInt64.ofInt x - UInt64.ofInt y := by
  rw [← UInt64.toNat_inj, UInt64.toNat_sub]
  simp only [UInt64.ofInt, UInt64.toNat_ofNat']
  omega

theorem i64_eq_ok {x y : Int} (h : i64 x = .ok y) : y = x := by
  unfold i64 at h
  split at h
  · exact (Except.ok.inj h).symm
  · cases h

/-- The folded delta is the negated sum of the fills, as a word. -/
theorem ofInt_deltaFold {d d' : Int} {fs : List Quantity} (h : deltaFold d fs = .ok d') :
    UInt64.ofInt d' = UInt64.ofInt d - fs.sum := by
  induction fs generalizing d with
  | nil =>
    rw [deltaFold] at h
    rw [← Except.ok.inj h, List.sum_nil, UInt64.sub_zero]
  | cons f fs ih =>
    rw [deltaFold] at h
    split at h
    · rename_i hf
      rw [ih h, List.sum_cons, hf, UInt64.zero_add]
    · rcases hi : i64 (d - toI64 f) with e | x
      · rw [hi] at h
        cases h
      · rw [hi] at h
        rw [ih h, i64_eq_ok hi, ofInt_sub, ofInt_toI64, List.sum_cons]
        grind

/-- The close of an allocator: the new total, in range. -/
theorem settle_eq {px : Price} {s : BookSide} {st : MatchState} {l : PriceLevel}
    (hfind : (st.book.levels s).find? px = some l) (filled : Quantity) (delta : Int) :
    settle s px st filled delta = (i64 (toI64 l.totalQty + delta)).map fun x => { st with
      book := st.book.modifyLevel s px fun _ => { l with totalQty := UInt64.ofInt x }
      aggr := st.aggr.fill filled } := by
  simp only [settle, hfind, PriceLevel.noteQtyDelta]
  rcases i64 (toI64 l.totalQty + delta) with e | x <;> rfl

/-- The close of an allocator, read off its outcome. -/
theorem settle_eq_ok {px : Price} {s : BookSide} {st st' : MatchState} {l : PriceLevel}
    {filled : Quantity} {delta : Int} (hfind : (st.book.levels s).find? px = some l)
    (h : settle s px st filled delta = .ok st') :
    st' = { st with
      book := st.book.modifyLevel s px fun _ =>
        { l with totalQty := l.totalQty + UInt64.ofInt delta }
      aggr := st.aggr.fill filled } := by
  rw [settle_eq hfind] at h
  rcases hi : i64 (toI64 l.totalQty + delta) with e | x
  · rw [hi] at h
    cases h
  · rw [hi] at h
    have hx : UInt64.ofInt x = l.totalQty + UInt64.ofInt delta := by
      rw [i64_eq_ok hi, ofInt_add, ofInt_toI64]
    rw [← hx]
    exact (Except.ok.inj h).symm

/-- Fills keep the key at every address. -/
theorem keyAt_writeAll {h : Heap Order} {ps : List Ptr} {os : List Order} {fs : List Quantity}
    (hnd : ps.Nodup) (hlive : ps.map h.cells = os.map some) (hlen : fs.length = os.length)
    (p : Ptr) : keyAt (h.writeAll ps (fillQueue os fs)) p = keyAt h p := by
  by_cases hp : p ∈ ps
  · have hnew := Heap.map_writeAll h hnd hlive (length_fillQueue hlen)
    have hkeys : ps.map (keyAt (h.writeAll ps (fillQueue os fs))) = ps.map (keyAt h) := by
      have h1 := congrArg (List.map (Option.map Order.key)) hnew
      have h2 := congrArg (List.map (Option.map Order.key)) hlive
      rw [List.map_map, List.map_map] at h1 h2
      have hk : (fillQueue os fs).map (Option.map Order.key ∘ some) =
          os.map (Option.map Order.key ∘ some) := map_fillQueue (fun _ _ => rfl) hlen
      exact h1.trans (hk.trans h2.symm)
    exact List.map_inj_left.mp hkeys p hp
  · rw [keyAt, Heap.writeAll_of_notMem _ hp, keyAt]

/-- A filled order is where the order it fills was. -/
theorem placed_fillQueue {s : BookSide} {px : Price} {os : List Order} {fs : List Quantity}
    (hlen : fs.length = os.length) (h : ∀ o ∈ os, o.price = px ∧ o.side.book = s) :
    ∀ o ∈ fillQueue os fs, o.price = px ∧ o.side.book = s := by
  intro o ho
  have hm : (o.price, o.side.book) ∈ os.map fun o => (o.price, o.side.book) := by
    rw [← map_fillQueue (g := fun o => (o.price, o.side.book)) (fun _ _ => rfl) hlen]
    exact List.mem_map_of_mem ho
  obtain ⟨o', ho', he⟩ := List.mem_map.mp hm
  obtain ⟨hprice, hside⟩ := Prod.mk.inj he
  exact ⟨hprice ▸ (h o' ho').1, hside ▸ (h o' ho').2⟩

/-- A level filled, with its total settled. -/
theorem LevelRep.fill {h : Heap Order} {l : PriceLevel} {os : List Order} {fs : List Quantity}
    {delta : Int} (hl : LevelRep h l os) (hnd : l.queue.Nodup) (hlen : fs.length = os.length)
    (hdelta : deltaFold 0 fs = .ok delta) :
    LevelRep (h.writeAll l.queue (fillQueue os fs))
      { l with totalQty := l.totalQty + UInt64.ofInt delta } (fillQueue os fs) where
  queue := Heap.map_writeAll _ hnd hl.queue (length_fillQueue hlen)
  count := by
    rw [length_fillQueue hlen]
    exact hl.count
  total := by
    have h0 : UInt64.ofInt 0 = 0 := rfl
    change l.totalQty + UInt64.ofInt delta = _
    rw [sum_fillQueue hlen, hl.total, ofInt_deltaFold hdelta, h0]
    grind

/-- The book once a level is filled. -/
theorem book_of_settle {px : Price} {s : BookSide} {st st' : MatchState} {l : PriceLevel}
    {os : List Order} {fs : List Quantity} {filled : Quantity} {delta : Int}
    {es gs : List (Price × PriceLevel)} (hsplit : (st.book.levels s).entries = es ++ (px, l) :: gs)
    (hst : settle s px (st.applyFills px l.queue os fs) filled delta = .ok st') :
    st'.book.heap = st.book.heap.writeAll l.queue (fillQueue os fs) ∧
      st'.book.index = st.book.index ∧
      (st'.book.levels s).entries =
        es ++ (px, { l with totalQty := l.totalQty + UInt64.ofInt delta }) :: gs ∧
      ∀ t ≠ s, st'.book.levels t = st.book.levels t := by
  have hlev : ∀ t, (st.applyFills px l.queue os fs).book.levels t = st.book.levels t := by
    intro t
    cases t <;> rfl
  have hfind : ((st.applyFills px l.queue os fs).book.levels s).find? px = some l := by
    rw [hlev]
    exact OrderedMap.find?_of_split hsplit
  rw [settle_eq_ok hfind hst]
  simp only [OrderBook.modifyLevel]
  refine ⟨by rw [heap_setLevels]; rfl, by rw [index_setLevels]; rfl, ?_, fun t ht => ?_⟩
  · rw [levels_setLevels, hlev]
    exact OrderedMap.modify_of_split hsplit
  · rw [levels_setLevels_of_ne ht, hlev]

/-- **A level is filled.** -/
theorem Shows.fillLevel {st st' : MatchState} {s : BookSide} {pre post : Ladder}
    {px : Price} {os : List Order} {fs : List Quantity} {l : PriceLevel} {delta : Int}
    (h : Shows st.book s (pre ++ (px, os) :: post))
    (hfind : (st.book.levels s).find? px = some l) (hlen : fs.length = os.length)
    (hdelta : deltaFold 0 fs = .ok delta)
    (hst : settle s px (st.applyFills px l.queue os fs) fs.sum delta = .ok st') :
    Shows st'.book s (pre ++ (px, fillQueue os fs) :: post) ∧ Framed s st.book st'.book := by
  obtain ⟨es, gs, l', hsplit, hes, hl, hgs⟩ := levels_split h.levels
  obtain rfl : l' = l := by
    rw [OrderedMap.find?_of_split hsplit] at hfind
    exact Option.some.inj hfind
  have hnd := nodup_queue h.nodup hsplit
  obtain ⟨hheap, hindex, hentries, hother⟩ := book_of_settle hsplit hst
  have hon := linkedOn_of_split hsplit
  have hlinked : st'.book.linkedOn s = st.book.linkedOn s := by
    rw [linkedOn_of_split hentries, hon]
  have hoff : ∀ p, p ∉ l'.queue → st'.book.heap.cells p = st.book.heap.cells p := fun p hp => by
    rw [hheap]
    exact Heap.writeAll_of_notMem _ hp
  refine ⟨⟨?_, by rw [hlinked]; exact h.nodup⟩, hindex, hother, hlinked, fun p => ?_,
    fun p hp => hoff p fun hpl => hp ?_⟩
  · -- the addresses of the level are shared with no other
    have hdisj := h.nodup
    rw [hon, List.nodup_append, List.nodup_append] at hdisj
    obtain ⟨-, ⟨-, -, hlgs⟩, hesl⟩ := hdisj
    rw [hentries]
    refine List.rel_append
      (forall₂_congr hes fun p hp => hoff p fun hpl =>
        hesl p hp p (List.mem_append_left _ hpl) rfl)
      (List.Forall₂.cons ⟨rfl, ?_⟩
        (forall₂_congr hgs fun p hp => hoff p fun hpl => hlgs p hpl p hp rfl))
    rw [hheap]
    exact hl.fill hnd hlen hdelta
  · rw [hheap, keyAt_writeAll hnd hl.queue hlen]
  · rw [hon]
    exact List.mem_append_right _ (List.mem_append_left _ hpl)

/-! ## Dropping an order -/

theorem dropKey_eq_self {k : IndexKey} {l : Ladder}
    (h : ∀ a ∈ l, ∀ o ∈ a.2, o.key ≠ k) : dropKey k l = l := by
  conv_rhs => rw [← List.map_id l]
  refine List.map_congr_left fun a ha => ?_
  have : a.2.filter (fun o => o.key ≠ k) = a.2 :=
    List.filter_eq_self.mpr (by simpa using h a ha)
  rw [this]
  rfl

/-- Where keys are distinct, the orders of a key are one order. -/
theorem key_ne_of_split {d : Depth} (hnd : (d.orders.map Order.key).Nodup) {s : BookSide}
    {pre post : Ladder} {px : Price} {oa ob : List Order} {o : Order}
    (hd : d.ladder s = pre ++ (px, oa ++ o :: ob) :: post) :
    (∀ a ∈ pre, ∀ o' ∈ a.2, o'.key ≠ o.key) ∧ (∀ o' ∈ oa ++ ob, o'.key ≠ o.key) ∧
      (∀ a ∈ post, ∀ o' ∈ a.2, o'.key ≠ o.key) ∧
      ∀ t ≠ s, ∀ a ∈ d.ladder t, ∀ o' ∈ a.2, o'.key ≠ o.key := by
  have hon : (d.ordersOn s).Perm
      (o :: (pre.flatMap Prod.snd ++ ((oa ++ ob) ++ post.flatMap Prod.snd))) := by
    rw [Depth.ordersOn, hd, List.flatMap_append, List.flatMap_cons]
    simp only [List.append_assoc, List.cons_append]
    exact ((List.perm_middle (a := o)).append_left _).trans List.perm_middle
  have hall : ∀ t, t ≠ s → (d.orders).Perm
      (o :: ((pre.flatMap Prod.snd ++ ((oa ++ ob) ++ post.flatMap Prod.snd)) ++ d.ordersOn t)) := by
    intro t ht
    rw [Depth.orders]
    cases s <;> cases t
    · exact absurd rfl ht
    · exact hon.append_right _
    · exact List.perm_append_comm.trans (hon.append_right _)
    · exact absurd rfl ht
  have hne : ∀ t, t ≠ s → ∀ o', o' ∈ (pre.flatMap Prod.snd ++ ((oa ++ ob) ++
      post.flatMap Prod.snd)) ++ d.ordersOn t → o'.key ≠ o.key := by
    intro t ht o' ho' hk
    have hnd' := ((hall t ht).map Order.key).nodup_iff.mp hnd
    rw [List.map_cons, List.nodup_cons] at hnd'
    exact hnd'.1 (hk ▸ List.mem_map_of_mem ho')
  have hopp : s.opposite ≠ s := by cases s <;> decide
  refine ⟨fun a ha o' ho' => hne _ hopp o' ?_, fun o' ho' => hne _ hopp o' ?_,
    fun a ha o' ho' => hne _ hopp o' ?_, fun t ht a ha o' ho' => hne t ht o' ?_⟩
  · exact List.mem_append_left _ (List.mem_append_left _ (List.mem_flatMap.mpr ⟨a, ha, ho'⟩))
  · exact List.mem_append_left _ (List.mem_append_right _ (List.mem_append_left _ ho'))
  · exact List.mem_append_left _ (List.mem_append_right _ (List.mem_append_right _
      (List.mem_flatMap.mpr ⟨a, ha, ho'⟩)))
  · exact List.mem_append_right _ (List.mem_flatMap.mpr ⟨a, ha, ho'⟩)

/-- Cancelling a key takes its one order out of its queue. -/
theorem cancel_of_split {d : Depth} (hnd : (d.orders.map Order.key).Nodup) {s : BookSide}
    {pre post : Ladder} {px : Price} {oa ob : List Order} {o : Order}
    (hd : d.ladder s = pre ++ (px, oa ++ o :: ob) :: post) :
    d.cancel o.key = d.setLadder s (pre ++ (px, oa ++ ob) :: post) := by
  obtain ⟨hpre, hlev, hpost, hother⟩ := key_ne_of_split hnd hd
  have hfilter : (oa ++ o :: ob).filter (fun o' => o'.key ≠ o.key) = oa ++ ob := by
    have h1 : (oa ++ ob).filter (fun o' => o'.key ≠ o.key) = oa ++ ob :=
      List.filter_eq_self.mpr fun o' ho' => by simpa using hlev o' ho'
    rw [List.filter_append] at h1
    rw [List.filter_append, List.filter_cons_of_neg (by simp), h1]
  have hs : dropKey o.key (d.ladder s) = pre ++ (px, oa ++ ob) :: post := by
    have h1 := dropKey_eq_self hpre
    have h2 := dropKey_eq_self hpost
    unfold dropKey at h1 h2
    rw [hd, dropKey, List.map_append, List.map_cons, h1, h2, hfilter]
  have ht : ∀ t ≠ s, dropKey o.key (d.ladder t) = d.ladder t := fun t ht =>
    dropKey_eq_self (hother t ht)
  rw [← hs]
  cases s
  · have := ht .ask (by decide)
    exact congrArg (Depth.mk _) this
  · have := ht .bid (by decide)
    exact congrArg (Depth.mk · _) this

/-- A correspondence of lists, split where its left side is. -/
theorem forall₂_split {α β : Type*} {R : α → β → Prop} {es fs : List α} {e : α} {l : List β}
    (h : List.Forall₂ R (es ++ e :: fs) l) :
    ∃ pre a post, l = pre ++ a :: post ∧ List.Forall₂ R es pre ∧ R e a ∧
      List.Forall₂ R fs post := by
  have hes := (List.forall₂_take_append _ _ _ h.flip).flip
  have hgs := (List.forall₂_drop_append _ _ _ h.flip).flip
  obtain ⟨a, post, hea, hfs, hdrop⟩ := List.forall₂_cons_left_iff.mp hgs
  refine ⟨_, a, post, ?_, hes, hea, hfs⟩
  rw [← hdrop, List.take_append_drop]

/-- A linked address, located: its level, and its place in the queue. -/
theorem Rep.locate {b : OrderBook} {d : Depth} (h : Rep b d) {p : Ptr} {o : Order}
    (hp : p ∈ b.linked) (ho : b.heap.cells p = some o) :
    ∃ pre post oa ob, d.ladder o.side.book = pre ++ (o.price, oa ++ o :: ob) :: post ∧
      ∃ es fs l pa pb, (b.levels o.side.book).entries = es ++ (o.price, l) :: fs ∧
        List.Forall₂ (fun e a => e.1 = a.1 ∧ LevelRep b.heap e.2 a.2) es pre ∧
        LevelRep b.heap l (oa ++ o :: ob) ∧
        List.Forall₂ (fun e a => e.1 = a.1 ∧ LevelRep b.heap e.2 a.2) fs post ∧
        l.queue = pa ++ p :: pb ∧ pa.map b.heap.cells = oa.map some ∧
        pb.map b.heap.cells = ob.map some := by
  obtain ⟨s, hs⟩ := mem_linked.mp hp
  obtain ⟨e, he, hpe⟩ := mem_linkedOn.mp hs
  obtain ⟨es, fs, hsplit⟩ := List.append_of_mem he
  obtain ⟨pre, a, post, hd, hes, ⟨hpx, hl⟩, hfs⟩ := forall₂_split (hsplit ▸ h.levels s)
  rw [show e = (a.1, e.2) by rw [← hpx]] at hsplit
  obtain ⟨pa, pb, hq⟩ := List.append_of_mem hpe
  have hmap := hl.queue
  rw [hq, List.map_append, List.map_cons, ho] at hmap
  obtain ⟨oa, oc, hos, hoa, hoc⟩ := List.map_eq_append_iff.mp hmap.symm
  obtain ⟨o', ob, rfl, hoo, hob⟩ := List.map_eq_cons_iff.mp hoc
  obtain rfl : o' = o := Option.some.inj hoo
  have hplaced := h.placed s a (by rw [hd]; exact List.mem_append_right _ (List.mem_cons_self ..))
    o' (by rw [hos]; exact List.mem_append_right _ (List.mem_cons_self ..))
  obtain ⟨hpr, hside⟩ := hplaced
  subst hside
  rw [hpr]
  refine ⟨pre, post, oa, ob, ?_, es, fs, e.2, pa, pb, hsplit, hes, ?_, hfs, hq, hoa.symm, hob.symm⟩
  · rw [hd, ← hos]
  · rw [← hos]
    exact hl

/-- Unlinking an order takes it out of its queue. -/
theorem LevelRep.unlink {h : Heap Order} {l : PriceLevel} {oa ob : List Order} {o : Order}
    {p : Ptr} {pa pb : List Ptr} (hl : LevelRep h l (oa ++ o :: ob)) (hq : l.queue = pa ++ p :: pb)
    (hnd : l.queue.Nodup) (hoa : pa.map h.cells = oa.map some) (hob : pb.map h.cells = ob.map some) :
    (l.unlink p o).queue = pa ++ pb ∧ LevelRep (h.free p) (l.unlink p o) (oa ++ ob) := by
  rw [hq, List.nodup_append] at hnd
  obtain ⟨-, hnd', hdisj⟩ := hnd
  have hpa : p ∉ pa := fun hp => hdisj p hp p (List.mem_cons_self ..) rfl
  have hpb : p ∉ pb := (List.nodup_cons.mp hnd').1
  have hqueue : (l.unlink p o).queue = pa ++ pb := by
    rw [PriceLevel.unlink, hq, List.erase_append_right _ hpa, List.erase_cons_head]
  refine ⟨hqueue, ?_, ?_, ?_⟩
  · have hfree : ∀ ps : List Ptr, p ∉ ps → ps.map (h.free p).cells = ps.map h.cells := by
      intro ps hps
      refine List.map_congr_left fun q hqs => Heap.free_of_ne _ ?_
      rintro rfl
      exact hps hqs
    rw [hqueue, List.map_append, hfree pa hpa, hfree pb hpb, hoa, hob, List.map_append]
  · have := hl.count
    simp only [PriceLevel.unlink, List.length_append, List.length_cons] at this ⊢
    omega
  · have := hl.total
    simp only [PriceLevel.unlink, List.map_append, List.map_cons, List.sum_append,
      List.sum_cons] at this ⊢
    rw [this]
    grind

/-- What `cancel` and `remove` do once they hold the order. -/
def OrderBook.drop (b : OrderBook) (p : Ptr) (o : Order) : OrderBook :=
  (b.modifyLevel o.side.book o.price (·.unlink p o)).eraseKey o.key

/-- The book once an order is dropped, its key being the one it is
indexed under. -/
theorem drop_eq {b : OrderBook} {p : Ptr} {o : Order} (hlookup : b.index.lookup o.key = some p) :
    (b.drop p o).heap = b.heap.free p ∧ (b.drop p o).index = b.index.erase o.key ∧
      (b.drop p o).levels o.side.book =
        (b.levels o.side.book).modify o.price (·.unlink p o) ∧
      ∀ t ≠ o.side.book, (b.drop p o).levels t = b.levels t := by
  have hdrop : b.drop p o =
      { b.setLevels o.side.book ((b.levels o.side.book).modify o.price (·.unlink p o)) with
        heap := b.heap.free p, index := b.index.erase o.key } := by
    rw [OrderBook.drop, OrderBook.eraseKey, OrderBook.modifyLevel, index_setLevels, hlookup]
    simp only [heap_setLevels]
  have hlevels : ∀ t, (b.drop p o).levels t = (b.setLevels o.side.book
      ((b.levels o.side.book).modify o.price (·.unlink p o))).levels t := by
    intro t
    rw [hdrop]
    cases t <;> rfl
  refine ⟨by rw [hdrop], by rw [hdrop], ?_, fun t ht => ?_⟩
  · rw [hlevels, levels_setLevels]
  · rw [hlevels, levels_setLevels_of_ne ht]

/-- The index less one key owns the linked orders less its own. -/
theorem Rep.index_erase {b : OrderBook} {d : Depth} (h : Rep b d) {p : Ptr} {k₀ : IndexKey}
    (hp : p ∈ b.linked) (hkey : keyAt b.heap p = some k₀) (k : IndexKey) (q : Ptr) :
    (b.index.erase k₀).lookup k = some q ↔
      (q ∈ b.linked ∧ q ≠ p) ∧ keyAt (b.heap.free p) q = some k := by
  have hfree : ∀ q, q ≠ p → keyAt (b.heap.free p) q = keyAt b.heap q := fun q hqp => by
    rw [keyAt, keyAt, Heap.free_of_ne _ hqp]
  by_cases hk : k = k₀
  · subst hk
    rw [AList.lookup_erase]
    refine ⟨fun hn => (by cases hn), ?_⟩
    rintro ⟨⟨hq, hqp⟩, hqk⟩
    rw [hfree q hqp] at hqk
    exact absurd (h.keyAt_inj hq hp (hqk.trans hkey.symm)) hqp
  · rw [AList.lookup_erase_ne hk, h.index]
    constructor
    · rintro ⟨hq, hqk⟩
      have hqp : q ≠ p := by
        rintro rfl
        exact hk (Option.some.inj (hqk.symm.trans hkey))
      exact ⟨⟨hq, hqp⟩, by rw [hfree q hqp]; exact hqk⟩
    · rintro ⟨⟨hq, hqp⟩, hqk⟩
      exact ⟨hq, by rw [← hfree q hqp]; exact hqk⟩

/-- **An order is dropped**, from its level and from the index. -/
theorem Rep.drop {b : OrderBook} {d : Depth} (h : Rep b d) {p : Ptr} {o : Order}
    (hp : p ∈ b.linked) (ho : b.heap.cells p = some o) :
    Rep (b.drop p o) (d.cancel o.key) ∧ (b.drop p o).heap = b.heap.free p ∧
      ∀ q, q ∈ (b.drop p o).linked ↔ q ∈ b.linked ∧ q ≠ p := by
  obtain ⟨pre, post, oa, ob, hd, es, fs, l, pa, pb, hsplit, hes, hl, hfs, hq, hoa, hob⟩ :=
    h.locate hp ho
  have hkey : keyAt b.heap p = some o.key := by rw [keyAt, ho]; rfl
  obtain ⟨hheap, hindex, hmodify, hother⟩ := drop_eq ((h.index _ _).mpr ⟨hp, hkey⟩)
  rw [cancel_of_split h.nodup_keys hd]
  generalize o.side.book = s at *
  have hnd := nodup_queue (h.nodup_linkedOn _) hsplit
  obtain ⟨hqueue, hlev⟩ := hl.unlink hq hnd hoa hob
  have hentries : ((b.drop p o).levels s).entries = es ++ (o.price, l.unlink p o) :: fs := by
    rw [hmodify]
    exact OrderedMap.modify_of_split hsplit
  have hon : b.linkedOn s = es.flatMap (fun e => e.2.queue) ++ pa ++
      p :: (pb ++ fs.flatMap fun e => e.2.queue) := by
    rw [linkedOn_of_split hsplit, hq, List.append_assoc, List.append_assoc, List.cons_append]
  have hps : p ∈ b.linkedOn s := by
    rw [hon]
    exact List.mem_append_right _ (List.mem_cons_self ..)
  have hlinked : ∀ t, (b.drop p o).linkedOn t = (b.linkedOn t).erase p := by
    intro t
    rcases s.eq_or_ne_of t with rfl | ht
    · -- the address is in its own place and in no other
      have hfirst : p ∉ es.flatMap (fun e => e.2.queue) ++ pa := by
        have hnds := h.nodup_linkedOn t
        rw [hon] at hnds
        exact fun hmem => (List.nodup_append.mp hnds).2.2 p hmem p (List.mem_cons_self ..) rfl
      rw [linkedOn_of_split hentries, hon, hqueue, List.erase_append_right _ hfirst,
        List.erase_cons_head, List.append_assoc, List.append_assoc]
    · rw [OrderBook.linkedOn, hother t ht, ← OrderBook.linkedOn,
        List.erase_of_not_mem (h.disjoint_linkedOn ht hps)]
  have hmem : ∀ q, q ∈ (b.drop p o).linked ↔ q ∈ b.linked ∧ q ≠ p := by
    intro q
    simp only [mem_linked, hlinked, (h.nodup_linkedOn _).mem_erase_iff]
    constructor
    · rintro ⟨t, hqp, ht⟩
      exact ⟨⟨t, ht⟩, hqp⟩
    · rintro ⟨⟨t, ht⟩, hqp⟩
      exact ⟨t, hqp, ht⟩
  refine ⟨h.setLevel hd hsplit hes hfs hentries hother (fun q hql => ?_) ?_ (fun o' ho' => ?_) ?_
    fun k q => ?_, hheap, hmem⟩
  · rw [hheap]
    refine Heap.free_of_ne _ ?_
    rintro rfl
    exact hql (hq ▸ List.mem_append_right _ (List.mem_cons_self ..))
  · rw [hheap]
    exact hlev
  · refine (h.placed_of_split hd).2 o' ?_
    rcases List.mem_append.mp ho' with ho' | ho'
    · exact List.mem_append_left _ ho'
    · exact List.mem_append_right _ (List.mem_cons_of_mem _ ho')
  · rw [OrderBook.linked, hlinked, hlinked]
    exact h.nodup.sublist (List.Sublist.append List.erase_sublist List.erase_sublist)
  · rw [hindex, hmem, hheap]
    exact h.index_erase hp hkey k q

/-! ## Resting an order -/

section Rest

variable {b : OrderBook} {d : Depth} {o : Order}

/-- The levels of a ladder an order rests on, as values. -/
theorem mem_restLadder {s : BookSide} {l : Ladder} {a : Price × List Order}
    (h : a ∈ restLadder s o l) :
    a ∈ l ∨ a.1 = o.price ∧ ∃ os, a.2 = os ++ [o] ∧ (os = [] ∨ (o.price, os) ∈ l) := by
  induction l with
  | nil =>
    simp only [restLadder, OrderedMap.upsertList, List.mem_singleton] at h
    subst h
    exact Or.inr ⟨rfl, [], rfl, Or.inl rfl⟩
  | cons c l ih =>
    rw [restLadder, OrderedMap.upsertList] at h
    split at h
    · rename_i hc
      rcases List.mem_cons.mp h with rfl | h
      · refine Or.inr ⟨hc, c.2, rfl, Or.inr ?_⟩
        rw [← hc]
        exact List.mem_cons_self ..
      · exact Or.inl (List.mem_cons_of_mem _ h)
    · split at h
      · rcases List.mem_cons.mp h with rfl | h
        · exact Or.inr ⟨rfl, [], rfl, Or.inl rfl⟩
        · exact Or.inl h
      · rcases List.mem_cons.mp h with rfl | h
        · exact Or.inl (List.mem_cons_self ..)
        · rcases ih h with h | ⟨h1, os, h2, h3⟩
          · exact Or.inl (List.mem_cons_of_mem _ h)
          · exact Or.inr ⟨h1, os, h2, h3.imp id (List.mem_cons_of_mem _)⟩

/-- The book once an order rests, its key being free. -/
theorem rest_eq (hk : b.index.lookup o.key = none) :
    (b.rest o).heap = b.heap.alloc o ∧
      (b.rest o).index = b.index.insert o.key b.heap.next ∧
      (b.rest o).levels o.side.book = (b.levels o.side.book).upsert o.price PriceLevel.new
        (·.pushBack b.heap.next o) ∧
      ∀ t ≠ o.side.book, (b.rest o).levels t = b.levels t := by
  have hbook : b.rest o =
      { b.setLevels o.side.book ((b.levels o.side.book).upsert o.price PriceLevel.new
          (·.pushBack b.heap.next o)) with
        heap := b.heap.alloc o, index := b.index.insert o.key b.heap.next } := by
    rw [OrderBook.rest, OrderBook.emplace]
    simp only [index_setLevels, hk]
    cases o.side.book <;> rfl
  have hlevels : ∀ t, (b.rest o).levels t = (b.setLevels o.side.book
      ((b.levels o.side.book).upsert o.price PriceLevel.new
        (·.pushBack b.heap.next o))).levels t := by
    intro t
    rw [hbook]
    cases t <;> rfl
  refine ⟨by rw [hbook], by rw [hbook], ?_, fun t ht => ?_⟩
  · rw [hlevels, levels_setLevels]
  · rw [hlevels, levels_setLevels_of_ne ht]

/-- The new address is linked, besides those that were. -/
theorem linked_rest_perm (hk : b.index.lookup o.key = none) :
    (b.rest o).linked.Perm (b.heap.next :: b.linked) := by
  obtain ⟨-, -, hlevels, hother⟩ := rest_eq hk
  have hon : ((b.rest o).linkedOn o.side.book).Perm
      (b.heap.next :: b.linkedOn o.side.book) := by
    rw [OrderBook.linkedOn, hlevels]
    exact OrderedMap.flatMap_upsertList_perm rfl
      (fun l => List.perm_append_singleton b.heap.next l.queue) _
  have hoff : ∀ t ≠ o.side.book, (b.rest o).linkedOn t = b.linkedOn t := by
    intro t ht
    rw [OrderBook.linkedOn, hother t ht, OrderBook.linkedOn]
  rw [OrderBook.linked, OrderBook.linked]
  rcases hside : o.side.book with _ | _
  · rw [hside] at hon hoff
    rw [hoff .ask (by decide)]
    exact hon.append_right _
  · rw [hside] at hon hoff
    rw [hoff .bid (by decide)]
    exact (hon.append_left _).trans List.perm_middle

/-- The index with one key more owns the linked orders and its own. -/
theorem Rep.index_insert (h : Rep b d) (hk : b.index.lookup o.key = none) (k : IndexKey) (q : Ptr) :
    (b.index.insert o.key b.heap.next).lookup k = some q ↔
      (q = b.heap.next ∨ q ∈ b.linked) ∧ keyAt (b.heap.alloc o) q = some k := by
  have hnew : keyAt (b.heap.alloc o) b.heap.next = some o.key := by
    rw [keyAt, Heap.alloc_self]
    rfl
  have hold : ∀ q ∈ b.linked, keyAt (b.heap.alloc o) q = keyAt b.heap q := by
    intro q hq
    obtain ⟨o', -, ho'⟩ := h.exists_of_linked hq
    rw [keyAt, keyAt, Heap.alloc_of_ne _ (b.heap.ne_next ho')]
  -- No linked order has the new key, so the entry inserted hides none.
  by_cases hko : k = o.key
  · subst hko
    rw [AList.lookup_insert]
    constructor
    · intro hq
      obtain rfl := Option.some.inj hq
      exact ⟨Or.inl rfl, hnew⟩
    · rintro ⟨rfl | hq, hqk⟩
      · rfl
      · rw [hold q hq] at hqk
        have := (h.index _ _).mpr ⟨hq, hqk⟩
        rw [hk] at this
        cases this
  · rw [AList.lookup_insert_ne hko, h.index]
    constructor
    · rintro ⟨hq, hqk⟩
      exact ⟨Or.inr hq, by rw [hold q hq]; exact hqk⟩
    · rintro ⟨rfl | hq, hqk⟩
      · rw [hnew] at hqk
        exact absurd (Option.some.inj hqk).symm hko
      · rw [hold q hq] at hqk
        exact ⟨hq, hqk⟩

/-- An order pushed to the back of a level. -/
theorem LevelRep.pushBack {h : Heap Order} {l : PriceLevel} {os : List Order} {p : Ptr}
    (hl : LevelRep h l os) (hp : h.cells p = some o) :
    LevelRep h (l.pushBack p o) (os ++ [o]) where
  queue := by
    simp only [PriceLevel.pushBack, List.map_append, List.map_cons, List.map_nil, hl.queue, hp]
  count := by simp [PriceLevel.pushBack, hl.count]
  total := by simp [PriceLevel.pushBack, hl.total]

theorem LevelRep.new (h : Heap Order) : LevelRep h PriceLevel.new [] := ⟨rfl, rfl, rfl⟩

/-- The orders of the ladder an order rests on belong there. -/
theorem placed_restLadder {l : Ladder}
    (h : ∀ a ∈ l, ∀ r ∈ a.2, r.price = a.1 ∧ r.side.book = o.side.book) :
    ∀ a ∈ restLadder o.side.book o l, ∀ r ∈ a.2, r.price = a.1 ∧ r.side.book = o.side.book := by
  intro a ha r hr
  rcases mem_restLadder ha with ha | ⟨hpx, os, hos, hold⟩
  · exact h a ha r hr
  rw [hos, List.mem_append, List.mem_singleton] at hr
  rcases hr with hr | rfl
  · rcases hold with rfl | hold
    · cases hr
    · rw [hpx]
      exact h _ hold r hr
  · exact ⟨hpx.symm, rfl⟩

/-- **An order rests**, its key being free. -/
theorem Rep.rest (h : Rep b d) (hk : b.index.lookup o.key = none) :
    Rep (b.rest o) (d.setLadder o.side.book
      (restLadder o.side.book o (d.ladder o.side.book))) := by
  obtain ⟨hheap, hindex, hlevels, hother⟩ := rest_eq hk
  have hperm := linked_rest_perm hk
  -- the new address is linked nowhere
  have hnew : ∀ q ∈ b.linked, q ≠ b.heap.next := by
    intro q hq
    obtain ⟨o', -, ho'⟩ := h.exists_of_linked hq
    exact b.heap.ne_next ho'
  have hcells : ∀ t, ∀ q ∈ b.linkedOn t, (b.rest o).heap.cells q = b.heap.cells q := by
    intro t q hq
    rw [hheap]
    exact Heap.alloc_of_ne _ (hnew q (mem_linked.mpr ⟨t, hq⟩))
  have hcell : (b.rest o).heap.cells b.heap.next = some o := by rw [hheap, Heap.alloc_self]
  refine h.setLadder hother (fun t _ => hcells t) ?_ (placed_restLadder (h.placed _)) ?_
    fun k q => ?_
  · rw [hlevels]
    exact OrderedMap.forall₂_upsertList (forall₂_congr (h.levels _) (hcells _))
      ((LevelRep.new _).pushBack hcell) fun l os _ hl => hl.pushBack hcell
  · rw [hperm.nodup_iff, List.nodup_cons]
    exact ⟨fun hq => hnew _ hq rfl, h.nodup⟩
  · rw [hindex, hperm.mem_iff, List.mem_cons, hheap]
    exact h.index_insert hk k q

end Rest

end Core

end OrderbookFix
