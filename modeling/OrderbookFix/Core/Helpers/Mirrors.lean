import OrderbookFix.Common.Refines
import OrderbookFix.Core.Helpers.Chains
import OrderbookFix.Core.Helpers.Tidy
/-!
# The book over nodes against the book over queues

`Mirrors` ties the two: the same orders at the same addresses, the same
index, the same prices, and levels whose links show the queues. The
operations that touch one level or one node are done here on both sides at
once. The book over nodes may stop at a dead neighbour that the book over
queues does not look at; it is excused for that where `D` holds, and
where `D` fails there is no dead node in a queue.
-/

namespace OrderbookFix

namespace Core

namespace Linked

section Ladders

variable {b : OrderBook} {s t : BookSide}

@[simp] theorem levels_setLevels {m : LevelMap s} : (b.setLevels s m).levels s = m := by
  cases s <;> rfl

theorem levels_setLevels_of_ne {m : LevelMap s} (h : t ≠ s) :
    (b.setLevels s m).levels t = b.levels t := by
  cases s <;> cases t <;> first | rfl | exact absurd rfl h

@[simp] theorem heap_setLevels {m : LevelMap s} : (b.setLevels s m).heap = b.heap := by
  cases s <;> rfl

@[simp] theorem index_setLevels {m : LevelMap s} : (b.setLevels s m).index = b.index := by
  cases s <;> rfl

theorem levels_emplace (k : IndexKey) (p : Ptr) : (b.emplace k p).levels t = b.levels t := by
  rw [OrderBook.emplace]
  split <;> cases t <;> rfl

theorem heap_emplace {k : IndexKey} {p : Ptr} :
    (b.emplace k p).heap = if b.index.lookup k = none then b.heap else b.heap.free p := by
  rw [OrderBook.emplace]
  cases b.index.lookup k <;> simp

theorem index_emplace {k : IndexKey} {p : Ptr} :
    (b.emplace k p).index = if b.index.lookup k = none then b.index.insert k p else b.index := by
  rw [OrderBook.emplace]
  cases b.index.lookup k <;> simp

/-- Where a level is replaced, the others are as they were. -/
theorem find?_setLevels {b₀ : OrderBook} (hb : ∀ t, b₀.levels t = b.levels t) {m : LevelMap s}
    {px : Price} {l : PriceLevel}
    (hm : ∀ py, m.find? py = if py = px then some l else (b.levels s).find? py) (t : BookSide)
    (py : Price) :
    ((b₀.setLevels s m).levels t).find? py =
      if t = s ∧ py = px then some l else (b.levels t).find? py := by
  by_cases ht : t = s
  · subst ht
    rw [levels_setLevels, hm]
    simp
  · rw [levels_setLevels_of_ne ht, if_neg fun h => ht h.1, hb]

end Ladders

/-- **The book over nodes mirrors the book over queues.** -/
structure Mirrors (D : Prop) (nb : OrderBook) (b : Core.OrderBook) : Prop where
  orders : orders nb.heap = b.heap
  index : nb.index = b.index
  keys : ∀ s, (nb.levels s).entries.map Prod.fst = (b.levels s).entries.map Prod.fst
  shown : ∀ s px, Option.Rel (Shown nb.heap) ((nb.levels s).find? px) ((b.levels s).find? px)
  tidy : Tidy D b

/-- The same result, but for a dead node met. -/
abbrev Agrees {α β : Type*} (D : Prop) (R : α → β → Prop) :
    Except Halt α → Except Fault β → Prop :=
  Refines (fun e => e = .fault .danglingRead ∧ D) Halt.fault R

namespace Mirrors

variable {D : Prop} {nb : OrderBook} {b : Core.OrderBook} {s : BookSide} {px : Price} {p : Ptr}
variable {o : Order} {pl : Core.PriceLevel}

theorem new : Mirrors D OrderBook.new Core.OrderBook.new where
  orders := rfl
  index := rfl
  keys s := by cases s <;> rfl
  shown s px := by cases s <;> exact .none
  tidy := .new

theorem next_eq (h : Mirrors D nb b) : nb.heap.next = b.heap.next := congrArg Heap.next h.orders

theorem live_iff (h : Mirrors D nb b) : Live nb.heap p ↔ ∃ o, b.heap.cells p = some o := by
  rw [Live, h.orders]

/-- A level of the one is a level of the other. -/
theorem find? (h : Mirrors D nb b) (hpl : (b.levels s).find? px = some pl) :
    ∃ l, (nb.levels s).find? px = some l ∧ Shown nb.heap l pl := by
  have hshown := h.shown s px
  rw [hpl] at hshown
  cases hl : (nb.levels s).find? px with
  | none =>
    rw [hl] at hshown
    cases hshown
  | some l =>
    rw [hl] at hshown
    cases hshown with
    | some hs => exact ⟨l, rfl, hs⟩

theorem find?_none (h : Mirrors D nb b) (hpl : (b.levels s).find? px = none) :
    (nb.levels s).find? px = none := by
  have hshown := h.shown s px
  rw [hpl] at hshown
  cases hl : (nb.levels s).find? px with
  | none => rfl
  | some l =>
    rw [hl] at hshown
    cases hshown

/-- A dead node in a queue is what `D` is about. -/
theorem excuse (h : Mirrors D nb b) (hp : p ∈ b.nodesAt s px) (hdead : ¬ Live nb.heap p) : D := by
  rcases h.tidy.live with hD | hl
  · exact hD
  · exact absurd (h.live_iff.mpr (hl s px p hp)) hdead

/-- `*p` on both sides. -/
theorem deref_eq (h : Mirrors D nb b) (ho : b.heap.cells p = some o) :
    deref nb.heap p = .ok ⟨o, linkAt nb.heap .prev p, linkAt nb.heap .next p⟩ :=
  deref_of_orders (by rw [h.orders, ho])

/-- **Levels the change of one node and one queue does not reach.** -/
theorem shown_elsewhere (h : Mirrors D nb b) {h' : Heap Node}
    (hlive : ∀ q, q ≠ p → Live h' q → Live nb.heap q)
    (hlink : ∀ q k, q ≠ p → q ∉ b.nodesAt s px → linkAt h' k q = linkAt nb.heap k q)
    {t : BookSide} {py : Price} (hne : ¬ (t = s ∧ py = px)) (hp : p ∉ b.nodesAt t py) :
    Option.Rel (Shown h') ((nb.levels t).find? py) ((b.levels t).find? py) := by
  rcases hpl : (b.levels t).find? py with _ | pl
  · rw [h.find?_none hpl]
    exact .none
  obtain ⟨l, hl, hs⟩ := h.find? hpl
  rw [hl]
  refine .some (hs.congr fun q hq hlq => ?_)
  rw [← nodesAt_of_find? hpl] at hq
  have hqp : q ≠ p := fun he => hp (he ▸ hq)
  have hlq := hlive q hqp hlq
  refine ⟨hlq, fun k => hlink q k hqp fun hqs => hne ?_⟩
  -- a live node is in the queue it names and in no other
  obtain ⟨r, hr⟩ := h.live_iff.mp hlq
  obtain ⟨rfl, rfl⟩ := h.tidy.placed t py q hq r hr
  exact h.tidy.placed s px q hqs r hr

/-! ## Writing -/

theorem orders_take {h : Heap Node} {q : Quantity} (ho : (Linked.orders h).cells p = some o) :
    Linked.orders (take h p q) =
      (Linked.orders h).write p { o with leavesQty := o.leavesQty - q } := by
  refine Heap.ext ?_ rfl
  funext r
  by_cases hr : r = p
  · subst hr
    obtain ⟨n, hn, rfl⟩ := Option.map_eq_some_iff.mp ho
    rw [Heap.write_self _ ho]
    change ((take h r q).cells r).map Node.order = _
    rw [take, Heap.modify_self h hn]
    rfl
  · rw [Heap.write_of_ne _ hr]
    change ((take h p q).cells r).map Node.order = (h.cells r).map Node.order
    rw [take, Heap.modify_of_ne h hr]

theorem linkAt_take {h : Heap Node} {q : Quantity} (k : Link) (r : Ptr) :
    linkAt (take h p q) k r = linkAt h k r := by
  rw [linkAt, linkAt]
  by_cases hr : r = p
  · subst hr
    rcases hn : h.cells r with _ | n
    · simp [take, Heap.modify, hn]
    · rw [take, Heap.modify_self h hn]
      cases k <;> rfl
  · rw [take, Heap.modify_of_ne h hr]

/-- **The leaves of a node are written.** -/
theorem fill (h : Mirrors D nb b) (ho : b.heap.cells p = some o) (q : Quantity) :
    Mirrors D { nb with heap := take nb.heap p q }
      { b with heap := b.heap.write p { o with leavesQty := o.leavesQty - q } } := by
  have horders := @orders_take p o nb.heap q (by rw [h.orders, ho])
  rw [h.orders] at horders
  have hlive : ∀ r, Live (take nb.heap p q) r → Live nb.heap r := by
    rintro r ⟨o', ho'⟩
    rw [horders] at ho'
    by_cases hr : r = p
    · exact ⟨o, by rw [h.orders, hr, ho]⟩
    · rw [Heap.write_of_ne _ hr] at ho'
      exact ⟨o', by rw [h.orders, ho']⟩
  have hlevels : ∀ t, ({ nb with heap := take nb.heap p q } : OrderBook).levels t = nb.levels t :=
    fun t => by cases t <;> rfl
  have hlevels' : ∀ t, ({ b with
      heap := b.heap.write p { o with leavesQty := o.leavesQty - q } } : Core.OrderBook).levels t =
        b.levels t := fun t => by cases t <;> rfl
  refine ⟨horders, h.index, fun t => by rw [hlevels, hlevels']; exact h.keys t, fun t py => ?_, ?_⟩
  · rw [hlevels, hlevels']
    rcases hpl : (b.levels t).find? py with _ | pl
    · rw [h.find?_none hpl]
      exact .none
    obtain ⟨l, hl, hs⟩ := h.find? hpl
    rw [hl]
    exact .some (hs.congr fun r _ hr => ⟨hlive r hr, fun k => linkAt_take k r⟩)
  · refine h.tidy.of_terms (fun t py => ?_) rfl rfl fun r => ?_
    · rw [Core.OrderBook.nodesAt, hlevels', Core.OrderBook.nodesAt]
    · by_cases hr : r = p
      · subst hr
        rw [Heap.write_self _ ho, ho]
        rfl
      · rw [Heap.write_of_ne _ hr]

/-- **The figures of a level are written.** -/
theorem setTotal (h : Mirrors D nb b) {l : PriceLevel} (hl : (nb.levels s).find? px = some l)
    (hpl : (b.levels s).find? px = some pl) (x : Quantity) :
    Mirrors D (nb.setLevels s ((nb.levels s).modify px fun _ => { l with totalQty := x }))
      (b.modifyLevel s px fun _ => { pl with totalQty := x }) := by
  refine ⟨by rw [heap_setLevels, Core.OrderBook.modifyLevel, Core.heap_setLevels, h.orders],
    by rw [index_setLevels, Core.OrderBook.modifyLevel, Core.index_setLevels, h.index],
    fun t => ?_, fun t py => ?_, ?_⟩
  · by_cases ht : t = s
    · subst ht
      rw [levels_setLevels, Core.OrderBook.modifyLevel, Core.levels_setLevels,
        OrderedMap.keys_modify, OrderedMap.keys_modify, h.keys]
    · rw [levels_setLevels_of_ne ht, Core.OrderBook.modifyLevel, Core.levels_setLevels_of_ne ht,
        h.keys]
  · rw [heap_setLevels]
    have hs : Shown nb.heap l pl := by
      obtain ⟨l', hl', hs⟩ := h.find? hpl
      rwa [Option.some.inj (hl.symm.trans hl')]
    by_cases ht : t = s
    · subst ht
      rw [levels_setLevels, Core.OrderBook.modifyLevel, Core.levels_setLevels,
        OrderedMap.find?_modify, OrderedMap.find?_modify]
      split
      · rw [hl, hpl]
        exact .some ⟨hs.forward, hs.backward, hs.count, rfl⟩
      · exact h.shown t py
    · rw [levels_setLevels_of_ne ht, Core.OrderBook.modifyLevel, Core.levels_setLevels_of_ne ht]
      exact h.shown t py
  · exact h.tidy.of_terms (fun t py => nodesAt_modify hpl rfl)
      (by rw [Core.OrderBook.modifyLevel, Core.index_setLevels])
      (by rw [Core.OrderBook.modifyLevel, Core.heap_setLevels])
      fun p => by rw [Core.OrderBook.modifyLevel, Core.heap_setLevels]

/-- **An empty level is erased.** -/
theorem erase (h : Mirrors D nb b) (hpl : (b.levels s).find? px = some pl)
    (hempty : pl.empty = true) :
    Mirrors D (nb.setLevels s ((nb.levels s).erase px)) (b.setLevels s ((b.levels s).erase px)) := by
  refine ⟨by rw [heap_setLevels, Core.heap_setLevels, h.orders],
    by rw [index_setLevels, Core.index_setLevels, h.index], fun t => ?_, fun t py => ?_, ?_⟩
  · by_cases ht : t = s
    · subst ht
      rw [levels_setLevels, Core.levels_setLevels, OrderedMap.keys_erase, OrderedMap.keys_erase,
        h.keys]
    · rw [levels_setLevels_of_ne ht, Core.levels_setLevels_of_ne ht, h.keys]
  · rw [heap_setLevels]
    by_cases ht : t = s
    · subst ht
      rw [levels_setLevels, Core.levels_setLevels, OrderedMap.find?_erase, OrderedMap.find?_erase]
      split
      · exact .none
      · exact h.shown t py
    · rw [levels_setLevels_of_ne ht, Core.levels_setLevels_of_ne ht]
      exact h.shown t py
  · exact h.tidy.of_terms (fun t py => nodesAt_erase hpl hempty) Core.index_setLevels
      (by rw [Core.heap_setLevels]) fun p => by rw [Core.heap_setLevels]

/-! ## Dropping and resting -/

/-- **One level is replaced**, with changes to one node and one queue. -/
theorem relevel (h : Mirrors D nb b) (p : Ptr) {nb' : OrderBook} {b' : Core.OrderBook}
    {l' : PriceLevel} {pl' : Core.PriceLevel} (horders : Linked.orders nb'.heap = b'.heap)
    (hindex : nb'.index = b'.index)
    (hkeys : ∀ t, (nb'.levels t).entries.map Prod.fst = (b'.levels t).entries.map Prod.fst)
    (hfind : ∀ t py, (nb'.levels t).find? py =
      if t = s ∧ py = px then some l' else (nb.levels t).find? py)
    (hfind' : ∀ t py, (b'.levels t).find? py =
      if t = s ∧ py = px then some pl' else (b.levels t).find? py)
    (hs : Shown nb'.heap l' pl') (hlive : ∀ q, q ≠ p → Live nb'.heap q → Live nb.heap q)
    (hlink : ∀ q k, q ≠ p → q ∉ b.nodesAt s px → linkAt nb'.heap k q = linkAt nb.heap k q)
    (hp : ∀ t py, ¬ (t = s ∧ py = px) → p ∉ b.nodesAt t py) (htidy : Tidy D b') :
    Mirrors D nb' b' := by
  refine ⟨horders, hindex, hkeys, fun t py => ?_, htidy⟩
  rw [hfind, hfind']
  by_cases hat : t = s ∧ py = px
  · rw [if_pos hat, if_pos hat]
    exact .some hs
  · rw [if_neg hat, if_neg hat]
    exact h.shown_elsewhere hlive hlink hat (hp t py hat)

theorem linkAt_free {h : Heap Node} (k : Link) {q : Ptr} (hq : q ≠ p) :
    linkAt (h.free p) k q = linkAt h k q := by
  rw [linkAt, Heap.free_of_ne h hq, linkAt]

theorem live_of_free {h : Heap Node} {q : Ptr} (hq : Live (h.free p) q) : q ≠ p ∧ Live h q := by
  obtain ⟨o, ho⟩ := hq
  rw [Linked.orders, Heap.map_free] at ho
  by_cases he : q = p
  · rw [he, Heap.free_self] at ho
    cases ho
  · rw [Heap.free_of_ne _ he] at ho
    exact ⟨he, o, ho⟩

/-- **An order is unlinked and freed.** -/
theorem drop (h : Mirrors D nb b) (ho : b.heap.cells p = some o) :
    Agrees D (Mirrors D) (nb.unlinkAt p o >>= fun nb' => .ok (nb'.eraseKey o.key))
      (.ok (b.drop p o)) := by
  have hlk := h.tidy.indexed p o ho
  have hmem := h.tidy.linked p o ho
  rcases hpl : (b.levels o.side.book).find? o.price with _ | pl
  · rw [Core.OrderBook.nodesAt, hpl] at hmem
    cases hmem
  have hnodes := nodesAt_of_find? hpl
  have hnd := h.tidy.nodup o.side.book o.price
  rw [hnodes] at hmem hnd
  obtain ⟨l, hl, hs⟩ := h.find? hpl
  rw [OrderBook.unlinkAt]
  simp only [hl]
  rcases hs.unlink hnd hmem (by rw [h.orders, ho]) with
    ⟨⟨t, ht, hdead⟩, herr⟩ | ⟨h', l', hok, hsame, hs', hfar⟩
  · rw [herr]
    exact .excuse ⟨rfl, h.excuse (hnodes ▸ ht) hdead⟩ _
  rw [hok]
  refine .ok ?_
  have herase : (({ nb with heap := h' } : OrderBook).setLevels o.side.book
      ((nb.levels o.side.book).modify o.price fun _ => l')).eraseKey o.key =
      ({ nb with heap := h'.free p, index := nb.index.erase o.key } : OrderBook).setLevels
        o.side.book ((nb.levels o.side.book).modify o.price fun _ => l') := by
    have hidx : nb.index.lookup o.key = some p := by rw [h.index, hlk]
    cases o.side.book <;> simp only [OrderBook.eraseKey, OrderBook.setLevels, hidx]
  change Mirrors D (OrderBook.eraseKey _ _) _
  rw [herase]
  obtain ⟨hheap, hindex, hown, hother⟩ := drop_eq hlk
  have hfind : ∀ t py, ((({ nb with heap := h'.free p, index := nb.index.erase o.key } :
      OrderBook).setLevels o.side.book
        ((nb.levels o.side.book).modify o.price fun _ => l')).levels t).find? py =
      if t = o.side.book ∧ py = o.price then some l' else (nb.levels t).find? py := by
    refine find?_setLevels (fun t => by cases t <;> rfl) fun py => ?_
    rw [OrderedMap.find?_modify, hl]
    rfl
  have hfind' : ∀ t py, ((b.drop p o).levels t).find? py =
      if t = o.side.book ∧ py = o.price then some (pl.unlink p o)
      else (b.levels t).find? py := fun t py => by
    rw [find?_levels_drop hlk]
    split
    · rename_i hat
      rw [hat.1, hat.2, hpl]
      rfl
    · rfl
  refine h.relevel p ?_ ?_ (fun t => ?_) hfind hfind' ?_
    (fun q hq hlive => ?_) (fun q k hq hqm => ?_) (fun t py hne hp => hne ?_) (h.tidy.drop ho)
  · rw [heap_setLevels, hheap, Linked.orders, Heap.map_free]
    exact congrArg (Heap.free · p) (hsame.trans h.orders)
  · rw [index_setLevels, hindex, ← h.index]
  · by_cases ht : t = o.side.book
    · subst ht
      rw [levels_setLevels, hown, OrderedMap.keys_modify, OrderedMap.keys_modify, h.keys]
    · rw [levels_setLevels_of_ne ht, hother t ht, ← h.keys]
      cases t <;> rfl
  · rw [heap_setLevels]
    refine hs'.congr fun q hq hlive => ?_
    obtain ⟨hqp, hlive⟩ := live_of_free hlive
    exact ⟨hlive, fun k => linkAt_free k hqp⟩
  · rw [heap_setLevels] at hlive
    obtain ⟨r, hr⟩ := (live_of_free hlive).2
    exact ⟨r, hsame ▸ hr⟩
  · rw [heap_setLevels, linkAt_free k hq]
    exact hfar q k (hnodes ▸ hqm)
  · obtain ⟨rfl, rfl⟩ := h.tidy.placed t py p hp o ho
    exact ⟨rfl, rfl⟩

theorem linkAt_alloc {h : Heap Node} {n : Node} {q : Ptr} (k : Link) (hq : q ≠ h.next) :
    linkAt (h.alloc n) k q = linkAt h k q := by
  rw [linkAt, Heap.alloc_of_ne h hq, linkAt]

theorem live_alloc {h : Heap Node} {n : Node} {q : Ptr} (hq : q ≠ h.next) :
    Live (h.alloc n) q ↔ Live h q := by
  rw [Live, Linked.orders, Heap.map_alloc, Heap.alloc_of_ne (h.map Node.order) hq]
  rfl

/-- The level an order is to be pushed to, with the node there but not
linked. -/
theorem shown_alloc (h : Mirrors D nb b) :
    Shown (nb.heap.alloc { order := o }) (((nb.levels s).find? px).getD {})
      (((b.levels s).find? px).getD Core.PriceLevel.new) := by
  rcases hpl : (b.levels s).find? px with _ | pl
  · rw [h.find?_none hpl]
    exact .new
  · obtain ⟨l, hl, hs⟩ := h.find? hpl
    rw [hl]
    refine hs.congr fun q hq hlive => ?_
    have hne : q ≠ nb.heap.next := by
      rw [h.next_eq]
      exact Nat.ne_of_lt (h.tidy.bounded s px q (nodesAt_of_find? hpl ▸ hq))
    exact ⟨(live_alloc hne).mp hlive, fun k => linkAt_alloc k hne⟩

/-- **An order is rested.** Where its key is taken, the node that was just
linked dies. -/
theorem rest (h : Mirrors D nb b) (hk : D ∨ b.index.lookup o.key = none) :
    Agrees D (Mirrors D) (nb.rest o) (.ok (b.rest o)) := by
  have hfresh : ∀ t py, b.heap.next ∉ b.nodesAt t py := fun t py hmem =>
    absurd (h.tidy.bounded t py _ hmem) (Nat.lt_irrefl _)
  have hnodes : (((b.levels o.side.book).find? o.price).getD Core.PriceLevel.new).queue =
      b.nodesAt o.side.book o.price := by
    rw [Core.OrderBook.nodesAt]
    cases (b.levels o.side.book).find? o.price <;> rfl
  have hs := @shown_alloc D nb b o.side.book o.price o h
  have halloc : Linked.orders (nb.heap.alloc { order := o }) = b.heap.alloc o := by
    rw [Linked.orders, Heap.map_alloc]
    exact congrArg (Heap.alloc · o) h.orders
  rw [OrderBook.rest, h.next_eq]
  rcases hs.pushBack (hnodes ▸ h.tidy.nodup _ _) (hnodes ▸ hfresh _ _)
    (by rw [halloc]; exact Heap.alloc_self _) with
    ⟨⟨t, ht, hdead⟩, herr⟩ | ⟨h', l', hok, hsame, hs', hfar⟩
  · rw [herr]
    rw [hnodes] at ht
    refine .excuse ⟨rfl, h.excuse ht fun hlive => hdead ((live_alloc fun he => ?_).mpr hlive)⟩ _
    exact hfresh o.side.book o.price (h.next_eq ▸ he ▸ ht)
  rw [hok]
  refine .ok ?_
  -- the book with the level replaced, then its key
  obtain ⟨nb₁, hnb₁⟩ : ∃ nb₁, nb₁ = ({ nb with heap := h' } : OrderBook).setLevels o.side.book
    ((nb.levels o.side.book).upsert o.price {} fun _ => l') := ⟨_, rfl⟩
  have hidx : nb₁.index = b.index := by rw [hnb₁, index_setLevels, ← h.index]
  have hheap : (nb₁.emplace o.key b.heap.next).heap =
      if b.index.lookup o.key = none then h' else h'.free b.heap.next := by
    rw [heap_emplace, hidx, hnb₁, heap_setLevels]
  have hlink : ∀ q, q ≠ b.heap.next → ∀ k,
      linkAt (nb₁.emplace o.key b.heap.next).heap k q = linkAt h' k q := by
    intro q hq k
    rw [hheap]
    split
    · rfl
    · exact linkAt_free k hq
  have hlive : ∀ q, Live (nb₁.emplace o.key b.heap.next).heap q →
      Live h' q ∧ ∀ k, linkAt (nb₁.emplace o.key b.heap.next).heap k q = linkAt h' k q := by
    rw [hheap]
    split
    · exact fun q hq => ⟨hq, fun _ => rfl⟩
    · intro q hq
      obtain ⟨hne, hq⟩ := live_of_free hq
      exact ⟨hq, fun k => linkAt_free k hne⟩
  have hfind' : ∀ t py, ((b.rest o).levels t).find? py =
      if t = o.side.book ∧ py = o.price then
        some ((((b.levels o.side.book).find? o.price).getD
          Core.PriceLevel.new).pushBack b.heap.next o)
      else (b.levels t).find? py := fun t py => by
    rw [find?_levels_rest]
    split
    · rename_i hat
      rw [hat.1, hat.2]
    · rfl
  change Mirrors D (OrderBook.emplace (OrderBook.setLevels _ _ _) _ _) (b.rest o)
  rw [← hnb₁]
  refine h.relevel b.heap.next ?_ ?_ (fun t => ?_) (fun t py => ?_) hfind'
    (hs'.congr fun q _ => hlive q) (fun q hq hl => ?_) (fun q k hq hmem => ?_)
    (fun t py _ => hfresh t py) (h.tidy.rest hk)
  · rw [hheap, Tidy.heap_rest]
    split
    · exact hsame.trans halloc
    · rw [Linked.orders, Heap.map_free]
      exact congrArg (Heap.free · b.heap.next) (hsame.trans halloc)
  · rw [index_emplace, hidx, Tidy.index_rest]
  · rw [levels_emplace, hnb₁, Core.OrderBook.rest, Core.levels_emplace]
    by_cases ht : t = o.side.book
    · subst ht
      rw [levels_setLevels, Core.levels_setLevels]
      refine OrderedMap.keys_upsertList ((h.keys _).trans ?_)
      cases o.side.book <;> rfl
    · rw [levels_setLevels_of_ne ht, Core.levels_setLevels_of_ne ht]
      cases t
      · exact h.keys .bid
      · exact h.keys .ask
  · rw [levels_emplace, hnb₁]
    refine find?_setLevels (fun t => by cases t <;> rfl) (fun py => ?_) t py
    rw [OrderedMap.find?_upsert]
  · obtain ⟨r, hr⟩ := (hlive q hl).1
    exact (live_alloc (h.next_eq ▸ hq)).mp ⟨r, hsame ▸ hr⟩
  · rw [hlink q hq, hfar q k hq (hnodes ▸ hmem), linkAt_alloc k (h.next_eq ▸ hq)]

end Mirrors

end Linked

end Core

end OrderbookFix
