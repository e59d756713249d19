import OrderbookFix.Core.Helpers.Fill
/-!
# What the book represents

`Rep b d` ties the nodes of a book to its values: every level's queue of
addresses reads as the queue of orders, the cached figures are the ones
of that queue, every order sits on the ladder and at the price it names,
no address is linked twice, and the index owns exactly the linked orders,
each under its own key. Each operation of the book keeps it; this file
proves so for the steps that touch one level, one order or one key.
-/

namespace OrderbookFix

namespace Core

/-- A level represents a queue of orders. The total is the wrapped sum. -/
structure LevelRep (h : Heap Order) (l : PriceLevel) (os : List Order) : Prop where
  queue : l.queue.map h.cells = os.map some
  count : l.count = os.length
  total : l.totalQty = (os.map Order.leavesQty).sum

/-- The key of the order at an address. -/
def keyAt (h : Heap Order) (p : Ptr) : Option IndexKey := (h.cells p).map Order.key

/-- **A book represents its values.** -/
structure Rep (b : OrderBook) (d : Depth) : Prop where
  levels : ∀ s, List.Forall₂ (fun e a => e.1 = a.1 ∧ LevelRep b.heap e.2 a.2)
    (b.levels s).entries (d.ladder s)
  placed : ∀ s, ∀ a ∈ d.ladder s, ∀ o ∈ a.2, o.price = a.1 ∧ o.side.book = s
  nodup : b.linked.Nodup
  index : ∀ k p, b.index.lookup k = some p ↔ p ∈ b.linked ∧ keyAt b.heap p = some k

/-- **One ladder represents its values**, whatever the other one and the
index hold. -/
structure Shows (b : OrderBook) (s : BookSide) (l : Ladder) : Prop where
  levels : List.Forall₂ (fun e a => e.1 = a.1 ∧ LevelRep b.heap e.2 a.2) (b.levels s).entries l
  nodup : (b.linkedOn s).Nodup

/-! ## Ladders -/

section Ladders

variable {b : OrderBook} {d : Depth} {s t : BookSide}

@[simp] theorem ladder_setLadder {l : Ladder} : (d.setLadder s l).ladder s = l := by
  cases s <;> rfl

theorem ladder_setLadder_of_ne {l : Ladder} (h : t ≠ s) :
    (d.setLadder s l).ladder t = d.ladder t := by
  cases s <;> cases t <;> first | rfl | exact absurd rfl h

@[simp] theorem setLadder_ladder : d.setLadder s (d.ladder s) = d := by
  cases s <;> rfl

@[simp] theorem setLadder_setLadder {l l' : Ladder} :
    (d.setLadder s l).setLadder s l' = d.setLadder s l' := by
  cases s <;> rfl

@[simp] theorem levels_setLevels {m : LevelMap s} : (b.setLevels s m).levels s = m := by
  cases s <;> rfl

theorem levels_setLevels_of_ne {m : LevelMap s} (h : t ≠ s) :
    (b.setLevels s m).levels t = b.levels t := by
  cases s <;> cases t <;> first | rfl | exact absurd rfl h

@[simp] theorem heap_setLevels {m : LevelMap s} : (b.setLevels s m).heap = b.heap := by
  cases s <;> rfl

@[simp] theorem index_setLevels {m : LevelMap s} : (b.setLevels s m).index = b.index := by
  cases s <;> rfl

theorem mem_linked {p : Ptr} : p ∈ b.linked ↔ ∃ s, p ∈ b.linkedOn s := by
  rw [OrderBook.linked, List.mem_append]
  constructor
  · rintro (h | h)
    · exact ⟨.bid, h⟩
    · exact ⟨.ask, h⟩
  · rintro ⟨s, h⟩
    cases s
    · exact Or.inl h
    · exact Or.inr h

theorem mem_linkedOn {p : Ptr} : p ∈ b.linkedOn s ↔ ∃ e ∈ (b.levels s).entries, p ∈ e.2.queue := by
  rw [OrderBook.linkedOn, List.mem_flatMap]

theorem mem_orders {o : Order} : o ∈ d.orders ↔ ∃ s, o ∈ d.ordersOn s := by
  rw [Depth.orders, List.mem_append]
  constructor
  · rintro (h | h)
    · exact ⟨.bid, h⟩
    · exact ⟨.ask, h⟩
  · rintro ⟨s, h⟩
    cases s
    · exact Or.inl h
    · exact Or.inr h

theorem mem_ordersOn {o : Order} : o ∈ d.ordersOn s ↔ ∃ a ∈ d.ladder s, o ∈ a.2 := by
  rw [Depth.ordersOn, List.mem_flatMap]

end Ladders

/-! ## Reading a represented book -/

namespace LevelRep

variable {h h' : Heap Order} {l : PriceLevel} {os : List Order}

/-- A level reads the heap at its own addresses only. -/
theorem congr (hl : LevelRep h l os) (hh : ∀ p ∈ l.queue, h'.cells p = h.cells p) :
    LevelRep h' l os where
  queue := by rw [← hl.queue]; exact List.map_congr_left hh
  count := hl.count
  total := hl.total

/-- A level is empty when its queue is. -/
theorem empty_iff (hl : LevelRep h l os) : l.empty = true ↔ os = [] := by
  have hlen : l.queue.length = os.length := by simpa using congrArg List.length hl.queue
  rw [PriceLevel.empty, List.isEmpty_iff, ← List.length_eq_zero_iff, hlen,
    List.length_eq_zero_iff]

end LevelRep

theorem flatMap_queue {h : Heap Order} {es : List (Price × PriceLevel)} {l : Ladder}
    (hl : List.Forall₂ (fun e a => e.1 = a.1 ∧ LevelRep h e.2 a.2) es l) :
    (es.flatMap fun e => e.2.queue).map h.cells = (l.flatMap Prod.snd).map some := by
  induction hl with
  | nil => rfl
  | cons hab _ ih =>
    simp only [List.flatMap_cons, List.map_append, ih, hab.2.queue]

/-- The entries of a ladder, at a split of its values. -/
theorem levels_split {h : Heap Order} {entries : List (Price × PriceLevel)} {pre post : Ladder}
    {px : Price} {os : List Order}
    (hl : List.Forall₂ (fun e a => e.1 = a.1 ∧ LevelRep h e.2 a.2) entries
      (pre ++ (px, os) :: post)) :
    ∃ (es fs : List (Price × PriceLevel)) (l : PriceLevel),
      entries = es ++ (px, l) :: fs ∧
      List.Forall₂ (fun e a => e.1 = a.1 ∧ LevelRep h e.2 a.2) es pre ∧ LevelRep h l os ∧
      List.Forall₂ (fun e a => e.1 = a.1 ∧ LevelRep h e.2 a.2) fs post := by
  have hes := List.forall₂_take_append _ _ _ hl
  have hgs := List.forall₂_drop_append _ _ _ hl
  rw [List.forall₂_cons_right_iff] at hgs
  obtain ⟨e, fs, ⟨hpx, hrep⟩, hfs, he⟩ := hgs
  refine ⟨_, fs, e.2, ?_, hes, hrep, hfs⟩
  replace hpx : e.1 = px := hpx
  rw [← hpx]
  change _ = _ ++ e :: fs
  rw [← he, List.take_append_drop]

namespace Rep

variable {b : OrderBook} {d : Depth} {s : BookSide}

/-- The linked addresses read as the orders. -/
theorem map_linked (h : Rep b d) : b.linked.map b.heap.cells = d.orders.map some := by
  have h1 : (b.linkedOn .bid).map b.heap.cells = (d.ordersOn .bid).map some :=
    flatMap_queue (h.levels .bid)
  have h2 : (b.linkedOn .ask).map b.heap.cells = (d.ordersOn .ask).map some :=
    flatMap_queue (h.levels .ask)
  rw [OrderBook.linked, Depth.orders, List.map_append, List.map_append, h1, h2]

/-- A linked address is live. -/
theorem exists_of_linked (h : Rep b d) {p : Ptr} (hp : p ∈ b.linked) :
    ∃ o ∈ d.orders, b.heap.cells p = some o := by
  have hm : b.heap.cells p ∈ d.orders.map some := by
    rw [← h.map_linked]
    exact List.mem_map_of_mem hp
  obtain ⟨o, ho, he⟩ := List.mem_map.mp hm
  exact ⟨o, ho, he.symm⟩

/-- Every order of the book is behind a linked address. -/
theorem exists_ptr (h : Rep b d) {o : Order} (ho : o ∈ d.orders) :
    ∃ p ∈ b.linked, b.heap.cells p = some o := by
  have hm : some o ∈ b.linked.map b.heap.cells := by
    rw [h.map_linked]
    exact List.mem_map_of_mem ho
  exact List.mem_map.mp hm

/-- Linked addresses with one key are one address. -/
theorem keyAt_inj (h : Rep b d) {p q : Ptr} (hp : p ∈ b.linked) (hq : q ∈ b.linked)
    (he : keyAt b.heap p = keyAt b.heap q) : p = q := by
  obtain ⟨o, -, ho⟩ := h.exists_of_linked hp
  have hk : keyAt b.heap p = some o.key := by rw [keyAt, ho]; rfl
  have h1 := (h.index o.key p).mpr ⟨hp, hk⟩
  have h2 := (h.index o.key q).mpr ⟨hq, by rw [← he]; exact hk⟩
  rw [h1] at h2
  exact Option.some.inj h2

/-- No two orders of the book share a key. -/
theorem nodup_keys (h : Rep b d) : (d.orders.map Order.key).Nodup := by
  have hk : b.linked.map (keyAt b.heap) = (d.orders.map Order.key).map some := by
    have := congrArg (List.map (Option.map Order.key)) h.map_linked
    rw [List.map_map, List.map_map] at this
    rw [List.map_map]
    exact this
  have hnd : (b.linked.map (keyAt b.heap)).Nodup :=
    List.Nodup.map_on (fun p hp q hq he => h.keyAt_inj hp hq he) h.nodup
  rw [hk] at hnd
  exact List.Nodup.of_map _ hnd

/-- **Reading a level at a split of its ladder.** -/
theorem split (h : Rep b d) {pre post : Ladder} {px : Price} {os : List Order}
    (hd : d.ladder s = pre ++ (px, os) :: post) :
    ∃ (es fs : List (Price × PriceLevel)) (l : PriceLevel),
      (b.levels s).entries = es ++ (px, l) :: fs ∧
      List.Forall₂ (fun e a => e.1 = a.1 ∧ LevelRep b.heap e.2 a.2) es pre ∧
      LevelRep b.heap l os ∧
      List.Forall₂ (fun e a => e.1 = a.1 ∧ LevelRep b.heap e.2 a.2) fs post :=
  levels_split (hd ▸ h.levels s)

end Rep

end Core

end OrderbookFix
