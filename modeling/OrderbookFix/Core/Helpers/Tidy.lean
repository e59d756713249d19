import OrderbookFix.Core.Cancellation
import OrderbookFix.Core.Helpers.Terms
/-!
# What every book keeps

A key that is used twice costs the book an order: the second one is linked
and freed at once. What a book keeps even then is the other direction.
Whatever is live is linked once, in the level it names, and is what the
index has under its key; all that can be amiss is a node in a queue that
holds nothing any more. No bound on quantities and no condition on keys is
needed.
-/

namespace OrderbookFix

namespace Core

/-- The addresses queued at a price, oldest first. -/
def OrderBook.nodesAt (b : OrderBook) (s : BookSide) (px : Price) : List Ptr :=
  (((b.levels s).find? px).map PriceLevel.queue).getD []

/-- **A tidy book.** Where `D` fails, every node in a queue is live. -/
structure Tidy (D : Prop) (b : OrderBook) : Prop where
  nodup : ∀ s px, (b.nodesAt s px).Nodup
  bounded : ∀ s px, ∀ p ∈ b.nodesAt s px, p < b.heap.next
  /-- a live node in a queue names the level it is in -/
  placed : ∀ s px, ∀ p ∈ b.nodesAt s px, ∀ o, b.heap.cells p = some o →
    o.side.book = s ∧ o.price = px
  /-- a live node is in the queue it names -/
  linked : ∀ p o, b.heap.cells p = some o → p ∈ b.nodesAt o.side.book o.price
  /-- a live node is what the index has under its key -/
  indexed : ∀ p o, b.heap.cells p = some o → b.index.lookup o.key = some p
  /-- what the index has is live, under its own key -/
  owned : ∀ k p, b.index.lookup k = some p → ∃ o, b.heap.cells p = some o ∧ o.key = k
  live : D ∨ ∀ s px, ∀ p ∈ b.nodesAt s px, ∃ o, b.heap.cells p = some o

section Nodes

variable {b : OrderBook} {s t : BookSide} {px py : Price} {p : Ptr} {o : Order} {l : PriceLevel}

theorem nodesAt_of_find? (h : (b.levels s).find? px = some l) : b.nodesAt s px = l.queue := by
  rw [OrderBook.nodesAt, h]
  rfl

/-- A level that is erased was empty: no queue changes. -/
theorem nodesAt_erase (h : (b.levels s).find? px = some l) (hempty : l.empty = true) :
    (b.setLevels s ((b.levels s).erase px)).nodesAt t py = b.nodesAt t py := by
  by_cases ht : t = s
  · subst ht
    rw [OrderBook.nodesAt, levels_setLevels, OrderedMap.find?_erase]
    by_cases hpy : py = px
    · rw [if_pos hpy, hpy, nodesAt_of_find? h, List.isEmpty_iff.mp hempty]
      rfl
    · rw [if_neg hpy, OrderBook.nodesAt]
  · rw [OrderBook.nodesAt, levels_setLevels_of_ne ht, OrderBook.nodesAt]

/-- Nor does one when only the figures of a level do. -/
theorem nodesAt_modify {l' : PriceLevel} (h : (b.levels s).find? px = some l)
    (hqueue : l'.queue = l.queue) :
    (b.modifyLevel s px fun _ => l').nodesAt t py = b.nodesAt t py := by
  by_cases ht : t = s
  · subst ht
    rw [OrderBook.nodesAt, OrderBook.modifyLevel, levels_setLevels, OrderedMap.find?_modify]
    by_cases hpy : py = px
    · rw [if_pos hpy, h, hpy, nodesAt_of_find? h, ← hqueue]
      rfl
    · rw [if_neg hpy, OrderBook.nodesAt]
  · rw [OrderBook.nodesAt, OrderBook.modifyLevel, levels_setLevels_of_ne ht, OrderBook.nodesAt]

theorem nodesAt_drop (hlk : b.index.lookup o.key = some p) :
    (b.drop p o).nodesAt s px =
      if s = o.side.book ∧ px = o.price then (b.nodesAt s px).erase p else b.nodesAt s px := by
  rw [OrderBook.nodesAt, find?_levels_drop hlk]
  split
  · rw [Option.map_map, OrderBook.nodesAt]
    cases (b.levels s).find? px with
    | none => rfl
    | some l => rfl
  · rw [OrderBook.nodesAt]

theorem nodesAt_rest :
    (b.rest o).nodesAt s px =
      if s = o.side.book ∧ px = o.price then b.nodesAt s px ++ [b.heap.next]
      else b.nodesAt s px := by
  rw [OrderBook.nodesAt, find?_levels_rest]
  split
  · rw [OrderBook.nodesAt]
    cases (b.levels s).find? px with
    | none => rfl
    | some l => rfl
  · rw [OrderBook.nodesAt]

end Nodes

namespace Tidy

variable {D : Prop} {b b' : OrderBook} {p : Ptr} {o : Order}

theorem new : Tidy D OrderBook.new := by
  have hnodes : ∀ s px, OrderBook.new.nodesAt s px = [] := fun s px => by cases s <;> rfl
  refine ⟨fun s px => ?_, fun s px p hp => ?_, fun s px p hp => ?_, fun p o ho => ?_,
    fun p o ho => ?_, fun k p hk => ?_, .inr fun s px p hp => ?_⟩
  · rw [hnodes]
    exact .nil
  all_goals first | (rw [hnodes] at hp; cases hp) | cases ho | cases hk

/-- **A step that writes leaves and figures only.** -/
theorem of_terms (h : Tidy D b) (hnodes : ∀ s px, b'.nodesAt s px = b.nodesAt s px)
    (hindex : b'.index = b.index) (hnext : b'.heap.next = b.heap.next)
    (hcells : ∀ p, (b'.heap.cells p).map Order.terms = (b.heap.cells p).map Order.terms) :
    Tidy D b' := by
  -- a live node was live before, and kept all but its leaves
  have hback : ∀ p o, b'.heap.cells p = some o →
      ∃ r, b.heap.cells p = some r ∧ r.side = o.side ∧ r.price = o.price ∧ r.key = o.key := by
    intro p o ho
    have hp := hcells p
    rw [ho, Option.map_some] at hp
    obtain ⟨r, hr, hterms⟩ := Option.map_eq_some_iff.mp hp.symm
    obtain ⟨-, hprice, hside⟩ := Order.of_terms_eq hterms
    have hkey : r.terms.key = o.terms.key := by rw [hterms]
    exact ⟨r, hr, hside, hprice, hkey⟩
  have hforth : ∀ p r, b.heap.cells p = some r → ∃ o, b'.heap.cells p = some o ∧ o.key = r.key := by
    intro p r hr
    have hp := hcells p
    rw [hr, Option.map_some] at hp
    obtain ⟨o, ho, hterms⟩ := Option.map_eq_some_iff.mp hp
    have hkey : o.terms.key = r.terms.key := by rw [hterms]
    exact ⟨o, ho, hkey⟩
  refine ⟨fun s px => ?_, fun s px p hp => ?_, fun s px p hp o ho => ?_, fun p o ho => ?_,
    fun p o ho => ?_, fun k p hk => ?_, h.live.imp_right fun hl s px p hp => ?_⟩
  · rw [hnodes]
    exact h.nodup s px
  · rw [hnext]
    exact h.bounded s px p (hnodes s px ▸ hp)
  · obtain ⟨r, hr, hside, hprice, -⟩ := hback p o ho
    rw [← hside, ← hprice]
    exact h.placed s px p (hnodes s px ▸ hp) r hr
  · obtain ⟨r, hr, hside, hprice, -⟩ := hback p o ho
    rw [hnodes, ← hside, ← hprice]
    exact h.linked p r hr
  · obtain ⟨r, hr, -, -, hkey⟩ := hback p o ho
    rw [hindex, ← hkey]
    exact h.indexed p r hr
  · rw [hindex] at hk
    obtain ⟨r, hr, rfl⟩ := h.owned k p hk
    exact hforth p r hr
  · obtain ⟨r, hr⟩ := hl s px p (hnodes s px ▸ hp)
    obtain ⟨o, ho, -⟩ := hforth p r hr
    exact ⟨o, ho⟩

/-- What is queued once an order is dropped. -/
theorem mem_nodesAt_drop (h : Tidy D b) (ho : b.heap.cells p = some o) {s : BookSide} {px : Price}
    {q : Ptr} : q ∈ (b.drop p o).nodesAt s px ↔ q ∈ b.nodesAt s px ∧ q ≠ p := by
  rw [nodesAt_drop (h.indexed p o ho)]
  split
  · rw [(h.nodup s px).mem_erase_iff, and_comm]
  · rename_i hne
    refine ⟨fun hq => ⟨hq, ?_⟩, And.left⟩
    rintro rfl
    obtain ⟨rfl, rfl⟩ := h.placed s px q hq o ho
    exact hne ⟨rfl, rfl⟩

/-- **An order is dropped.** -/
theorem drop (h : Tidy D b) (ho : b.heap.cells p = some o) : Tidy D (b.drop p o) := by
  have hlk := h.indexed p o ho
  have hcells := cells_drop hlk
  have hheap : (b.drop p o).heap = b.heap.free p := (drop_eq hlk).1
  have hback : ∀ q r, (b.drop p o).heap.cells q = some r → q ≠ p ∧ b.heap.cells q = some r := by
    intro q r hr
    rw [hcells] at hr
    split at hr
    · cases hr
    · exact ⟨‹_›, hr⟩
  have hmem : ∀ s px q, q ∈ (b.drop p o).nodesAt s px ↔ q ∈ b.nodesAt s px ∧ q ≠ p :=
    fun s px q => h.mem_nodesAt_drop ho
  refine ⟨fun s px => ?_, fun s px q hq => ?_, fun s px q hq r hr => ?_, fun q r hr => ?_,
    fun q r hr => ?_, fun k q hk => ?_, h.live.imp_right fun hl s px q hq => ?_⟩
  · rw [nodesAt_drop hlk]
    split
    · exact (h.nodup s px).erase p
    · exact h.nodup s px
  · rw [hheap]
    exact h.bounded s px q ((hmem s px q).mp hq).1
  · exact h.placed s px q ((hmem s px q).mp hq).1 r (hback q r hr).2
  · obtain ⟨hq, hr⟩ := hback q r hr
    exact (hmem _ _ q).mpr ⟨h.linked q r hr, hq⟩
  · obtain ⟨hq, hr⟩ := hback q r hr
    have hidx := h.indexed q r hr
    rw [lookup_drop hlk, if_neg, hidx]
    rintro hk
    rw [hk, hlk] at hidx
    exact hq (Option.some.inj hidx).symm
  · rw [lookup_drop hlk] at hk
    split at hk
    · cases hk
    · rename_i hne
      obtain ⟨r, hr, rfl⟩ := h.owned k q hk
      refine ⟨r, ?_, rfl⟩
      rw [hcells, if_neg, hr]
      rintro rfl
      rw [ho] at hr
      exact hne (Option.some.inj hr ▸ rfl)
  · obtain ⟨hq, hqp⟩ := (hmem s px q).mp hq
    obtain ⟨r, hr⟩ := hl s px q hq
    exact ⟨r, by rw [hcells, if_neg hqp, hr]⟩

theorem index_rest (b : OrderBook) (o : Order) :
    (b.rest o).index =
      if b.index.lookup o.key = none then b.index.insert o.key b.heap.next else b.index := by
  rw [OrderBook.rest, OrderBook.emplace, index_setLevels]
  cases b.index.lookup o.key <;> simp

theorem heap_rest (b : OrderBook) (o : Order) :
    (b.rest o).heap =
      if b.index.lookup o.key = none then b.heap.alloc o
      else (b.heap.alloc o).free b.heap.next := by
  rw [OrderBook.rest, OrderBook.emplace, index_setLevels]
  cases b.index.lookup o.key <;> simp [heap_setLevels]

theorem lookup_rest (b : OrderBook) (o : Order) (k : IndexKey) :
    (b.rest o).index.lookup k =
      if k = o.key ∧ b.index.lookup o.key = none then some b.heap.next else b.index.lookup k := by
  rw [index_rest]
  by_cases hnone : b.index.lookup o.key = none
  · by_cases hkey : k = o.key
    · subst hkey
      rw [if_pos hnone, if_pos ⟨rfl, hnone⟩, AList.lookup_insert]
    · rw [if_pos hnone, if_neg fun h => hkey h.1, AList.lookup_insert_ne hkey]
  · rw [if_neg hnone, if_neg fun h => hnone h.2]

theorem next_rest (b : OrderBook) (o : Order) : (b.rest o).heap.next = b.heap.next + 1 := by
  rw [heap_rest]
  split <;> rfl

/-- **An order is rested**, under a key that may be taken. -/
theorem rest (h : Tidy D b) (hk : D ∨ b.index.lookup o.key = none) : Tidy D (b.rest o) := by
  have hcells := cells_rest (b := b) o
  have hlookup := lookup_rest b o
  -- the new node is in no queue yet, so each queue stays or gains it at its end
  have hoff : ∀ s px, b.heap.next ∉ b.nodesAt s px := fun s px hmem =>
    absurd (h.bounded s px _ hmem) (Nat.lt_irrefl _)
  have hmem : ∀ s px q, q ∈ (b.rest o).nodesAt s px →
      q ∈ b.nodesAt s px ∨ q = b.heap.next ∧ s = o.side.book ∧ px = o.price := by
    intro s px q hq
    rw [nodesAt_rest] at hq
    split at hq
    · rcases List.mem_append.mp hq with hq | hq
      · exact .inl hq
      · exact .inr ⟨List.mem_singleton.mp hq, ‹_›⟩
    · exact .inl hq
  have hkeep : ∀ s px q, q ∈ b.nodesAt s px → q ∈ (b.rest o).nodesAt s px := by
    intro s px q hq
    rw [nodesAt_rest]
    split
    · exact List.mem_append_left _ hq
    · exact hq
  have hback : ∀ q r, (b.rest o).heap.cells q = some r →
      q = b.heap.next ∧ b.index.lookup o.key = none ∧ r = o ∨
        q ≠ b.heap.next ∧ b.heap.cells q = some r := by
    intro q r hr
    rw [hcells] at hr
    split at hr
    · split at hr
      · exact .inl ⟨‹_›, ‹_›, (Option.some.inj hr).symm⟩
      · cases hr
    · exact .inr ⟨‹_›, hr⟩
  have hforth : ∀ q r, b.heap.cells q = some r → (b.rest o).heap.cells q = some r := by
    intro q r hr
    rw [hcells, if_neg (b.heap.ne_next hr), hr]
  refine ⟨fun s px => ?_, fun s px q hq => ?_, fun s px q hq r hr => ?_, fun q r hr => ?_,
    fun q r hr => ?_, fun k q hq => ?_, ?_⟩
  · rw [nodesAt_rest]
    split
    · exact List.nodup_append.mpr ⟨h.nodup s px, List.nodup_singleton _, fun x hx y hy he =>
        hoff s px (List.mem_singleton.mp hy ▸ he ▸ hx)⟩
    · exact h.nodup s px
  · rw [next_rest]
    rcases hmem s px q hq with hq | ⟨rfl, -⟩
    · exact Nat.lt_succ_of_lt (h.bounded s px q hq)
    · exact Nat.lt_succ_self _
  · rcases hmem s px q hq with hold | ⟨rfl, rfl, rfl⟩
    · rcases hback q r hr with ⟨rfl, -⟩ | ⟨-, hr⟩
      · exact absurd hold (hoff s px)
      · exact h.placed s px q hold r hr
    · rcases hback _ r hr with ⟨-, -, rfl⟩ | ⟨hne, -⟩
      · exact ⟨rfl, rfl⟩
      · exact absurd rfl hne
  · rcases hback q r hr with ⟨rfl, -, rfl⟩ | ⟨-, hr⟩
    · rw [nodesAt_rest, if_pos ⟨rfl, rfl⟩]
      exact List.mem_append_right _ (List.mem_singleton_self _)
    · exact hkeep _ _ q (h.linked q r hr)
  · rw [hlookup]
    rcases hback q r hr with ⟨rfl, hnone, rfl⟩ | ⟨-, hr⟩
    · rw [if_pos ⟨rfl, hnone⟩]
    · have hidx := h.indexed q r hr
      rw [if_neg, hidx]
      rintro ⟨he, hnone⟩
      rw [he, hnone] at hidx
      cases hidx
  · rw [hlookup] at hq
    split at hq
    · rename_i hnew
      obtain rfl := Option.some.inj hq
      exact ⟨o, by rw [hcells, if_pos rfl, if_pos hnew.2], hnew.1.symm⟩
    · obtain ⟨r, hr, hkey⟩ := h.owned k q hq
      exact ⟨r, hforth q r hr, hkey⟩
  · rcases hk with hD | hnone
    · exact .inl hD
    · refine h.live.imp_right fun hl s px q hq => ?_
      rcases hmem s px q hq with hq | ⟨rfl, -⟩
      · obtain ⟨r, hr⟩ := hl s px q hq
        exact ⟨r, hforth q r hr⟩
      · exact ⟨o, by rw [hcells, if_pos rfl, if_pos hnone]⟩

end Tidy

end Core

end OrderbookFix
