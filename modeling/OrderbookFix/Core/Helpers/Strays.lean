import OrderbookFix.Core.Helpers.Changes
import OrderbookFix.Core.Helpers.Tidy
/-!
# Books with strays

An order that rests under a key in use leaves a stray: a node in a queue
whose order was freed at once. A submit reads every node of the ladder it
is matched against, so one stray there is enough for it to read a freed
node, and strays on its own ladder do not matter. A level without strays
has true figures, whatever happened around it, so a match on a ladder
without strays is the one on its values.
-/

namespace OrderbookFix

namespace Core

open Relation

namespace OrderBook

/-- No node queued on a ladder is a stray. -/
def Clear (b : OrderBook) (s : BookSide) : Prop :=
  ∀ p ∈ b.linkedOn s, (b.heap.cells p).isSome = true

instance (b : OrderBook) (s : BookSide) : Decidable (b.Clear s) :=
  inferInstanceAs (Decidable (∀ p ∈ b.linkedOn s, (b.heap.cells p).isSome = true))

/-- One ladder, as it reads. -/
def ladder (b : OrderBook) (s : BookSide) : Ladder :=
  (b.levels s).entries.map fun e => (e.1, b.ordersAt e.2)

end OrderBook

/-- **A sound book**: it is tidy, and the figures of a level without
strays are those of its orders. -/
structure Sound (b : OrderBook) : Prop where
  tidy : Tidy True b
  figures : ∀ s px l os, (b.levels s).find? px = some l →
    l.queue.map b.heap.cells = os.map some → LevelRep b.heap l os

section Nodes

variable {b : OrderBook} {s : BookSide} {px : Price} {p : Ptr} {l : PriceLevel}

/-- A node queued at a price is in the queue of its entry. -/
theorem exists_entry_of_mem (hp : p ∈ b.nodesAt s px) :
    ∃ l, (px, l) ∈ (b.levels s).entries ∧ p ∈ l.queue := by
  rcases hfind : (b.levels s).find? px with _ | l
  · rw [OrderBook.nodesAt, hfind] at hp
    cases hp
  · obtain ⟨pre, post, hsplit⟩ := OrderedMap.exists_split_of_find? hfind
    rw [nodesAt_of_find? hfind] at hp
    exact ⟨l, by rw [hsplit]; exact List.mem_append_right _ (List.mem_cons_self ..), hp⟩

/-- An entry is what its price finds. -/
theorem find?_of_entry {e : Price × PriceLevel} (he : e ∈ (b.levels s).entries) :
    (b.levels s).find? e.1 = some e.2 := by
  obtain ⟨pre, post, hsplit⟩ := List.append_of_mem he
  exact OrderedMap.find?_of_split hsplit

theorem mem_linkedOn_iff : p ∈ b.linkedOn s ↔ ∃ px, p ∈ b.nodesAt s px := by
  rw [mem_linkedOn]
  constructor
  · rintro ⟨e, he, hp⟩
    exact ⟨e.1, by rw [nodesAt_of_find? (find?_of_entry he)]; exact hp⟩
  · rintro ⟨px, hp⟩
    obtain ⟨l, he, hp⟩ := exists_entry_of_mem hp
    exact ⟨(px, l), he, hp⟩

theorem clear_iff : b.Clear s ↔ ∀ px, ∀ p ∈ b.nodesAt s px, ∃ o, b.heap.cells p = some o := by
  simp only [OrderBook.Clear, mem_linkedOn_iff, Option.isSome_iff_exists]
  exact ⟨fun h px p hp => h p ⟨px, hp⟩, fun h p ⟨px, hp⟩ => h px p hp⟩

theorem map_cells_of_live {ps : List Ptr} (h : ∀ p ∈ ps, ∃ o, b.heap.cells p = some o) :
    ps.map b.heap.cells = (ps.filterMap b.heap.cells).map some := by
  induction ps with
  | nil => rfl
  | cons p ps ih =>
    obtain ⟨⟨o, ho⟩, hps⟩ := List.forall_mem_cons.mp h
    rw [List.map_cons, List.filterMap_cons_some ho, List.map_cons, ih hps, ho]

/-- Orders read behind the same nodes are the same. -/
theorem eq_of_map_some {os os' : List Order} (h : os.map some = os'.map some) : os = os' :=
  List.map_injective_iff.mpr (Option.some_injective _) h

end Nodes

/-- No change but a drop frees a node, and every change keeps a book
tidy. -/
theorem Change.tidy {D : Prop} {s : BookSide} {st st' : MatchState} (h : Change s st st')
    (hst : Tidy D st.book) : Tidy D st'.book := by
  cases h with
  | @fill px l p o q hfind hp ho hcross hq =>
    refine hst.of_terms (fun _ _ => rfl) rfl rfl fun p' => ?_
    by_cases hp' : p' = p
    · subst hp'
      rw [Heap.write_self _ ho, ho]
      rfl
    · rw [Heap.write_of_ne _ hp']
  | settle total leaves hfind =>
    refine hst.of_terms (fun s px => nodesAt_modify hfind rfl) ?_ ?_ fun p => ?_
    · rw [OrderBook.modifyLevel, index_setLevels]
    · rw [OrderBook.modifyLevel, heap_setLevels]
    · rw [OrderBook.modifyLevel, heap_setLevels]
  | erase hfind hempty =>
    refine hst.of_terms (fun s px => nodesAt_erase hfind hempty) ?_ ?_ fun p => ?_
    · rw [index_setLevels]
    · rw [heap_setLevels]
    · rw [heap_setLevels]
  | drop ho hzero => exact hst.drop ho

/-- **A stray stays one**: no change frees its node again or unlinks it. -/
theorem Change.stray {s t : BookSide} {st st' : MatchState} {px : Price} {p : Ptr}
    (h : Change s st st') (hst : Tidy True st.book) (hp : p ∈ st.book.nodesAt t px)
    (hnone : st.book.heap.cells p = none) :
    p ∈ st'.book.nodesAt t px ∧ st'.book.heap.cells p = none := by
  have hne : ∀ q o, st.book.heap.cells q = some o → p ≠ q := by
    rintro q o ho rfl
    rw [hnone] at ho
    cases ho
  cases h with
  | fill hfind hq ho hcross hpos => exact ⟨hp, by rw [Heap.write_of_ne _ (hne _ _ ho), hnone]⟩
  | @settle py l total leaves hfind =>
    have hnodes := @nodesAt_modify st.book s t py px l { l with totalQty := total } hfind rfl
    exact ⟨by rw [hnodes]; exact hp, by rw [OrderBook.modifyLevel, heap_setLevels, hnone]⟩
  | erase hfind hempty =>
    exact ⟨by rw [nodesAt_erase hfind hempty]; exact hp, by rw [heap_setLevels, hnone]⟩
  | drop ho hzero =>
    have hlk := hst.indexed _ _ ho
    refine ⟨?_, by rw [cells_drop hlk, if_neg (hne _ _ ho), hnone]⟩
    rw [nodesAt_drop hlk]
    split
    · exact (List.mem_erase_of_ne (hne _ _ ho)).mpr hp
    · exact hp

/-- **Strays stay along a walk.** -/
theorem stray_of_changes {s t : BookSide} {st st' : MatchState} {px : Price} {p : Ptr}
    (h : ReflTransGen (Change s) st st') (hst : Tidy True st.book)
    (hp : p ∈ st.book.nodesAt t px) (hnone : st.book.heap.cells p = none) :
    Tidy True st'.book ∧ p ∈ st'.book.nodesAt t px ∧ st'.book.heap.cells p = none := by
  induction h with
  | refl => exact ⟨hst, hp, hnone⟩
  | tail _ hlast ih => exact ⟨hlast.tidy ih.1, hlast.stray ih.1 ih.2.1 ih.2.2⟩

namespace Sound

variable {b : OrderBook} {s : BookSide} {px : Price} {p : Ptr} {o : Order}

theorem new : Sound OrderBook.new := by
  refine ⟨.new, fun s px l os hfind => ?_⟩
  cases s <;> cases hfind

/-- **A ladder without strays represents what it reads as.** -/
theorem shows (h : Sound b) (hclear : b.Clear s) : Shows b s (b.ladder s) := by
  have hlive := clear_iff.mp hclear
  constructor
  · rw [OrderBook.ladder, List.forall₂_map_right_iff, List.forall₂_same]
    intro e he
    exact ⟨rfl, h.figures s e.1 e.2 _ (find?_of_entry he) (map_cells_of_live fun p hp =>
      hlive e.1 p (nodesAt_of_find? (find?_of_entry he) ▸ hp))⟩
  · -- a live node names the one level it is in
    rw [OrderBook.linkedOn, List.nodup_flatMap]
    refine ⟨fun e he => nodesAt_of_find? (find?_of_entry he) ▸ h.tidy.nodup s e.1, ?_⟩
    have hkeys := (b.levels s).nodup_keys
    rw [List.Nodup, List.pairwise_map] at hkeys
    refine hkeys.imp_of_mem fun {e e'} he he' hne p hp hp' => ?_
    change p ∈ e.2.queue at hp
    change p ∈ e'.2.queue at hp'
    rw [← nodesAt_of_find? (find?_of_entry he)] at hp
    rw [← nodesAt_of_find? (find?_of_entry he')] at hp'
    obtain ⟨o, ho⟩ := hlive e.1 p hp
    exact hne ((h.tidy.placed s e.1 p hp o ho).2.symm.trans (h.tidy.placed s e'.1 p hp' o ho).2)

/-- A level whose nodes hold what they did keeps its figures. -/
theorem levelRep_of_cells (h : Sound b) {h' : Heap Order} {l : PriceLevel} {os : List Order}
    (hfind : (b.levels s).find? px = some l) (hos : l.queue.map h'.cells = os.map some)
    (hcells : ∀ q ∈ l.queue, h'.cells q = b.heap.cells q) : LevelRep h' l os :=
  (h.figures s px l os hfind (by rw [← hos]; exact (List.map_congr_left hcells).symm)).congr hcells

theorem eraseEmpty (h : Sound b) {l : PriceLevel} (hfind : (b.levels s).find? px = some l)
    (hempty : l.empty = true) : Sound (b.setLevels s ((b.levels s).erase px)) := by
  refine ⟨h.tidy.of_terms (fun _ _ => nodesAt_erase hfind hempty) index_setLevels
    (by rw [heap_setLevels]) (fun p => by rw [heap_setLevels]), fun t py l' os hfind' hos => ?_⟩
  rw [heap_setLevels] at hos ⊢
  rcases s.eq_or_ne_of t with rfl | ht
  · rw [levels_setLevels, OrderedMap.find?_erase] at hfind'
    split at hfind'
    · cases hfind'
    · exact h.figures t py l' os hfind' hos
  · rw [levels_setLevels_of_ne ht] at hfind'
    exact h.figures t py l' os hfind' hos

/-- **An order is dropped.** -/
theorem drop (h : Sound b) (ho : b.heap.cells p = some o) : Sound (b.drop p o) := by
  have hlk := h.tidy.indexed p o ho
  have hcells := cells_drop hlk
  refine ⟨h.tidy.drop ho, fun s px l os hfind hos => ?_⟩
  rw [find?_levels_drop hlk] at hfind
  split at hfind
  · -- its own level: with the order back in place it had no stray either
    rename_i hat
    obtain ⟨rfl, rfl⟩ := hat
    obtain ⟨l₀, hfind₀, rfl⟩ := Option.map_eq_some_iff.mp hfind
    have hnodes := nodesAt_of_find? hfind₀
    have hnd : l₀.queue.Nodup := hnodes ▸ h.tidy.nodup _ _
    obtain ⟨pa, pb, hq⟩ := List.append_of_mem (hnodes ▸ h.tidy.linked p o ho)
    have hnd' := hnd
    rw [hq, List.nodup_middle, List.nodup_cons] at hnd'
    have herase : (l₀.unlink p o).queue = pa ++ pb := by
      rw [PriceLevel.unlink, hq, List.erase_append_right _ fun hpa =>
        hnd'.1 (List.mem_append_left _ hpa), List.erase_cons_head]
    have hkeep : ∀ q ∈ pa ++ pb, (b.drop p o).heap.cells q = b.heap.cells q := by
      intro q hmem
      rw [hcells, if_neg]
      rintro rfl
      exact hnd'.1 hmem
    rw [herase, List.map_congr_left hkeep, List.map_append] at hos
    obtain ⟨oa, ob, rfl, hoa, hob⟩ := List.map_eq_append_iff.mp hos.symm
    have hl := h.figures _ _ l₀ (oa ++ o :: ob) hfind₀ (by
      rw [hq, List.map_append, List.map_cons, List.map_append, List.map_cons, hoa, hob, ho])
    rw [(drop_eq hlk).1]
    exact (hl.unlink hq hnd hoa.symm hob.symm).2
  · rename_i hne
    refine h.levelRep_of_cells hfind hos fun q hq => ?_
    rw [hcells, if_neg]
    rintro rfl
    obtain ⟨rfl, rfl⟩ := h.tidy.placed s px q (nodesAt_of_find? hfind ▸ hq) o ho
    exact hne ⟨rfl, rfl⟩

/-- **An order is rested**, under a key that may be taken. -/
theorem rest (h : Sound b) (o : Order) : Sound (b.rest o) := by
  have hcells := cells_rest (b := b) o
  have hold : ∀ s px, ∀ q ∈ b.nodesAt s px, (b.rest o).heap.cells q = b.heap.cells q :=
    fun s px q hq => by rw [hcells, if_neg (Nat.ne_of_lt (h.tidy.bounded s px q hq))]
  refine ⟨h.tidy.rest (.inl trivial), fun s px l os hfind hos => ?_⟩
  rw [find?_levels_rest] at hfind
  split at hfind
  · obtain rfl := Option.some.inj hfind
    set l₀ := ((b.levels s).find? px).getD PriceLevel.new with hl₀
    have hnodes : b.nodesAt s px = l₀.queue := by
      rw [OrderBook.nodesAt, hl₀]
      cases (b.levels s).find? px <;> rfl
    have hkeep := hnodes ▸ hold s px
    -- the queue ends in the new node, which is live: its key was free
    rw [show (l₀.pushBack b.heap.next o).queue = l₀.queue ++ [b.heap.next] from rfl,
      List.map_append, List.map_congr_left hkeep] at hos
    obtain ⟨os₀, os₁, rfl, hos₀, hlast⟩ := List.map_eq_append_iff.mp hos.symm
    obtain ⟨r, rfl, hr⟩ := List.map_eq_singleton_iff.mp hlast
    have hnext : (b.rest o).heap.cells b.heap.next = some o := by
      rw [hcells, if_pos rfl] at hr ⊢
      split at hr
      · exact if_pos ‹_›
      · cases hr
    obtain rfl := Option.some.inj (hr.trans hnext)
    refine LevelRep.pushBack (LevelRep.congr ?_ hkeep) hnext
    rcases hfind₀ : (b.levels s).find? px with _ | l
    · rw [hl₀, hfind₀] at hos₀ ⊢
      obtain rfl : os₀ = [] := List.map_eq_nil_iff.mp hos₀
      exact .new _
    · rw [hl₀, hfind₀] at hos₀ ⊢
      exact h.figures s px l os₀ hfind₀ hos₀.symm
  · exact h.levelRep_of_cells hfind hos fun q hq => hold s px q (nodesAt_of_find? hfind ▸ hq)

/-- **The book once one ladder was matched.** -/
theorem of_framed {b' : OrderBook} {l : Ladder} (h : Sound b) (htidy : Tidy True b')
    (hframed : Framed s b b') (hl : Shows b' s l) : Sound b' := by
  refine ⟨htidy, fun t px lv os hfind hos => ?_⟩
  rcases s.eq_or_ne_of t with rfl | ht
  · obtain ⟨pre, post, hsplit⟩ := OrderedMap.exists_split_of_find? hfind
    have hlevels := hl.levels
    rw [hsplit] at hlevels
    obtain ⟨-, a, -, -, -, hrep, -⟩ := forall₂_split hlevels
    rw [eq_of_map_some (hos.symm.trans hrep.2.queue)]
    exact hrep.2
  · -- a live node of the other ladder is not on this one
    have hfind₀ := hfind
    rw [hframed.others t ht] at hfind₀
    refine h.levelRep_of_cells hfind₀ hos fun q hq => hframed.cells q fun hqs => ?_
    have hlive : (b'.heap.cells q) ∈ os.map some := hos ▸ List.mem_map_of_mem hq
    obtain ⟨r, -, hr⟩ := List.mem_map.mp hlive
    rw [← hframed.linkedOn] at hqs
    obtain ⟨py, hqs⟩ := mem_linkedOn_iff.mp hqs
    have hside := (htidy.placed t px q (nodesAt_of_find? hfind ▸ hq) r hr.symm).1
    exact ht (hside.symm.trans (htidy.placed s py q hqs r hr.symm).1)

end Sound

/-! ## A submit on a sound book -/

section Walks

variable {s : BookSide} {st : MatchState}

/-- **The match on a ladder without strays.** -/
theorem Sound.walk_match (algo : MatchAlgo) (h : Sound st.book) (hclear : st.book.Clear s) :
    (MatchDefined algo (st.book.ladder s) st.aggr ∧
      ∃ st', OrderBook.walk s (onLevel algo s) st = .ok st' ∧ Sound st'.book ∧
        st'.book.Clear s) ∨
    (¬ MatchDefined algo (st.book.ladder s) st.aggr ∧
      OrderBook.walk s (onLevel algo s) st = .error .signedOverflow) := by
  have hshows : Shows st.book s ([] ++ st.book.ladder s) := h.shows hclear
  rw [hshows.walk_eq, List.nil_append]
  rcases Core.walk_match algo hshows with ⟨hdef, st', hw, hshows', hframed, -, -⟩ | hover
  · have htidy : Tidy True st'.book := by
      have hchanges := walkFrom_changes (fun _ _ _ _ => onLevel_changes) hw
      clear hw hshows' hframed
      induction hchanges with
      | refl => exact h.tidy
      | tail _ hlast ih => exact hlast.tidy ih
    refine .inl ⟨hdef, st', hw, h.of_framed htidy hframed hshows', fun p hp => ?_⟩
    have hkey : (keyAt st.book.heap p).isSome = true := by
      rw [keyAt, Option.isSome_map]
      exact hclear p (hframed.linkedOn ▸ hp)
    rw [← hframed.keys, keyAt, Option.isSome_map] at hkey
    exact hkey
  · exact .inr hover

/-- **The sweep of live nodes** reads no stray and makes none. -/
theorem Sound.sweepQueue {b : OrderBook} {ps : List Ptr} (h : Sound b)
    (hlive : ∀ p ∈ ps, ∃ o, b.heap.cells p = some o) (hnd : ps.Nodup) :
    ∃ b', Core.sweepQueue ps b = .ok b' ∧ Sound b' ∧ (b.Clear s → b'.Clear s) ∧
      ∀ px, ((b'.levels s).find? px).isSome = ((b.levels s).find? px).isSome := by
  induction ps generalizing b with
  | nil => exact ⟨b, rfl, h, id, fun _ => rfl⟩
  | cons p ps ih =>
    obtain ⟨⟨o, ho⟩, hps⟩ := List.forall_mem_cons.mp hlive
    obtain ⟨hp, hnd⟩ := List.nodup_cons.mp hnd
    rw [Core.sweepQueue, deref_of_cell ho]
    simp only [bind, Except.bind]
    by_cases h0 : o.leavesQty = 0
    · have hremove : b.remove p = .ok (b.drop p o) := by
        rw [OrderBook.remove, deref_of_cell ho]
        rfl
      have hlk := h.tidy.indexed p o ho
      have hps' : ∀ q ∈ ps, ∃ r, (b.drop p o).heap.cells q = some r := fun q hq => by
        obtain ⟨r, hr⟩ := hps q hq
        exact ⟨r, by rw [cells_drop hlk, if_neg fun hqp : q = p => hp (hqp ▸ hq), hr]⟩
      obtain ⟨b', hb', hsound, hclear, hkeys⟩ := ih (h.drop ho) hps' hnd
      refine ⟨b', by rw [if_pos h0, hremove]; exact hb', hsound, fun hb => hclear ?_,
        fun px => (hkeys px).trans ?_⟩
      · refine clear_iff.mpr fun px q hq => ?_
        obtain ⟨hq, hqp⟩ := (h.tidy.mem_nodesAt_drop ho).mp hq
        obtain ⟨r, hr⟩ := clear_iff.mp hb px q hq
        exact ⟨r, by rw [cells_drop hlk, if_neg hqp, hr]⟩
      · rw [find?_levels_drop hlk]
        split
        · rw [Option.isSome_map]
        · rfl
    · obtain ⟨b', hb', hrest⟩ := ih h hps hnd
      exact ⟨b', by rw [if_neg h0]; exact hb', hrest⟩

/-- An empty level is erased on the way, and nothing else changes. -/
theorem Sound.without {px : Price} {l : PriceLevel} (h : Sound st.book) (hclear : st.book.Clear s)
    (hfind : (st.book.levels s).find? px = some l) (hempty : l.empty = true) :
    Sound (st.without s px).book ∧ (st.without s px).book.Clear s ∧
      ∀ py, py ≠ px → ((st.without s px).book.levels s).find? py = (st.book.levels s).find? py := by
  refine ⟨h.eraseEmpty hfind hempty, clear_iff.mpr fun py q hq => ?_, fun py hne => ?_⟩
  · rw [MatchState.without, nodesAt_erase hfind hempty] at hq
    obtain ⟨r, hr⟩ := clear_iff.mp hclear py q hq
    exact ⟨r, by rw [MatchState.without, heap_setLevels, hr]⟩
  · rw [MatchState.without, levels_setLevels, OrderedMap.find?_erase, if_neg hne]

/-- **The sweep of a ladder without strays returns.** -/
theorem Sound.walk_sweep {prices : List Price} (h : Sound st.book) (hclear : st.book.Clear s)
    (hnd : prices.Nodup)
    (hkeys : ∀ px ∈ prices, ((st.book.levels s).find? px).isSome = true) :
    ∃ st', OrderBook.walkFrom s (sweepLevel s) prices st = .ok st' ∧ Sound st'.book := by
  induction prices generalizing st with
  | nil => exact ⟨st, rfl, h⟩
  | cons px prices ih =>
    obtain ⟨hpx, hkeys⟩ := List.forall_mem_cons.mp hkeys
    obtain ⟨hoff, hnd⟩ := List.nodup_cons.mp hnd
    obtain ⟨l, hfind⟩ := Option.isSome_iff_exists.mp hpx
    -- whichever way the level goes, the prices still to visit are there
    have herase : ∀ {st : MatchState} {l : PriceLevel}, Sound st.book → st.book.Clear s →
        (∀ py ∈ prices, ((st.book.levels s).find? py).isSome = true) →
        (st.book.levels s).find? px = some l → l.empty = true →
        ∃ st', OrderBook.walkFrom s (sweepLevel s) prices (st.without s px) = .ok st' ∧
          Sound st'.book := by
      intro st l h hclear hkeys hfind hempty
      obtain ⟨h', hclear', hsame⟩ := h.without hclear hfind hempty
      refine ih h' hclear' hnd fun py hpy => ?_
      rw [hsame py fun he => hoff (he ▸ hpy)]
      exact hkeys py hpy
    rw [OrderBook.walkFrom, hfind]
    dsimp only
    by_cases hempty : l.empty = true
    · rw [if_pos hempty]
      exact herase h hclear hkeys hfind hempty
    have hnodes := nodesAt_of_find? hfind
    obtain ⟨b, hb, hsound, hclear', hsame⟩ := h.sweepQueue (s := s)
      (hnodes ▸ clear_iff.mp hclear px) (hnodes ▸ h.tidy.nodup s px)
    have hfn : sweepLevel s px st = .ok (true, { st with book := b }) := by
      simp only [sweepLevel, hfind, hb]
      rfl
    have hkeys' : ∀ py ∈ prices, ((b.levels s).find? py).isSome = true := fun py hpy =>
      (hsame py).trans (hkeys py hpy)
    obtain ⟨l', hfind'⟩ := Option.isSome_iff_exists.mp ((hsame px).trans hpx)
    rw [if_neg hempty, hfn]
    simp only [bind, Except.bind, hfind']
    by_cases hempty' : l'.empty = true
    · simp only [hempty']
      exact @herase { st with book := b } _ hsound (hclear' hclear) hkeys' hfind' hempty'
    · simp only [hempty']
      exact @ih { st with book := b } hsound (hclear' hclear) hnd hkeys'

/-- A sweep that returns read every node of its queue. -/
theorem live_of_sweepQueue {ps : List Ptr} {b b' : OrderBook}
    (h : Core.sweepQueue ps b = .ok b') : ∀ p ∈ ps, ∃ o, b.heap.cells p = some o := by
  induction ps generalizing b with
  | nil => exact fun p hp => absurd hp List.not_mem_nil
  | cons p ps ih =>
    obtain ⟨o, ho, h⟩ := exists_of_bind_eq_ok h
    refine List.forall_mem_cons.mpr ⟨⟨o, cell_of_deref ho⟩, ?_⟩
    split at h
    · obtain ⟨b₁, hremove, h⟩ := exists_of_bind_eq_ok h
      obtain ⟨o', -, hremove⟩ := exists_of_bind_eq_ok hremove
      obtain rfl := Except.ok.inj hremove
      intro q hq
      obtain ⟨r, hr⟩ := ih h q hq
      have hr' := eraseKey_cells.2 q r hr
      rw [OrderBook.modifyLevel, heap_setLevels] at hr'
      exact ⟨r, hr'⟩
    · exact ih h

/-- **A sweep of a ladder with a stray does not return.** -/
theorem not_walk_sweep_of_stray {prices : List Price} {st' : MatchState} {px : Price} {p : Ptr}
    (hst : Tidy True st.book) (hpx : px ∈ prices) (hp : p ∈ st.book.nodesAt s px)
    (hnone : st.book.heap.cells p = none) :
    OrderBook.walkFrom s (sweepLevel s) prices st ≠ .ok st' := by
  intro hw
  induction prices generalizing st with
  | nil => cases hpx
  | cons py prices ih =>
    -- what is done at one price leaves the stray for the others
    have hgo : ∀ {st₁ : MatchState}, ReflTransGen (Change s) st st₁ → py ≠ px →
        OrderBook.walkFrom s (sweepLevel s) prices st₁ ≠ .ok st' := by
      intro st₁ hchanges hne hw
      obtain ⟨hst₁, hp₁, hnone₁⟩ := stray_of_changes hchanges hst hp hnone
      exact ih hst₁ ((List.mem_cons.mp hpx).resolve_left hne.symm) hp₁ hnone₁ hw
    rw [OrderBook.walkFrom] at hw
    split at hw
    · cases hw
    rename_i l hfind
    have hnodes := nodesAt_of_find? hfind
    split at hw
    · rename_i hempty
      refine hgo (.single (.erase hfind hempty)) ?_ hw
      rintro rfl
      rw [hnodes, List.isEmpty_iff.mp hempty] at hp
      cases hp
    obtain ⟨⟨go, st₁⟩, hfn, hw⟩ := exists_of_bind_eq_ok hw
    have hne : py ≠ px := by
      rintro rfl
      rw [sweepLevel, hfind] at hfn
      obtain ⟨b, hsweep, -⟩ := exists_of_bind_eq_ok hfn
      obtain ⟨o, ho⟩ := live_of_sweepQueue hsweep p (hnodes ▸ hp)
      rw [hnone] at ho
      cases ho
    have hchanges := sweepLevel_changes hfn
    have hgo₁ : go = true := by
      rw [sweepLevel, hfind] at hfn
      obtain ⟨b, -, hfn⟩ := exists_of_bind_eq_ok hfn
      exact (Prod.mk.inj (Except.ok.inj hfn)).1.symm
    subst hgo₁
    dsimp only at hw
    split at hw
    · rename_i hf
      cases hf
    split at hw
    · cases hw
    rename_i hfind'
    split at hw
    · exact hgo (hchanges.tail (.erase hfind' ‹_›)) hne hw
    · exact hgo hchanges hne hw

end Walks

section Submit

variable {algo : MatchAlgo} {b : OrderBook} {o : Order}

/-- **A submit on a sound book**: it returns, to a sound book, exactly if
no node of the ladder it is matched against is a stray and the match there
stays in range. -/
theorem Sound.submit (h : Sound b) :
    (b.Clear o.side.book.opposite ∧ MatchDefined algo (b.ladder o.side.book.opposite) o ∧
      ∃ b' evs, Core.submit algo b o = .ok (b', evs) ∧ Sound b') ∨
    (¬ (b.Clear o.side.book.opposite ∧ MatchDefined algo (b.ladder o.side.book.opposite) o) ∧
      ∀ r, Core.submit algo b o ≠ .ok r) := by
  set opp := o.side.book.opposite with hopp
  rw [submit_eq, ← hopp]
  by_cases hclear : b.Clear opp
  · rcases @Sound.walk_match _ ⟨b, o, [.ack ⟨o.id, o.clordId⟩]⟩ algo h hclear with
      ⟨hdef, st₁, hmatch, h₁, hclear₁⟩ | ⟨hndef, hmatch⟩
    · obtain ⟨st₂, hsweep, h₂⟩ := h₁.walk_sweep hclear₁ (OrderedMap.nodup_keys _) fun px hpx => by
        obtain ⟨e, he, rfl⟩ := List.mem_map.mp hpx
        rw [find?_of_entry he]
        rfl
      refine .inl ⟨hclear, hdef, ?_⟩
      rw [hmatch]
      simp only [bind, Except.bind, OrderBook.walk, hsweep]
      split
      · exact ⟨_, _, rfl, h₂.rest _⟩
      · exact ⟨_, _, rfl, h₂⟩
    · refine .inr ⟨fun hcond => hndef hcond.2, fun r hr => ?_⟩
      rw [hmatch] at hr
      cases hr
  · refine .inr ⟨fun hcond => hclear hcond.1, fun r hr => ?_⟩
    obtain ⟨px, p, hp, hnone⟩ : ∃ px p, p ∈ b.nodesAt opp px ∧ b.heap.cells p = none := by
      simpa [clear_iff, Option.ne_none_iff_exists', ← Option.eq_none_iff_forall_ne_some] using hclear
    obtain ⟨st₁, hmatch, hr⟩ := exists_of_bind_eq_ok hr
    obtain ⟨st₂, hsweep, -⟩ := exists_of_bind_eq_ok hr
    obtain ⟨hst₁, hp₁, hnone₁⟩ := stray_of_changes
      (walkFrom_changes (fun _ _ _ _ => onLevel_changes) hmatch) h.tidy hp hnone
    obtain ⟨l, he, -⟩ := exists_entry_of_mem hp₁
    exact not_walk_sweep_of_stray hst₁ (List.mem_map_of_mem (f := Prod.fst) he) hp₁ hnone₁ hsweep

end Submit

end Core

end OrderbookFix
