import Mathlib.Order.RelClasses
import Mathlib.Data.List.Basic
/-!
# A map kept in order of its keys

The container behind `std::map`: the entries sit in a list, strictly
increasing for the comparator, and that they do is a field. A traversal
splits the entries at the position it has reached, so the lemmas read
every operation at such a split.
-/

namespace OrderbookFix

/-- **An ordered map**: entries strictly sorted by `r`. -/
@[ext] structure OrderedMap (κ ν : Type*) (r : κ → κ → Prop) where
  entries : List (κ × ν)
  sorted : entries.Pairwise fun a b => r a.1 b.1

namespace OrderedMap

variable {κ ν : Type*} {r : κ → κ → Prop}

/-- The map with no entry. -/
def empty : OrderedMap κ ν r := ⟨[], List.Pairwise.nil⟩

variable [DecidableEq κ]

/-- The value under a key. -/
def find? (m : OrderedMap κ ν r) (k : κ) : Option ν :=
  (m.entries.find? fun e => e.1 = k).map Prod.snd

/-- Change the value under a key, where there is one. -/
def modify (m : OrderedMap κ ν r) (k : κ) (f : ν → ν) : OrderedMap κ ν r where
  entries := m.entries.map fun e => if e.1 = k then (e.1, f e.2) else e
  sorted := by
    rw [List.pairwise_map]
    refine m.sorted.imp fun {a b} hab => ?_
    split <;> split <;> exact hab

/-- Drop a key. -/
def erase (m : OrderedMap κ ν r) (k : κ) : OrderedMap κ ν r where
  entries := m.entries.filter fun e => e.1 ≠ k
  sorted := m.sorted.filter _

/-! ## Lookups after a change -/

theorem keys_modify (m : OrderedMap κ ν r) (k : κ) (f : ν → ν) :
    (m.modify k f).entries.map Prod.fst = m.entries.map Prod.fst := by
  rw [modify, List.map_map]
  refine List.map_congr_left fun e _ => ?_
  simp only [Function.comp_apply]
  split <;> rfl

theorem keys_erase (m : OrderedMap κ ν r) (k : κ) :
    (m.erase k).entries.map Prod.fst = (m.entries.map Prod.fst).filter (· ≠ k) := by
  rw [erase, List.filter_map]
  rfl

theorem find?_modify (m : OrderedMap κ ν r) (k k' : κ) (f : ν → ν) :
    (m.modify k f).find? k' = if k' = k then (m.find? k).map f else m.find? k' := by
  have hkey : ∀ e : κ × ν, (if e.1 = k then (e.1, f e.2) else e).1 = e.1 := by
    intro e
    split <;> rfl
  rw [find?, modify, List.find?_map, Option.map_map]
  simp only [Function.comp_def, hkey]
  by_cases hk : k' = k
  · subst hk
    rw [if_pos rfl, find?, Option.map_map]
    refine Option.map_congr fun e he => ?_
    have he' : e.1 = k' := by simpa using List.find?_some he
    rw [if_pos he', Function.comp_apply]
  · rw [if_neg hk]
    refine Option.map_congr fun e he => ?_
    have he' : e.1 = k' := by simpa using List.find?_some he
    rw [if_neg fun hc => hk (he'.symm.trans hc)]

theorem find?_erase (m : OrderedMap κ ν r) (k k' : κ) :
    (m.erase k).find? k' = if k' = k then none else m.find? k' := by
  rw [find?, erase, List.find?_filter]
  by_cases hk : k' = k
  · rw [if_pos hk, Option.map_eq_none_iff, List.find?_eq_none]
    intro e _
    simp [hk]
  · rw [if_neg hk, find?]
    congr 2
    funext e
    by_cases he : e.1 = k'
    · simp [he, hk]
    · simp [he]

/-! ## At a split -/

section Split

variable [Std.Irrefl r] {m : OrderedMap κ ν r} {pre post : List (κ × ν)} {k : κ} {v : ν}

omit [DecidableEq κ] in
/-- The key of a split is in neither half. -/
theorem ne_of_split (h : m.entries = pre ++ (k, v) :: post) :
    (∀ e ∈ pre, e.1 ≠ k) ∧ ∀ e ∈ post, e.1 ≠ k := by
  have hs := m.sorted
  rw [h, List.pairwise_append] at hs
  obtain ⟨-, h2, h3⟩ := hs
  refine ⟨fun e he hk => ?_, fun e he hk => ?_⟩
  · have := h3 e he (k, v) (List.mem_cons_self ..)
    rw [hk] at this
    exact Std.Irrefl.irrefl k this
  · have := (List.pairwise_cons.mp h2).1 e he
    rw [hk] at this
    exact Std.Irrefl.irrefl k this

omit [DecidableEq κ] in
theorem nodup_keys (m : OrderedMap κ ν r) : (m.entries.map Prod.fst).Nodup := by
  refine List.pairwise_map.mpr (m.sorted.imp fun {a b} hab hc => ?_)
  rw [hc] at hab
  exact Std.Irrefl.irrefl _ hab

theorem find?_of_split (h : m.entries = pre ++ (k, v) :: post) : m.find? k = some v := by
  have hpre : pre.find? (fun e => e.1 = k) = none := by
    rw [List.find?_eq_none]
    intro e he
    simpa using (ne_of_split h).1 e he
  rw [find?, h, List.find?_append, hpre]
  simp

omit [Std.Irrefl r] in
theorem exists_split_of_find? (h : m.find? k = some v) :
    ∃ pre post, m.entries = pre ++ (k, v) :: post := by
  obtain ⟨e, he, rfl⟩ := Option.map_eq_some_iff.mp h
  obtain ⟨hk, pre, post, hsplit, -⟩ := List.find?_eq_some_iff_append.mp he
  have hk' : e.1 = k := by simpa using hk
  exact ⟨pre, post, by rw [hsplit, ← hk']⟩

omit [Std.Irrefl r] in
theorem map_of_ne {l : List (κ × ν)} {f : ν → ν} (h : ∀ e ∈ l, e.1 ≠ k) :
    (l.map fun e => if e.1 = k then (e.1, f e.2) else e) = l := by
  conv_rhs => rw [← List.map_id l]
  exact List.map_congr_left fun e he => if_neg (h e he)

theorem modify_of_split {f : ν → ν} (h : m.entries = pre ++ (k, v) :: post) :
    (m.modify k f).entries = pre ++ (k, f v) :: post := by
  obtain ⟨hpre, hpost⟩ := ne_of_split h
  change (m.entries.map fun e => if e.1 = k then (e.1, f e.2) else e) = _
  rw [h]
  simp only [List.map_append, List.map_cons, if_true]
  rw [map_of_ne hpre, map_of_ne hpost]

/-- Putting back what is there changes nothing. -/
theorem modify_same (h : m.find? k = some v) : (m.modify k fun _ => v) = m := by
  obtain ⟨pre, post, hsplit⟩ := exists_split_of_find? h
  refine OrderedMap.ext ?_
  rw [modify_of_split hsplit, hsplit]

theorem erase_of_split (h : m.entries = pre ++ (k, v) :: post) :
    (m.erase k).entries = pre ++ post := by
  obtain ⟨hpre, hpost⟩ := ne_of_split h
  change m.entries.filter (fun e => e.1 ≠ k) = _
  rw [h]
  simp only [List.filter_append, List.filter_cons, ne_eq, not_true_eq_false, decide_false]
  rw [List.filter_eq_self.mpr (by simpa using hpre), List.filter_eq_self.mpr (by simpa using hpost)]
  simp

end Split

/-! ## Insertion -/

variable [DecidableRel r]

/-- Insert a value under a key at its place, or change the one there:
`f` applied to the entry that `operator[]` finds or default-constructs. -/
def upsertList (k : κ) (new : ν) (f : ν → ν) : List (κ × ν) → List (κ × ν)
  | [] => [(k, f new)]
  | e :: rest =>
    if e.1 = k then (e.1, f e.2) :: rest
    else if r k e.1 then (k, f new) :: e :: rest
    else e :: upsertList k new f rest

theorem mem_upsertList {k : κ} {new : ν} {f : ν → ν} {l : List (κ × ν)} {e : κ × ν}
    (h : e ∈ upsertList (r := r) k new f l) : e.1 = k ∨ e ∈ l := by
  induction l with
  | nil => simp_all [upsertList]
  | cons a rest ih =>
    rw [upsertList] at h
    split at h
    · rcases List.mem_cons.mp h with rfl | h
      · exact Or.inl ‹_›
      · exact Or.inr (List.mem_cons_of_mem _ h)
    · split at h
      · rcases List.mem_cons.mp h with rfl | h
        · exact Or.inl rfl
        · exact Or.inr h
      · rcases List.mem_cons.mp h with rfl | h
        · exact Or.inr (List.mem_cons_self ..)
        · exact (ih h).imp id (List.mem_cons_of_mem _)

theorem sorted_upsertList [IsStrictTotalOrder κ r] {k : κ} {new : ν} {f : ν → ν}
    {l : List (κ × ν)} (h : l.Pairwise fun a b => r a.1 b.1) :
    (upsertList (r := r) k new f l).Pairwise fun a b => r a.1 b.1 := by
  induction l with
  | nil => simp [upsertList]
  | cons a rest ih =>
    obtain ⟨ha, hrest⟩ := List.pairwise_cons.mp h
    rw [upsertList]
    split
    · exact List.pairwise_cons.mpr ⟨ha, hrest⟩
    · split
      · refine List.pairwise_cons.mpr ⟨fun b hb => ?_, h⟩
        rcases List.mem_cons.mp hb with rfl | hb
        · assumption
        · exact trans_of r ‹_› (ha b hb)
      · refine List.pairwise_cons.mpr ⟨fun b hb => ?_, ih hrest⟩
        rcases mem_upsertList hb with hk | hb
        · rw [hk]
          rcases trichotomous_of r a.1 k with hlt | heq | hgt
          · exact hlt
          · exact absurd heq ‹_›
          · exact absurd hgt ‹_›
        · exact ha b hb

/-- `map[k]`, then `f` on the entry it refers to. -/
def upsert [IsStrictTotalOrder κ r] (m : OrderedMap κ ν r) (k : κ) (new : ν)
    (f : ν → ν) : OrderedMap κ ν r where
  entries := upsertList (r := r) k new f m.entries
  sorted := sorted_upsertList m.sorted

theorem find?_upsertList [IsStrictTotalOrder κ r] {l : List (κ × ν)}
    (h : l.Pairwise fun a b => r a.1 b.1) (k k' : κ) (new : ν) (f : ν → ν) :
    ((upsertList (r := r) k new f l).find? fun e => e.1 = k').map Prod.snd =
      if k' = k then some (f (((l.find? fun e => e.1 = k).map Prod.snd).getD new))
      else (l.find? fun e => e.1 = k').map Prod.snd := by
  induction l with
  | nil => by_cases hk : k' = k <;> simp [upsertList, hk, eq_comm]
  | cons a rest ih =>
    obtain ⟨ha, hrest⟩ := List.pairwise_cons.mp h
    rw [upsertList]
    split
    · rename_i hak
      by_cases hk : k' = k
      · simp [hak, hk]
      · have hne : ¬ a.1 = k' := fun hc => hk (hc.symm.trans hak)
        simp [hne, hk]
    · rename_i hak
      split
      · rename_i hlt
        by_cases hk : k' = k
        · -- the key comes before every entry, so it was not there
          have hnone : (a :: rest).find? (fun e => e.1 = k) = none := by
            refine List.find?_eq_none.mpr fun e he => ?_
            rcases List.mem_cons.mp he with rfl | he
            · simpa using hak
            · simp only [decide_eq_true_eq]
              rintro rfl
              exact irrefl_of r _ (trans_of r hlt (ha e he))
          rw [if_pos hk, hnone]
          simp [hk]
        · have hne : ¬ k = k' := fun hc => hk hc.symm
          simp [hne, hk]
      · by_cases hk' : a.1 = k'
        · have hne : ¬ k' = k := fun hc => hak (hk'.trans hc)
          simp [hk', hne]
        · rw [List.find?_cons_of_neg (by simpa using hk'), ih hrest,
            List.find?_cons_of_neg (by simpa using hak), List.find?_cons_of_neg (by simpa using hk')]

theorem find?_upsert [IsStrictTotalOrder κ r] (m : OrderedMap κ ν r) (k k' : κ) (new : ν)
    (f : ν → ν) :
    (m.upsert k new f).find? k' =
      if k' = k then some (f ((m.find? k).getD new)) else m.find? k' :=
  find?_upsertList m.sorted k k' new f

/-- Insertion respects a correspondence of the values, entry by entry. -/
theorem forall₂_upsertList {μ : Type*} {R : ν → μ → Prop} {k : κ} {new : ν} {new' : μ}
    {f : ν → ν} {g : μ → μ} {l : List (κ × ν)} {l' : List (κ × μ)}
    (h : List.Forall₂ (fun a b => a.1 = b.1 ∧ R a.2 b.2) l l')
    (hnew : R (f new) (g new')) (hf : ∀ v w, (k, w) ∈ l' → R v w → R (f v) (g w)) :
    List.Forall₂ (fun a b => a.1 = b.1 ∧ R a.2 b.2) (upsertList (r := r) k new f l)
      (upsertList (r := r) k new' g l') := by
  induction h with
  | nil => exact List.Forall₂.cons ⟨rfl, hnew⟩ List.Forall₂.nil
  | @cons a b l l' hab hl ih =>
    rw [upsertList, upsertList, hab.1]
    split
    · rename_i hk
      have hmem : (k, b.2) ∈ b :: l' := by
        rw [← hk]
        exact List.mem_cons_self ..
      exact List.Forall₂.cons ⟨rfl, hf _ _ hmem hab.2⟩ hl
    · split
      · exact List.Forall₂.cons ⟨rfl, hnew⟩ (List.Forall₂.cons hab hl)
      · exact List.Forall₂.cons hab (ih fun v w hw => hf v w (List.mem_cons_of_mem _ hw))

/-- The keys after an insertion are a matter of the keys before it. -/
theorem keys_upsertList {μ : Type*} {k : κ} {new : ν} {new' : μ} {f : ν → ν} {g : μ → μ}
    {l : List (κ × ν)} {l' : List (κ × μ)} (h : l.map Prod.fst = l'.map Prod.fst) :
    (upsertList (r := r) k new f l).map Prod.fst =
      (upsertList (r := r) k new' g l').map Prod.fst := by
  induction l generalizing l' with
  | nil =>
    obtain rfl : l' = [] := by simpa using h.symm
    rfl
  | cons a l ih =>
    obtain _ | ⟨b, l'⟩ := l'
    · cases h
    obtain ⟨hab, hl⟩ := List.cons.inj h
    rw [upsertList, upsertList, ← show a.1 = b.1 from hab]
    split
    · rw [List.map_cons, List.map_cons, hl]
    · split
      · rw [List.map_cons, List.map_cons, List.map_cons, List.map_cons, hl]
        exact congrArg _ (congrArg (· :: _) hab)
      · rw [List.map_cons, List.map_cons, ih hl]
        exact congrArg (· :: _) hab

/-- Insertion adds one item to those the values hold, where `f` adds it
to a value. -/
theorem flatMap_upsertList_perm {β : Type*} {g : ν → List β} {x : β} {k : κ} {new : ν}
    {f : ν → ν} (hnew : g new = []) (hf : ∀ v, (g (f v)).Perm (x :: g v)) (l : List (κ × ν)) :
    ((upsertList (r := r) k new f l).flatMap fun e => g e.2).Perm
      (x :: l.flatMap fun e => g e.2) := by
  have hfnew : (g (f new)).Perm [x] := hnew ▸ hf new
  induction l with
  | nil =>
    simp only [upsertList, List.flatMap_cons, List.flatMap_nil, List.append_nil]
    exact hfnew
  | cons e rest ih =>
    rw [upsertList]
    split
    · simp only [List.flatMap_cons]
      exact (hf e.2).append_right _
    · split
      · simp only [List.flatMap_cons]
        exact hfnew.append_right _
      · simp only [List.flatMap_cons]
        exact (ih.append_left _).trans List.perm_middle

/-! ## Renaming the keys -/

section Relabel

variable {κ' : Type*} {r' : κ' → κ' → Prop} [DecidableEq κ']

/-- The map under other keys, in the same places. -/
def relabel (g : κ → κ') (hg : ∀ a b, r a b ↔ r' (g a) (g b)) (m : OrderedMap κ ν r) :
    OrderedMap κ' ν r' where
  entries := m.entries.map fun e => (g e.1, e.2)
  sorted := by
    rw [List.pairwise_map]
    exact m.sorted.imp fun {a b} hab => (hg a.1 b.1).mp hab

variable {g : κ → κ'} {hg : ∀ a b, r a b ↔ r' (g a) (g b)} (hinj : Function.Injective g)
  (m : OrderedMap κ ν r) (k : κ)
include hinj

omit [DecidableRel r] in
theorem find?_relabel : (m.relabel g hg).find? (g k) = m.find? k := by
  unfold find? relabel
  dsimp only
  rw [List.find?_map, Option.map_map]
  simp only [Function.comp_def, hinj.eq_iff]

omit [DecidableRel r] in
theorem modify_relabel (f : ν → ν) :
    (m.relabel g hg).modify (g k) f = (m.modify k f).relabel g hg := by
  refine OrderedMap.ext ?_
  unfold modify relabel
  dsimp only
  rw [List.map_map, List.map_map]
  refine List.map_congr_left fun e _ => ?_
  dsimp only [Function.comp_apply]
  by_cases he : e.1 = k
  · rw [if_pos (congrArg g he), if_pos he]
  · rw [if_neg (fun h => he (hinj h)), if_neg he]

omit [DecidableRel r] in
theorem erase_relabel : (m.relabel g hg).erase (g k) = (m.erase k).relabel g hg := by
  refine OrderedMap.ext ?_
  unfold erase relabel
  dsimp only
  rw [List.filter_map]
  simp only [Function.comp_def, ne_eq, hinj.eq_iff]

theorem upsertList_map [DecidableRel r'] (new : ν) (f : ν → ν) (hg : ∀ a b, r a b ↔ r' (g a) (g b))
    (l : List (κ × ν)) :
    upsertList (r := r') (g k) new f (l.map fun e => (g e.1, e.2)) =
      (upsertList (r := r) k new f l).map fun e => (g e.1, e.2) := by
  induction l with
  | nil => rfl
  | cons e l ih =>
    rw [List.map_cons, upsertList, upsertList]
    by_cases he : e.1 = k
    · rw [if_pos (congrArg g he), if_pos he, List.map_cons]
    rw [if_neg (fun h => he (hinj h)), if_neg he]
    by_cases hlt : r k e.1
    · rw [if_pos ((hg _ _).mp hlt), if_pos hlt, List.map_cons, List.map_cons]
    · rw [if_neg (fun h => hlt ((hg _ _).mpr h)), if_neg hlt, List.map_cons, ih]

theorem upsert_relabel [DecidableRel r'] [IsStrictTotalOrder κ r] [IsStrictTotalOrder κ' r'] (new : ν)
    (f : ν → ν) :
    (m.relabel g hg).upsert (g k) new f = (m.upsert k new f).relabel g hg :=
  OrderedMap.ext (upsertList_map hinj k new f hg m.entries)

end Relabel

end OrderedMap

end OrderbookFix
