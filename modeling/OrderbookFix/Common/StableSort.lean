import Mathlib.Data.List.Sort
import Mathlib.Order.RelClasses
/-!
# Sorting by a key

A list put in order of a key, where items of one key keep the order they
came in. The outcome is told from the items of each key: a list in order
of its keys that has the same items for every key, in the same order, is
the sorted one.
-/

namespace OrderbookFix

variable {α κ : Type*} (r : κ → κ → Prop) [DecidableRel r] (key : α → κ)

/-- **Sort by a key**, the first for `r` at the head. -/
def stableSort (l : List α) : List α := l.insertionSort fun a b => ¬ r (key b) (key a)

/-- A list is in order of its keys. -/
def KeySorted (l : List α) : Prop := l.Pairwise fun a b => ¬ r (key b) (key a)

theorem perm_stableSort (l : List α) : (stableSort r key l).Perm l := List.perm_insertionSort _ l

section Order

variable [IsStrictTotalOrder κ r]

theorem keySorted_stableSort (l : List α) : KeySorted r key (stableSort r key l) := by
  have htotal : Std.Total fun a b => ¬ r (key b) (key a) :=
    ⟨fun a b => or_iff_not_imp_left.mpr fun hab hba => asymm_of r (not_not.mp hab) hba⟩
  have htrans : IsTrans α fun a b => ¬ r (key b) (key a) := by
    refine ⟨fun a b c hab hbc hca => ?_⟩
    rcases trichotomous_of r (key a) (key b) with h | h | h
    · exact hbc (trans_of r hca h)
    · exact hbc (h ▸ hca)
    · exact hab h
  exact List.pairwise_insertionSort _ l

/-- **The items of a key keep their order.** -/
theorem filter_stableSort [DecidableEq κ] (l : List α) (k : κ) :
    (stableSort r key l).filter (fun a => key a = k) = l.filter fun a => key a = k := by
  have hkey : ∀ a ∈ l.filter (fun a => key a = k), key a = k := fun a ha => by
    simpa using (List.mem_filter.mp ha).2
  have hsub : (l.filter fun a => key a = k).Sublist (stableSort r key l) := by
    refine List.sublist_insertionSort ?_ List.filter_sublist
    refine List.pairwise_of_forall_mem_list fun a ha b hb => ?_
    rw [hkey a ha, hkey b hb]
    exact irrefl_of r k
  have hsub' := hsub.filter fun a => key a = k
  rw [List.filter_eq_self.mpr fun a ha => decide_eq_true (hkey a ha)] at hsub'
  refine (hsub'.eq_of_length ?_).symm
  exact (((perm_stableSort r key l).filter _).length_eq).symm

omit [DecidableRel r] [IsStrictTotalOrder κ r] in
theorem mem_iff_of_filter [DecidableEq κ] {l l' : List α}
    (h : ∀ k, (l.filter fun a => key a = k) = l'.filter fun a => key a = k) (a : α) :
    a ∈ l ↔ a ∈ l' := by
  have hk := congrArg (a ∈ ·) (h (key a))
  simpa using hk

omit [DecidableRel r] in
/-- **A list in order of its keys is told by the items of each key.** -/
theorem KeySorted.eq_of_filter [DecidableEq κ] {l l' : List α} (hl : KeySorted r key l)
    (hl' : KeySorted r key l')
    (h : ∀ k, (l.filter fun a => key a = k) = l'.filter fun a => key a = k) : l = l' := by
  induction l generalizing l' with
  | nil =>
    have hmem := mem_iff_of_filter key h
    rcases l' with _ | ⟨b, l'⟩
    · rfl
    · exact absurd ((hmem b).mpr (List.mem_cons_self ..)) List.not_mem_nil
  | cons a l ih =>
    have hmem := mem_iff_of_filter key h
    rcases l' with _ | ⟨b, l'⟩
    · exact absurd ((hmem a).mp (List.mem_cons_self ..)) List.not_mem_nil
    obtain ⟨hal, htail⟩ := List.pairwise_cons.mp hl
    obtain ⟨hbl, htail'⟩ := List.pairwise_cons.mp hl'
    -- neither head comes after the other, so they have one key, and are its first item
    have hab : key a = key b := by
      have h1 : ¬ r (key b) (key a) := by
        rcases List.mem_cons.mp ((hmem b).mpr (List.mem_cons_self ..)) with hb | hb
        · rw [hb]
          exact irrefl_of r _
        · exact hal b hb
      have h2 : ¬ r (key a) (key b) := by
        rcases List.mem_cons.mp ((hmem a).mp (List.mem_cons_self ..)) with ha | ha
        · rw [ha]
          exact irrefl_of r _
        · exact hbl a ha
      rcases trichotomous_of r (key a) (key b) with hlt | heq | hgt
      · exact absurd hlt h2
      · exact heq
      · exact absurd hgt h1
    have hhead := h (key a)
    rw [List.filter_cons_of_pos (by simp), List.filter_cons_of_pos (by simp [hab])] at hhead
    obtain ⟨rfl, -⟩ := List.cons.inj hhead
    have hrest : ∀ k, (l.filter fun a => key a = k) = l'.filter fun a => key a = k := by
      intro k
      have hk := h k
      by_cases hak : key a = k
      · rw [List.filter_cons_of_pos (by simpa using hak),
          List.filter_cons_of_pos (by simpa using hak)] at hk
        exact (List.cons.inj hk).2
      · rwa [List.filter_cons_of_neg (by simpa using hak),
          List.filter_cons_of_neg (by simpa using hak)] at hk
    rw [ih htail htail' hrest]

/-- **The sorted list**, from the items of each key. -/
theorem stableSort_eq [DecidableEq κ] {l l' : List α} (hl' : KeySorted r key l')
    (h : ∀ k, (l.filter fun a => key a = k) = l'.filter fun a => key a = k) :
    stableSort r key l = l' :=
  KeySorted.eq_of_filter r key (keySorted_stableSort r key l) hl' fun k => by
    rw [filter_stableSort, h]

end Order

end OrderbookFix
