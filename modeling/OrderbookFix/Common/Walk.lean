import Mathlib.Data.List.Nodup
/-!
# Walks along links

A chain of nodes is read by following one link after another until there
is none. What a walk visits is decided locally: it starts at the first
node, and every node's link names its successor. So a walk survives a
change of links that keeps to that, which is how a node is added to the
end of a chain or taken out of the middle of it.
-/

namespace OrderbookFix

/-- **A walk**: from `start`, the links lead through these nodes and end. -/
inductive Walk {ι : Type*} (link : ι → Option ι) : Option ι → List ι → Prop
  | done : Walk link none []
  | step {a : ι} {xs : List ι} (h : Walk link (link a) xs) : Walk link (some a) (a :: xs)

section Walk

variable {ι : Type*} {link link' : ι → Option ι} {start start' : Option ι} {a o : ι}
variable {xs pre post : List ι}

/-- A start and its links decide what is visited. -/
theorem Walk.unique (h : Walk link start xs) {ys : List ι} (h' : Walk link start ys) :
    xs = ys := by
  induction h generalizing ys with
  | done => cases h'; rfl
  | step _ ih =>
    cases h' with
    | step h' => rw [ih h']

theorem Walk.iff_eq (h : Walk link start xs) {ys : List ι} : Walk link start ys ↔ ys = xs :=
  ⟨fun h' => h'.unique h, fun he => he ▸ h⟩

/-- **A walk, locally**: it starts at the first node, and the link of
each node is the next. -/
theorem walk_iff :
    Walk link start xs ↔
      start = xs.head? ∧ ∀ pre a post, xs = pre ++ a :: post → link a = post.head? := by
  constructor
  · intro h
    induction h with
    | done => exact ⟨rfl, fun pre a post he => by simp at he⟩
    | @step b ys _ ih =>
      refine ⟨rfl, fun pre a post he => ?_⟩
      cases pre with
      | nil =>
        obtain ⟨rfl, rfl⟩ := List.cons.inj he
        exact ih.1
      | cons c pre => exact ih.2 pre a post (List.cons.inj he).2
  · rintro ⟨rfl, hlinks⟩
    induction xs with
    | nil => exact .done
    | cons b ys ih =>
      refine .step ?_
      rw [hlinks [] b ys rfl]
      exact ih fun pre a post he => hlinks (b :: pre) a post (by rw [he]; rfl)

theorem Walk.start_eq (h : Walk link start xs) : start = xs.head? := (walk_iff.mp h).1

theorem Walk.link_eq (h : Walk link start (pre ++ a :: post)) : link a = post.head? :=
  (walk_iff.mp h).2 pre a post rfl

/-- Links off the walk do not matter. -/
theorem Walk.congr (h : Walk link start xs) (hlink : ∀ a ∈ xs, link' a = link a) :
    Walk link' start xs := by
  obtain ⟨hstart, hlinks⟩ := walk_iff.mp h
  refine walk_iff.mpr ⟨hstart, fun pre a post he => ?_⟩
  rw [hlink a (by simp [he]), hlinks pre a post he]

/-- **A node at the front.** -/
theorem Walk.cons (h : Walk link start xs) (ho : link' o = start)
    (hlink : ∀ a ∈ xs, link' a = link a) : Walk link' (some o) (o :: xs) := by
  refine .step ?_
  rw [ho]
  exact h.congr hlink

/-- The last node of a list is no node before it. -/
theorem getLast?_ne_of_nodup (pre : List ι) {ys : List ι} (hnd : (a :: ys).Nodup) (hne : ys ≠ []) :
    (pre ++ a :: ys).getLast? ≠ some a := by
  obtain ⟨ha, -⟩ := List.nodup_cons.mp hnd
  rw [List.getLast?_append_of_ne_nil _ (List.cons_ne_nil a ys), List.getLast?_cons,
    List.getLast?_eq_some_getLast hne]
  intro he
  exact ha (Option.some.inj he ▸ List.getLast_mem hne)

/-- **A node at the end**: the last node's link is turned to it. -/
theorem Walk.concat (h : Walk link start xs) (hnd : xs.Nodup) (ho : link' o = none)
    (hlast : ∀ a, xs.getLast? = some a → link' a = some o)
    (hlink : ∀ a ∈ xs, xs.getLast? ≠ some a → link' a = link a) :
    Walk link' (xs ++ [o]).head? (xs ++ [o]) := by
  refine walk_iff.mpr ⟨rfl, fun pre a post he => ?_⟩
  rcases List.eq_nil_or_concat post with rfl | ⟨post, b, rfl⟩
  · obtain ⟨rfl, hcons⟩ := List.append_inj' he rfl
    rw [← List.singleton_inj.mp hcons, ho]
    rfl
  rw [List.concat_eq_append, ← List.cons_append, ← List.append_assoc] at he
  obtain ⟨rfl, hcons⟩ := List.append_inj' he rfl
  obtain rfl := List.singleton_inj.mp hcons
  rw [List.concat_eq_append]
  cases post with
  | nil => exact hlast a List.getLast?_concat
  | cons c post =>
    have hne := getLast?_ne_of_nodup pre (List.nodup_append.mp hnd).2.1
      (List.cons_ne_nil c post)
    rw [hlink a (by simp) hne]
    exact h.link_eq

/-- An element of two lists in a row is in the one or in the other. -/
theorem append_eq_append_cons {ys zs : List ι} (h : xs ++ ys = pre ++ a :: zs) :
    (∃ c, xs = pre ++ a :: c ∧ zs = c ++ ys) ∨ ∃ c, ys = c ++ a :: zs ∧ pre = xs ++ c := by
  rcases List.append_eq_append_iff.mp h with ⟨c, hpre, hys⟩ | ⟨c, hxs, hzs⟩
  · exact .inr ⟨c, hys, hpre⟩
  cases c with
  | nil => exact .inr ⟨[], hzs.symm, by rw [hxs]; simp⟩
  | cons b c =>
    obtain ⟨rfl, rfl⟩ := List.cons.inj hzs
    exact .inl ⟨c, hxs, rfl⟩

/-- **A node taken out**: the link before it is turned to the one
after. -/
theorem Walk.remove (h : Walk link start (pre ++ o :: post)) (hnd : (pre ++ o :: post).Nodup)
    (hlast : ∀ a, pre.getLast? = some a → link' a = link o)
    (hlink : ∀ a ∈ pre ++ post, pre.getLast? ≠ some a → link' a = link a) :
    Walk link' (pre ++ post).head? (pre ++ post) := by
  obtain ⟨hpre, -, hapart⟩ := List.nodup_append.mp hnd
  have ho : link o = post.head? := h.link_eq
  refine walk_iff.mpr ⟨rfl, fun pre₁ a post₁ he => ?_⟩
  rcases append_eq_append_cons he with ⟨c, rfl, rfl⟩ | ⟨c, rfl, rfl⟩
  · -- a node before the one taken out: it is the last of them or its link stays
    cases c with
    | nil => rw [hlast a List.getLast?_concat, ho, List.nil_append]
    | cons d c =>
      have hne := getLast?_ne_of_nodup pre₁ (List.nodup_append.mp hpre).2.1
        (List.cons_ne_nil d c)
      rw [hlink a (by simp) hne]
      rw [List.append_assoc] at h
      exact h.link_eq
  · have hmem : a ∈ c ++ a :: post₁ := by simp
    have hne : pre.getLast? ≠ some a := fun hl =>
      hapart a (List.mem_of_getLast? hl) a (List.mem_cons_of_mem _ hmem) rfl
    rw [hlink a (List.mem_append_right _ hmem) hne]
    rw [← List.cons_append, ← List.append_assoc] at h
    exact h.link_eq

end Walk

end OrderbookFix
