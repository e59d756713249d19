import OrderbookFix.Common.Walk
/-!
# Chains with dead nodes

A walk can be followed to its end. A chain through nodes of which some are
gone cannot, but the nodes that are left still know their successors. A
trail says just that; it is what remains true of a chain however nodes of
it die, and where none has died it is a walk.
-/

namespace OrderbookFix

/-- **A trail**: it starts at the first node, and the link of each live
node is the next one. -/
structure Trail {ι : Type*} (live : ι → Prop) (link : ι → Option ι) (start : Option ι)
    (xs : List ι) : Prop where
  start_eq : start = xs.head?
  link_eq : ∀ pre a post, xs = pre ++ a :: post → live a → link a = post.head?

namespace Trail

variable {ι : Type*} {live live' : ι → Prop} {link link' : ι → Option ι} {start : Option ι}
variable {xs pre post : List ι} {o : ι}

theorem nil : Trail live link none [] :=
  ⟨rfl, fun pre a post he => by simp at he⟩

/-- With every node live, a trail is a walk. -/
theorem walk (h : Trail live link start xs) (hlive : ∀ a ∈ xs, live a) : Walk link start xs :=
  walk_iff.mpr ⟨h.start_eq, fun pre a post he => h.link_eq pre a post he (hlive a (by simp [he]))⟩

/-- Links off the trail do not matter, nor do those of nodes that die. -/
theorem congr (h : Trail live link start xs)
    (hlink : ∀ a ∈ xs, live' a → live a ∧ link' a = link a) : Trail live' link' start xs := by
  refine ⟨h.start_eq, fun pre a post he ha => ?_⟩
  obtain ⟨hl, heq⟩ := hlink a (by simp [he]) ha
  rw [heq, h.link_eq pre a post he hl]

/-- **A node at the front.** -/
theorem cons (h : Trail live link start xs) (ho : link' o = start)
    (hlink : ∀ a ∈ xs, live' a → live a ∧ link' a = link a) :
    Trail live' link' (some o) (o :: xs) := by
  refine ⟨rfl, fun pre a post he ha => ?_⟩
  cases pre with
  | nil =>
    obtain ⟨rfl, rfl⟩ := List.cons.inj he
    rw [ho, h.start_eq]
  | cons b pre => exact (h.congr hlink).link_eq pre a post (List.cons.inj he).2 ha

/-- **A node at the end**: the last node's link is turned to it. -/
theorem concat (h : Trail live link start xs) (hnd : xs.Nodup) (ho : link' o = none)
    (hlast : ∀ a, xs.getLast? = some a → link' a = some o)
    (hlink : ∀ a ∈ xs, xs.getLast? ≠ some a → live' a → live a ∧ link' a = link a) :
    Trail live' link' (xs ++ [o]).head? (xs ++ [o]) := by
  refine ⟨rfl, fun pre a post he ha => ?_⟩
  rcases List.eq_nil_or_concat post with rfl | ⟨post, b, rfl⟩
  · obtain ⟨rfl, hcons⟩ := List.append_inj' he rfl
    rw [← List.singleton_inj.mp hcons, ho]
    rfl
  rw [List.concat_eq_append, ← List.cons_append, ← List.append_assoc] at he
  obtain ⟨rfl, hcons⟩ := List.append_inj' he rfl
  obtain rfl := List.singleton_inj.mp hcons
  rw [List.concat_eq_append]
  cases post with
  | nil => exact hlast a List.getLast?_concat
  | cons c post =>
    have hne := getLast?_ne_of_nodup pre (List.nodup_append.mp hnd).2.1 (List.cons_ne_nil c post)
    obtain ⟨hl, heq⟩ := hlink a (by simp) hne ha
    rw [heq, h.link_eq pre a _ rfl hl]
    rfl

/-- **A node taken out**: the link before it is turned to the one
after. -/
theorem remove (h : Trail live link start (pre ++ o :: post)) (hnd : (pre ++ o :: post).Nodup)
    (hlast : ∀ a, pre.getLast? = some a → link' a = post.head?)
    (hlink : ∀ a ∈ pre ++ post, pre.getLast? ≠ some a → live' a → live a ∧ link' a = link a) :
    Trail live' link' (pre ++ post).head? (pre ++ post) := by
  obtain ⟨hpre, -, hapart⟩ := List.nodup_append.mp hnd
  refine ⟨rfl, fun pre₁ a post₁ he ha => ?_⟩
  rcases append_eq_append_cons he with ⟨c, rfl, rfl⟩ | ⟨c, rfl, rfl⟩
  · -- a node before the one taken out: it is the last of them or its link stays
    cases c with
    | nil => rw [hlast a List.getLast?_concat, List.nil_append]
    | cons d c =>
      have hne := getLast?_ne_of_nodup pre₁ (List.nodup_append.mp hpre).2.1
        (List.cons_ne_nil d c)
      obtain ⟨hl, heq⟩ := hlink a (by simp) hne ha
      rw [heq, h.link_eq pre₁ a (d :: c ++ o :: post) (by simp) hl]
      rfl
  · have hmem : a ∈ c ++ a :: post₁ := by simp
    have hne : pre.getLast? ≠ some a := fun hl =>
      hapart a (List.mem_of_getLast? hl) a (List.mem_cons_of_mem _ hmem) rfl
    obtain ⟨hl, heq⟩ := hlink a (List.mem_append_right _ hmem) hne ha
    rw [heq, h.link_eq (pre ++ o :: c) a post₁ (by simp) hl]

end Trail

end OrderbookFix
