import Mathlib.Algebra.BigOperators.Group.List.Basic
import Mathlib.Algebra.GroupWithZero.Nat
import Mathlib.Algebra.Order.BigOperators.Group.List
import Mathlib.Algebra.Order.Group.Nat
import Mathlib.Data.List.Forall2
/-!
# Allocations

A quantity shared out over a queue of demands: nobody gets more than was
asked for, and the whole of what is available goes unless the demands run
out first. The ways to build one here are topping up shares that are
short of it, head to tail, serving the demands head to tail from the
start, and going down a list of queues, each served with what the queues
before it left.
-/

namespace OrderbookFix

/-- **An allocation** of `avail` over the demands `qs`. -/
structure IsAlloc (avail : ℕ) (qs fs : List ℕ) : Prop where
  le : List.Forall₂ (· ≤ ·) fs qs
  sum : fs.sum = min avail qs.sum

theorem sum_le_of_forall₂ {fs qs : List ℕ} (h : List.Forall₂ (· ≤ ·) fs qs) :
    fs.sum ≤ qs.sum := by
  induction h with
  | nil => exact Nat.le_refl _
  | cons hle _ ih =>
    rw [List.sum_cons, List.sum_cons]
    omega

/-- Shares that add up to the demands are the demands. -/
theorem eq_of_forall₂_of_sum {fs qs : List ℕ} (h : List.Forall₂ (· ≤ ·) fs qs)
    (hsum : fs.sum = qs.sum) : fs = qs := by
  induction h with
  | nil => rfl
  | @cons f q fs qs hle hrest ih =>
    have hr := sum_le_of_forall₂ hrest
    rw [List.sum_cons, List.sum_cons] at hsum
    have hf : f = q := by omega
    rw [hf, ih (by omega)]

namespace IsAlloc

variable {avail : ℕ} {qs fs : List ℕ}

theorem sum_le_avail (h : IsAlloc avail qs fs) : fs.sum ≤ avail := by
  rw [h.sum]
  exact Nat.min_le_left _ _

theorem length_eq (h : IsAlloc avail qs fs) : fs.length = qs.length := h.le.length_eq

/-- **Quantity left over means every demand was met.** -/
theorem eq_of_sum_lt (h : IsAlloc avail qs fs) (hlt : fs.sum < avail) : fs = qs := by
  refine eq_of_forall₂_of_sum h.le ?_
  have := h.sum
  omega

end IsAlloc

/-! ## Topping up -/

namespace Alloc

/-- Hand `r` out head to tail over demands paired with the shares they
have. -/
def topUp : ℕ → List (ℕ × ℕ) → List ℕ
  | _, [] => []
  | r, (q, f) :: l => (f + min (q - f) r) :: topUp (r - min (q - f) r) l

@[simp] theorem topUp_zero {l : List (ℕ × ℕ)} : topUp 0 l = l.map Prod.snd := by
  induction l with
  | nil => rfl
  | cons x l ih =>
    rw [topUp, Nat.min_zero, Nat.sub_zero, ih]
    rfl

theorem topUp_le {l : List (ℕ × ℕ)} (h : ∀ x ∈ l, x.2 ≤ x.1) (r : ℕ) :
    List.Forall₂ (· ≤ ·) (topUp r l) (l.map Prod.fst) := by
  induction l generalizing r with
  | nil => exact .nil
  | cons x l ih =>
    obtain ⟨q, f⟩ := x
    have hf : f ≤ q := h (q, f) (List.mem_cons_self ..)
    refine .cons ?_ (ih (fun y hy => h y (List.mem_cons_of_mem _ hy)) _)
    dsimp only
    omega

theorem sum_snd_le {l : List (ℕ × ℕ)} (h : ∀ x ∈ l, x.2 ≤ x.1) :
    (l.map Prod.snd).sum ≤ (l.map Prod.fst).sum :=
  List.sum_le_sum h

theorem sum_topUp {l : List (ℕ × ℕ)} (h : ∀ x ∈ l, x.2 ≤ x.1) (r : ℕ) :
    (topUp r l).sum =
      (l.map Prod.snd).sum + min ((l.map Prod.fst).sum - (l.map Prod.snd).sum) r := by
  induction l generalizing r with
  | nil => simp [topUp]
  | cons x l ih =>
    obtain ⟨q, f⟩ := x
    have hf : f ≤ q := h (q, f) (List.mem_cons_self ..)
    have hl : ∀ y ∈ l, y.2 ≤ y.1 := fun y hy => h y (List.mem_cons_of_mem _ hy)
    have hle := sum_snd_le hl
    rw [topUp, List.sum_cons, ih hl, List.map_cons, List.map_cons, List.sum_cons, List.sum_cons]
    dsimp only
    omega

/-- **Topped up by what is missing, shares are an allocation.** -/
theorem isAlloc_topUp {avail : ℕ} {l : List (ℕ × ℕ)} (h : ∀ x ∈ l, x.2 ≤ x.1)
    (hsum : (l.map Prod.snd).sum ≤ avail) :
    IsAlloc avail (l.map Prod.fst)
      (topUp (min avail (l.map Prod.fst).sum - (l.map Prod.snd).sum) l) := by
  refine ⟨topUp_le h _, ?_⟩
  have hle := sum_snd_le h
  rw [sum_topUp h]
  omega

/-- Rounded-down proportional shares do not add up to more than is
shared. -/
theorem sum_floor_le (t T : ℕ) (qs : List ℕ) :
    (qs.map fun q => t * q / T).sum ≤ t * qs.sum / T := by
  induction qs with
  | nil => simp
  | cons q qs ih =>
    rw [List.map_cons, List.sum_cons, List.sum_cons, Nat.mul_add]
    exact Nat.le_trans (Nat.add_le_add_left ih _) Nat.div_add_div_le_add_div

end Alloc

/-! ## Head to tail -/

namespace Alloc

/-- Serve demands head to tail, each with all that is left. -/
def greedy : ℕ → List ℕ → List ℕ
  | _, [] => []
  | a, q :: qs => min a q :: greedy (a - q) qs

theorem greedy_append (a : ℕ) (qs qs' : List ℕ) :
    greedy a (qs ++ qs') = greedy a qs ++ greedy (a - qs.sum) qs' := by
  induction qs generalizing a with
  | nil => rfl
  | cons q qs ih =>
    rw [List.cons_append, greedy, greedy, ih, List.cons_append, List.sum_cons, Nat.sub_sub]

/-- Demands of nothing get nothing. -/
theorem greedy_none {β : Type*} (a : ℕ) (l : List β) :
    greedy a (l.map fun _ => 0) = l.map fun _ => 0 := by
  induction l with
  | nil => rfl
  | cons x l ih => rw [List.map_cons, greedy, Nat.min_zero, Nat.sub_zero, ih]

theorem isAlloc_greedy (a : ℕ) (qs : List ℕ) : IsAlloc a qs (greedy a qs) := by
  induction qs generalizing a with
  | nil => exact ⟨.nil, (Nat.min_zero a).symm⟩
  | cons q qs ih =>
    refine ⟨.cons (Nat.min_le_right ..) (ih _).le, ?_⟩
    have hrest := (ih (a - q)).sum
    rw [greedy, List.sum_cons, hrest, List.sum_cons]
    omega

/-- What asks for nothing gets nothing and takes nothing from the rest. -/
theorem filter_greedy (a : ℕ) (qs : List ℕ) :
    (greedy a qs).filter (· ≠ 0) = (greedy a (qs.filter (· ≠ 0))).filter (· ≠ 0) := by
  induction qs generalizing a with
  | nil => rfl
  | cons q qs ih =>
    by_cases hq : q = 0
    · subst hq
      rw [List.filter_cons_of_neg (by simp), greedy, Nat.min_zero,
        List.filter_cons_of_neg (by simp), Nat.sub_zero, ih]
    · rw [List.filter_cons_of_pos (by simpa using hq), greedy, greedy, List.filter_cons,
        List.filter_cons, ih]

/-- **Served head to tail, the shares differ**: while anything is left,
what the next one takes is none of the demands before it. -/
def Distinct : ℕ → List ℕ → List ℕ → Prop
  | _, _, [] => True
  | a, past, q :: qs => (a ≠ 0 → min a q ∉ past) ∧ Distinct (a - q) (past ++ [q]) qs

instance Distinct.decidable : ∀ a past qs, Decidable (Distinct a past qs)
  | _, _, [] => isTrue trivial
  | a, past, q :: qs =>
    have := Distinct.decidable (a - q) (past ++ [q]) qs
    inferInstanceAs (Decidable ((a ≠ 0 → min a q ∉ past) ∧ Distinct (a - q) (past ++ [q]) qs))

/-- The shares that are not nothing differ from each other, and from the
demands before. -/
theorem Distinct.nodup {a : ℕ} {past qs : List ℕ} (h : Distinct a past qs) :
    ((greedy a qs).filter (· ≠ 0)).Nodup ∧ ∀ f ∈ greedy a qs, f ≠ 0 → f ∉ past := by
  induction qs generalizing a past with
  | nil => exact ⟨List.nodup_nil, fun f hf => by cases hf⟩
  | cons q qs ih =>
    obtain ⟨hq, hrest⟩ := h
    obtain ⟨hnodup, hnew⟩ := ih hrest
    have hpast : ∀ f ∈ greedy a (q :: qs), f ≠ 0 → f ∉ past := by
      intro f hf hne
      rcases List.mem_cons.mp hf with rfl | hf
      · exact hq (by omega)
      · exact fun hc => hnew f hf hne (List.mem_append_left _ hc)
    refine ⟨?_, hpast⟩
    rw [greedy, List.filter_cons]
    split
    · rename_i hne
      rw [List.nodup_cons]
      refine ⟨fun hmem => ?_, hnodup⟩
      -- a later share means that this demand was met, and it is none of it
      obtain ⟨hmem, -⟩ := List.mem_filter.mp hmem
      have hlater : a - q ≠ 0 := by
        intro h0
        have hsum := (isAlloc_greedy (a - q) qs).sum_le_avail
        have hle := List.le_sum_of_mem hmem
        have hne : min a q ≠ 0 := by simpa using hne
        omega
      have hfull : min a q = q := by omega
      rw [hfull] at hmem hne
      exact hnew q hmem (by simpa using hne)
        (List.mem_append_right _ (List.mem_singleton_self q))
    · exact hnodup

end Alloc

/-- An allocation over one demand, of enough for all, or of nothing, is
served head to tail. -/
theorem IsAlloc.eq_greedy {a : ℕ} {qs fs : List ℕ} (h : IsAlloc a qs fs)
    (hw : qs.length ≤ 1 ∨ qs.sum ≤ a ∨ a = 0) : fs = Alloc.greedy a qs := by
  have hg := Alloc.isAlloc_greedy a qs
  have hsum := h.sum
  rcases hw with hlen | hle | rfl
  · rcases qs with _ | ⟨q, _ | ⟨q', qs⟩⟩
    · rw [List.forall₂_nil_right_iff.mp h.le]
      rfl
    · obtain ⟨f, hf⟩ := List.length_eq_one_iff.mp h.length_eq
      subst hf
      have : f = min a q := by simpa using hsum
      rw [this]
      rfl
    · simp at hlen
  · have hgsum := hg.sum
    rw [eq_of_forall₂_of_sum h.le (by omega), eq_of_forall₂_of_sum hg.le (by omega)]
  · have hzero : ∀ l : List ℕ, l.sum = 0 → l.length = qs.length → l = List.replicate qs.length 0 :=
      fun l hl hlen => List.eq_replicate_iff.mpr
        ⟨hlen, fun x hx => Nat.le_zero.mp (hl ▸ List.le_sum_of_mem hx)⟩
    have hgsum := hg.sum
    rw [hzero fs (by omega) h.length_eq, hzero _ (by omega) hg.length_eq]

/-! ## Going down the queues -/

/-- **A cascade**: each queue is served with what those before it left. -/
inductive Cascade : ℕ → List (List ℕ) → List (List ℕ) → Prop
  | nil (avail : ℕ) : Cascade avail [] []
  | cons {avail : ℕ} {qs fs : List ℕ} {qss fss : List (List ℕ)} (h : IsAlloc avail qs fs)
      (hrest : Cascade (avail - fs.sum) qss fss) : Cascade avail (qs :: qss) (fs :: fss)

namespace Cascade

variable {avail : ℕ} {qss fss : List (List ℕ)}

/-- **A cascade allocates over all its demands.** -/
theorem flatten (h : Cascade avail qss fss) : IsAlloc avail qss.flatten fss.flatten := by
  induction h with
  | nil avail => exact ⟨.nil, (Nat.min_zero avail).symm⟩
  | @cons avail qs fs qss fss hq _ ih =>
    refine ⟨List.rel_append hq.le ih.le, ?_⟩
    have h1 := hq.sum
    have h2 := ih.sum
    rw [List.flatten_cons, List.flatten_cons, List.sum_append, List.sum_append]
    omega

/-- **A queue gets something only once those before it have all they
asked for.** -/
theorem full_of_later {qs fs : List ℕ} (h : Cascade avail (qs :: qss) (fs :: fss))
    (hne : fss.flatten.sum ≠ 0) : fs = qs := by
  cases h with
  | cons hq hrest =>
    have hle := hrest.flatten.sum_le_avail
    exact hq.eq_of_sum_lt (by omega)

/-- **One queue of a cascade** is served with what the demands before it
leave, whatever way those were served. -/
theorem split {pre post : List (List ℕ)} {qs : List ℕ}
    (h : Cascade avail (pre ++ qs :: post) fss) :
    ∃ fpre fs fpost, fss = fpre ++ fs :: fpost ∧ fpre.length = pre.length ∧
      IsAlloc (avail - pre.flatten.sum) qs fs := by
  induction pre generalizing avail fss with
  | nil =>
    cases h with
    | @cons _ _ fs _ fpost hq _ => exact ⟨[], fs, fpost, rfl, rfl, hq⟩
  | cons q pre ih =>
    cases h with
    | @cons _ _ f _ fss hq hrest =>
      obtain ⟨fpre, fs, fpost, rfl, hlen, halloc⟩ := ih hrest
      have hleft : avail - f.sum - pre.flatten.sum = avail - (q :: pre).flatten.sum := by
        have := hq.sum
        rw [List.flatten_cons, List.sum_append]
        omega
      rw [hleft] at halloc
      exact ⟨f :: fpre, fs, fpost, rfl, congrArg Nat.succ hlen, halloc⟩

/-- **No queue is split**: each is one demand, or gets all it asks for,
or nothing. -/
def Whole : ℕ → List (List ℕ) → Prop
  | _, [] => True
  | a, qs :: qss => (qs.length ≤ 1 ∨ qs.sum ≤ a ∨ a = 0) ∧ Whole (a - qs.sum) qss

instance Whole.decidable : ∀ a qss, Decidable (Whole a qss)
  | _, [] => isTrue trivial
  | a, qs :: qss =>
    have := Whole.decidable (a - qs.sum) qss
    inferInstanceAs
      (Decidable ((qs.length ≤ 1 ∨ qs.sum ≤ a ∨ a = 0) ∧ Whole (a - qs.sum) qss))

/-- **A cascade that splits no queue serves head to tail.** -/
theorem eq_greedy (h : Cascade avail qss fss) (hw : Whole avail qss) :
    fss.flatten = Alloc.greedy avail qss.flatten := by
  induction h with
  | nil avail => rfl
  | @cons avail qs fs qss fss hq _ ih =>
    have hleft : avail - fs.sum = avail - qs.sum := by
      have := hq.sum
      omega
    rw [hleft] at ih
    rw [List.flatten_cons, List.flatten_cons, Alloc.greedy_append, hq.eq_greedy hw.1, ih hw.2]

end Cascade

end OrderbookFix
