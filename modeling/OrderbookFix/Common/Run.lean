import Mathlib.Data.List.Basic
import Mathlib.Order.WellFounded
/-!
# Runs of a fallible transition

A transition takes a state and a call and returns the next state with
what it put out, or fails. A run makes one call after another and stops
at the first failure. The conditions under which the calls are made are
stated on the states they are made in, so a guarded run is one whose
every call meets its condition, whatever the calls before it did.
-/

namespace OrderbookFix

section Results

universe u

variable {α ε : Type*} {r : Except ε α}

/-- Whether a result is a value that passes a check. -/
def passes (p : α → Bool) : Except ε α → Bool
  | .ok a => p a
  | .error _ => false

/-- Whether a result is an error. -/
def raises [DecidableEq ε] (e : ε) : Except ε α → Bool
  | .ok _ => false
  | .error f => f = e

theorem passes_iff {p : α → Bool} : passes p r = true ↔ ∃ a, r = .ok a ∧ p a = true := by
  rcases r with e | a
  · constructor
    · intro h
      cases h
    · rintro ⟨a, h, -⟩
      cases h
  · constructor
    · intro h
      exact ⟨a, rfl, h⟩
    · rintro ⟨b, h, hp⟩
      cases h
      exact hp

theorem raises_iff [DecidableEq ε] {e : ε} : raises e r = true ↔ r = .error e := by
  rcases r with f | a
  · constructor
    · intro h
      rw [of_decide_eq_true h]
    · intro h
      exact decide_eq_true (Except.error.inj h)
  · constructor
    · intro h
      cases h
    · intro h
      cases h

/-- An error is no value. -/
theorem not_returns_error (e : ε) : ¬ ∃ a : α, (.error e : Except ε α) = .ok a := by
  rintro ⟨a, h⟩
  cases h

/-- A value comes of a value of each part. -/
theorem exists_of_bind_eq_ok {α β : Type u} {r : Except ε α} {k : α → Except ε β} {b : β}
    (h : (r >>= k) = .ok b) : ∃ a, r = .ok a ∧ k a = .ok b := by
  rcases r with e | a
  · cases h
  · exact ⟨a, rfl, h⟩

/-- What follows an image is the image of what follows. -/
theorem map_bind {α α' β β' : Type u} {r : Except ε α} {f : α → α'} {g : β → β'}
    {k : α → Except ε β} {k' : α' → Except ε β'} (h : ∀ a, k' (f a) = (k a).map g) :
    (r.map f >>= k') = (r >>= k).map g := by
  rcases r with e | a
  · rfl
  · exact h a

end Results

section Run

variable {σ α ω ε : Type*} (step : σ → α → Except ε (σ × List ω))

/-- **A run**: the state after the calls and all they put out. -/
def run : σ → List α → Except ε (σ × List ω)
  | s, [] => .ok (s, [])
  | s, a :: as =>
    match step s a with
    | .error e => .error e
    | .ok (s', out) =>
      match run s' as with
      | .error e => .error e
      | .ok (s'', outs) => .ok (s'', out ++ outs)

/-- Every call of the run is made in a state that meets its condition. -/
def Guarded (ok : σ → α → Prop) : σ → List α → Prop
  | _, [] => True
  | s, a :: as => ok s a ∧ ∀ s' out, step s a = .ok (s', out) → Guarded ok s' as

/-- Whether a run is guarded is found by making it. -/
instance Guarded.decidable (ok : σ → α → Prop) [∀ s a, Decidable (ok s a)] :
    ∀ s as, Decidable (Guarded step ok s as)
  | _, [] => isTrue trivial
  | s, a :: as =>
    match h : step s a with
    | .error _ => decidable_of_iff (ok s a)
      ⟨fun ho => ⟨ho, fun _ _ hs => nomatch h.symm.trans hs⟩, And.left⟩
    | .ok (s', out) =>
      have := Guarded.decidable ok s' as
      decidable_of_iff (ok s a ∧ Guarded step ok s' as)
        ⟨fun ⟨ho, hg⟩ => ⟨ho, fun _ _ hs =>
            (Prod.mk.inj (Except.ok.inj (h.symm.trans hs))).1 ▸ hg⟩,
          fun hg => ⟨hg.1, hg.2 s' out h⟩⟩

variable {step}

/-- A run that was made and checked. -/
theorem exists_of_run_check {p : σ × List ω → Bool} {s : σ} {as : List α}
    (h : passes p (run step s as) = true) :
    ∃ s' out, run step s as = .ok (s', out) ∧ p (s', out) = true := by
  obtain ⟨⟨s', out⟩, hr, hp⟩ := passes_iff.mp h
  exact ⟨s', out, hr, hp⟩

theorem run_cons_of_ok {s s' : σ} {a : α} {as : List α} {out : List ω}
    (h : step s a = .ok (s', out)) :
    run step s (a :: as) =
      match run step s' as with
      | .error e => .error e
      | .ok (s'', outs) => .ok (s'', out ++ outs) := by
  rw [run, h]

/-- A run that returns, taken apart at its first call. -/
theorem exists_of_run_cons {s s'' : σ} {a : α} {as : List α} {outs : List ω}
    (h : run step s (a :: as) = .ok (s'', outs)) :
    ∃ s' out outs', step s a = .ok (s', out) ∧ run step s' as = .ok (s'', outs') ∧
      outs = out ++ outs' := by
  rw [run] at h
  rcases hs : step s a with e | ⟨s', out⟩
  · rw [hs] at h
    cases h
  rw [hs] at h
  dsimp only at h
  rcases hr : run step s' as with e | ⟨s₁, outs'⟩
  · rw [hr] at h
    cases h
  rw [hr] at h
  obtain ⟨rfl, rfl⟩ := Prod.mk.inj (Except.ok.inj h)
  exact ⟨s', out, outs', rfl, hr, rfl⟩

/-- The last call of a guarded run meets its condition. -/
theorem Guarded.append {ok : σ → α → Prop} {s : σ} {as bs : List α} :
    Guarded step ok s (as ++ bs) ↔
      Guarded step ok s as ∧ ∀ s' out, run step s as = .ok (s', out) → Guarded step ok s' bs := by
  induction as generalizing s with
  | nil =>
    constructor
    · intro h
      refine ⟨trivial, fun s' out hr => ?_⟩
      obtain ⟨rfl, -⟩ := Prod.mk.inj (Except.ok.inj hr)
      exact h
    · intro h
      exact h.2 s [] rfl
  | cons a as ih =>
    constructor
    · rintro ⟨hok, hg⟩
      refine ⟨⟨hok, fun s' out hs => (ih.mp (hg s' out hs)).1⟩, fun s₂ out₂ hr => ?_⟩
      obtain ⟨s₁, out₁, out', hs, hr', -⟩ := exists_of_run_cons hr
      exact (ih.mp (hg s₁ out₁ hs)).2 s₂ out' hr'
    · rintro ⟨⟨hok, hg⟩, hbs⟩
      refine ⟨hok, fun s₁ out₁ hs => ih.mpr ⟨hg s₁ out₁ hs, fun s' out' hr => ?_⟩⟩
      exact hbs s' (out₁ ++ out') (by rw [run_cons_of_ok hs, hr])

/-- A property of the state that every call keeps. -/
theorem run_preserves {J : σ → Prop}
    (hstep : ∀ s a s' out, J s → step s a = .ok (s', out) → J s') {s s' : σ} {as : List α}
    {outs : List ω} (hs : J s) (h : run step s as = .ok (s', outs)) : J s' := by
  induction as generalizing s outs with
  | nil => exact (Prod.mk.inj (Except.ok.inj h)).1 ▸ hs
  | cons a as ih =>
    obtain ⟨s₁, out₁, outs', ha, hr, -⟩ := exists_of_run_cons h
    exact ih (hstep s a s₁ out₁ hs ha) hr

/-- Calls that are each of a kind, besides. -/
theorem Guarded.and_forall {ok : σ → α → Prop} {P : α → Prop} {s : σ} {as : List α}
    (hg : Guarded step ok s as) (h : ∀ a ∈ as, P a) :
    Guarded step (fun s a => ok s a ∧ P a) s as := by
  induction as generalizing s with
  | nil => trivial
  | cons a as ih =>
    obtain ⟨ha, has⟩ := List.forall_mem_cons.mp h
    exact ⟨⟨hg.1, ha⟩, fun s' out hs => ih (hg.2 s' out hs) has⟩

/-- Calls guarded in the states of another system that follows this one. -/
theorem Guarded.comap {σ' ω' : Type*} {step' : σ' → α → Except ε (σ' × List ω')} {f : σ → σ'}
    {ok : σ' → α → Prop}
    (hstep : ∀ s a s₁ out, step s a = .ok (s₁, out) → ∃ out', step' (f s) a = .ok (f s₁, out'))
    {s : σ} {as : List α} (hg : Guarded step' ok (f s) as) :
    Guarded step (fun s a => ok (f s) a) s as := by
  induction as generalizing s with
  | nil => trivial
  | cons a as ih =>
    refine ⟨hg.1, fun s₁ out hs => ?_⟩
    obtain ⟨out', hs'⟩ := hstep s a s₁ out hs
    exact ih (hg.2 (f s₁) out' hs')

/-- A property of the state that every call keeps under its condition. -/
theorem Guarded.preserves {ok : σ → α → Prop} {J : σ → Prop}
    (hstep : ∀ s a s' out, J s → ok s a → step s a = .ok (s', out) → J s') {s s' : σ}
    {as : List α} {outs : List ω} (hs : J s) (hg : Guarded step ok s as)
    (h : run step s as = .ok (s', outs)) : J s' := by
  induction as generalizing s outs with
  | nil => exact (Prod.mk.inj (Except.ok.inj h)).1 ▸ hs
  | cons a as ih =>
    obtain ⟨s₁, out₁, outs', ha, hr, -⟩ := exists_of_run_cons h
    exact ih (hstep s a s₁ out₁ hs hg.1 ha) (hg.2 s₁ out₁ ha) hr

/-- A run returns where no call fails in a state of an invariant. -/
theorem run_returns {J : σ → Prop}
    (hstep : ∀ s a, J s → ∃ s' out, step s a = .ok (s', out) ∧ J s') {s : σ} (hs : J s)
    (as : List α) : ∃ s' outs, run step s as = .ok (s', outs) ∧ J s' := by
  induction as generalizing s with
  | nil => exact ⟨s, [], rfl, hs⟩
  | cons a as ih =>
    obtain ⟨s₁, out, ha, hs₁⟩ := hstep s a hs
    obtain ⟨s', outs, hr, hs'⟩ := ih hs₁
    exact ⟨s', out ++ outs, by rw [run_cons_of_ok ha, hr], hs'⟩

/-- One more call. -/
theorem run_concat_of_ok {s s' s'' : σ} {as : List α} {a : α} {outs out : List ω}
    (h : run step s as = .ok (s', outs)) (ha : step s' a = .ok (s'', out)) :
    run step s (as ++ [a]) = .ok (s'', outs ++ out) := by
  induction as generalizing s outs with
  | nil =>
    obtain ⟨rfl, rfl⟩ := Prod.mk.inj (Except.ok.inj h)
    rw [List.nil_append, run_cons_of_ok ha]
    exact congrArg (fun o => Except.ok (s'', o)) (List.append_nil out)
  | cons b as ih =>
    obtain ⟨s₁, out₁, outs', hb, hr, rfl⟩ := exists_of_run_cons h
    rw [List.cons_append, run_cons_of_ok hb, ih hr]
    exact congrArg (fun o => Except.ok (s'', o)) (List.append_assoc ..).symm

/-- A run of one call. -/
theorem run_singleton_of_ok {s s' : σ} {a : α} {out : List ω} (h : step s a = .ok (s', out)) :
    run step s [a] = .ok (s', out) :=
  @run_concat_of_ok _ _ _ _ step s s s' [] a [] out rfl h

/-- A run goes on where another ended. -/
theorem run_append_of_ok {s s' s'' : σ} {as bs : List α} {outs out : List ω}
    (h : run step s as = .ok (s', outs)) (h' : run step s' bs = .ok (s'', out)) :
    run step s (as ++ bs) = .ok (s'', outs ++ out) := by
  induction bs generalizing s' as outs out with
  | nil =>
    obtain ⟨rfl, rfl⟩ := Prod.mk.inj (Except.ok.inj h')
    rwa [List.append_nil, List.append_nil]
  | cons b bs ih =>
    obtain ⟨s₁, out₁, outs', hb, hr, rfl⟩ := exists_of_run_cons h'
    rw [List.append_cons, ← List.append_assoc]
    exact ih (run_concat_of_ok h hb) hr

theorem run_append_of_error {s s' : σ} {as bs : List α} {outs : List ω} {e : ε}
    (h : run step s as = .ok (s', outs)) (h' : run step s' bs = .error e) :
    run step s (as ++ bs) = .error e := by
  induction as generalizing s outs with
  | nil =>
    obtain ⟨rfl, rfl⟩ := Prod.mk.inj (Except.ok.inj h)
    exact h'
  | cons a as ih =>
    obtain ⟨s₁, out, outs', ha, hr, rfl⟩ := exists_of_run_cons h
    rw [List.cons_append, run_cons_of_ok ha, ih hr]

theorem run_singleton_of_error {s : σ} {a : α} {e : ε} (h : step s a = .error e) :
    run step s [a] = .error e := by
  rw [run, h]

/-- A run that stops stopped at a call. -/
theorem exists_of_run_error {s : σ} {as : List α} {e : ε} (h : run step s as = .error e) :
    ∃ before a s' outs, run step s before = .ok (s', outs) ∧ step s' a = .error e := by
  induction as generalizing s with
  | nil => cases h
  | cons a as ih =>
    rcases ha : step s a with e' | ⟨s₁, out⟩
    · rw [run, ha] at h
      obtain rfl := Except.error.inj h
      exact ⟨[], a, s, [], rfl, ha⟩
    · rcases hr : run step s₁ as with e' | ⟨s₂, outs⟩
      · rw [run_cons_of_ok ha, hr] at h
        obtain rfl := Except.error.inj h
        obtain ⟨before, b, s', outs, hbefore, hb⟩ := ih hr
        exact ⟨a :: before, b, s', out ++ outs, by rw [run_cons_of_ok ha, hbefore], hb⟩
      · rw [run_cons_of_ok ha, hr] at h
        cases h

/-- **Runs of a renamed system.** Where each call of one system is the
image of a call of another, so is each run. -/
theorem run_map {σ' α' ω' : Type*} {step' : σ' → α' → Except ε (σ' × List ω')} {f : σ → σ'}
    {g : α → α'} {h : ω → ω'}
    (hstep : ∀ s a, step' (f s) (g a) = (step s a).map fun r => (f r.1, r.2.map h))
    (s : σ) (as : List α) :
    run step' (f s) (as.map g) = (run step s as).map fun r => (f r.1, r.2.map h) := by
  induction as generalizing s with
  | nil => rfl
  | cons a as ih =>
    rw [List.map_cons, run, run, hstep]
    rcases step s a with e | ⟨s', out⟩
    · rfl
    dsimp only [Except.map]
    rw [ih]
    rcases run step s' as with e | ⟨s'', outs⟩
    · rfl
    · dsimp only [Except.map]
      rw [List.map_append]

/-- **The simulation rule.** Where a system answers each permitted call
of another, so does its run. -/
theorem run_sim {σ' ω' ε' : Type*} {step' : σ' → α → Except ε' (σ' × List ω')}
    {ok : σ' → α → Prop} {R : σ → σ' → Prop}
    (hstep : ∀ s t a t' out', R s t → ok t a → step' t a = .ok (t', out') →
      ∃ s' out, step s a = .ok (s', out) ∧ R s' t')
    {s : σ} {t t' : σ'} {as : List α} {outs' : List ω'} (hR : R s t) (hg : Guarded step' ok t as)
    (h : run step' t as = .ok (t', outs')) : ∃ s' outs, run step s as = .ok (s', outs) ∧ R s' t' := by
  induction as generalizing s t outs' with
  | nil => exact ⟨s, [], rfl, (Prod.mk.inj (Except.ok.inj h)).1 ▸ hR⟩
  | cons a as ih =>
    obtain ⟨t₁, out', outs₁, ha, hr, -⟩ := exists_of_run_cons h
    obtain ⟨s₁, out, hs, hR₁⟩ := hstep s t a t₁ out' hR hg.1 ha
    obtain ⟨s', outs, hrun, hR'⟩ := ih hR₁ (hg.2 t₁ out' ha) hr
    exact ⟨s', out ++ outs, by rw [run_cons_of_ok hs, hrun], hR'⟩

/-! ## Invariants of runs

The invariant may speak of the calls made so far and of what they put
out, besides the state. `H` is a condition on the calls alone that passes
to what a run starts with, such as a bound on a sum. -/

/-- The invariant rule from the middle of a run. -/
theorem run_inv_of {ok : σ → α → Prop} {E : ε → Prop} {H : List α → Prop}
    {J : List α → List ω → σ → Prop} (hH : ∀ as bs, H (as ++ bs) → H as)
    (hstep : ∀ past outs s a, J past outs s → ok s a → H (past ++ [a]) →
      (∃ e, step s a = .error e ∧ E e) ∨
        ∃ s' out, step s a = .ok (s', out) ∧ J (past ++ [a]) (outs ++ out) s')
    {past : List α} {outs : List ω} {s : σ} {as : List α} (hJ : J past outs s)
    (hg : Guarded step ok s as) (hall : H (past ++ as)) :
    (∃ e, run step s as = .error e ∧ E e) ∨
      ∃ s' out, run step s as = .ok (s', out) ∧ J (past ++ as) (outs ++ out) s' := by
  induction as generalizing past outs s with
  | nil => exact Or.inr ⟨s, [], rfl, by simpa using hJ⟩
  | cons a as ih =>
    have hcons : past ++ a :: as = (past ++ [a]) ++ as := by simp
    rw [hcons] at hall ⊢
    rcases hstep past outs s a hJ hg.1 (hH _ _ hall) with ⟨e, hs, he⟩ | ⟨s', out, hs, hJ'⟩
    · exact Or.inl ⟨e, by rw [run, hs], he⟩
    rcases ih hJ' (hg.2 s' out hs) hall with ⟨e, hr, he⟩ | ⟨s'', outs', hr, hJ''⟩
    · exact Or.inl ⟨e, by rw [run_cons_of_ok hs, hr], he⟩
    · refine Or.inr ⟨s'', out ++ outs', by rw [run_cons_of_ok hs, hr], ?_⟩
      rwa [List.append_assoc outs] at hJ''

/-- **The invariant rule.** A call made in a state of the invariant,
under its condition, reaches a state of the invariant or fails as `E`
allows; then so does a guarded run. -/
theorem run_inv {ok : σ → α → Prop} {E : ε → Prop} {H : List α → Prop}
    {J : List α → List ω → σ → Prop} (hH : ∀ as bs, H (as ++ bs) → H as)
    (hstep : ∀ past outs s a, J past outs s → ok s a → H (past ++ [a]) →
      (∃ e, step s a = .error e ∧ E e) ∨
        ∃ s' out, step s a = .ok (s', out) ∧ J (past ++ [a]) (outs ++ out) s')
    {s : σ} {as : List α} (hJ : J [] [] s) (hg : Guarded step ok s as) (hall : H as) :
    (∃ e, run step s as = .error e ∧ E e) ∨
      ∃ s' out, run step s as = .ok (s', out) ∧ J as out s' :=
  run_inv_of hH hstep hJ hg hall

/-- The invariant rule for a run known to return, with a condition on the
calls alone. -/
theorem run_inv_returns {P : α → Prop} {J : List α → List ω → σ → Prop}
    (hstep : ∀ past outs s a s' out, J past outs s → P a → step s a = .ok (s', out) →
      J (past ++ [a]) (outs ++ out) s')
    {s s' : σ} {as : List α} {outs : List ω} (hJ : J [] [] s) (hP : ∀ a ∈ as, P a)
    (h : run step s as = .ok (s', outs)) : J as outs s' := by
  have hgen : ∀ (as past : List α) (outs₀ outs : List ω) (s : σ), J past outs₀ s →
      (∀ a ∈ as, P a) → run step s as = .ok (s', outs) → J (past ++ as) (outs₀ ++ outs) s' := by
    intro as
    induction as with
    | nil =>
      intro past outs₀ outs s hJ _ h
      obtain ⟨rfl, rfl⟩ := Prod.mk.inj (Except.ok.inj h)
      simpa using hJ
    | cons a as ih =>
      intro past outs₀ outs s hJ hP h
      obtain ⟨ha, hP⟩ := List.forall_mem_cons.mp hP
      obtain ⟨s₁, out, outs', hs, hr, rfl⟩ := exists_of_run_cons h
      have := ih (past ++ [a]) (outs₀ ++ out) outs' s₁ (hstep _ _ _ _ _ _ hJ ha hs) hP hr
      rwa [List.append_assoc, List.append_assoc] at this
  exact hgen as [] [] outs s hJ hP h

/-- The invariant rule where no call fails. -/
theorem run_inv_ok {ok : σ → α → Prop} {H : List α → Prop} {J : List α → List ω → σ → Prop}
    (hH : ∀ as bs, H (as ++ bs) → H as)
    (hstep : ∀ past outs s a, J past outs s → ok s a → H (past ++ [a]) →
      ∃ s' out, step s a = .ok (s', out) ∧ J (past ++ [a]) (outs ++ out) s')
    {s : σ} {as : List α} (hJ : J [] [] s) (hg : Guarded step ok s as) (hall : H as) :
    ∃ s' out, run step s as = .ok (s', out) ∧ J as out s' := by
  rcases run_inv (E := fun _ : ε => False) hH
      (fun past outs s a hJ hok h => Or.inr (hstep past outs s a hJ hok h)) hJ hg hall with
    ⟨e, -, hf⟩ | hok
  · exact hf.elim
  · exact hok

/-! ## Runs that end -/

/-- **What lowers a rank ends**: where every move keeps an invariant and
lowers a rank that cannot go down forever, there is no endless run. -/
theorem acc_of_rank {ρ : Type*} [LT ρ] [WellFoundedLT ρ] {moves : σ → σ → Prop}
    {J : σ → Prop} {rank : σ → ρ} (hmove : ∀ s s', J s → moves s' s → J s' ∧ rank s' < rank s)
    {s : σ} (hs : J s) : Acc moves s := by
  induction hr : rank s using WellFoundedLT.induction generalizing s with
  | ind r ih =>
    subst hr
    refine ⟨s, fun s' hmoves => ?_⟩
    obtain ⟨hs', hlt⟩ := hmove s s' hs hmoves
    exact ih (rank s') hlt hs' rfl

/-! ## Records of runs -/

/-- A call of a run: the state it was made in, what it put out, and the
state it led to. -/
structure Passage (σ α ω : Type*) where
  before : σ
  call : α
  out : List ω
  after : σ

variable (step) in
/-- The transition that puts out a record of each call. -/
def recorded (s : σ) (a : α) : Except ε (σ × List (Passage σ α ω)) :=
  (step s a).map fun r => (r.1, [⟨s, a, r.2, r.1⟩])

theorem exists_of_recorded {s s' : σ} {a : α} {ps : List (Passage σ α ω)}
    (h : recorded step s a = .ok (s', ps)) :
    ∃ out, step s a = .ok (s', out) ∧ ps = [⟨s, a, out, s'⟩] := by
  rw [recorded] at h
  rcases hs : step s a with e | ⟨s₁, out⟩
  · rw [hs] at h
    cases h
  rw [hs] at h
  obtain ⟨rfl, rfl⟩ := Prod.mk.inj (Except.ok.inj h)
  exact ⟨out, rfl, rfl⟩

/-- **The invariant rule for recorded runs.** -/
theorem recorded_inv {J : List (Passage σ α ω) → σ → Prop}
    (hstep : ∀ ps s a out s', J ps s → step s a = .ok (s', out) → J (ps ++ [⟨s, a, out, s'⟩]) s')
    {s s' : σ} {as : List α} {ps : List (Passage σ α ω)} (hJ : J [] s)
    (h : run (recorded step) s as = .ok (s', ps)) : J ps s' := by
  refine run_inv_returns (P := fun _ => True) (J := fun _ ps s => J ps s)
    (fun _ ps s a s₁ out hj _ hs => ?_) hJ (fun _ _ => trivial) h
  obtain ⟨out', hs', rfl⟩ := exists_of_recorded hs
  exact hstep ps s a out' s₁ hj hs'

/-- A run is the run up to any of its calls, and that call. -/
theorem exists_of_run_recorded {s s' : σ} {as : List α} {pre post : List (Passage σ α ω)}
    {p : Passage σ α ω} (h : run (recorded step) s as = .ok (s', pre ++ p :: post)) :
    ∃ as', run (recorded step) s as' = .ok (p.before, pre) ∧
      step p.before p.call = .ok (p.after, p.out) := by
  induction as generalizing s pre with
  | nil =>
    obtain ⟨-, hnil⟩ := Prod.mk.inj (Except.ok.inj h)
    exact absurd hnil.symm (List.append_ne_nil_of_right_ne_nil _ (List.cons_ne_nil p post))
  | cons a as ih =>
    obtain ⟨s₁, ps, ps', ha, hr, heq⟩ := exists_of_run_cons h
    obtain ⟨out, hs, rfl⟩ := exists_of_recorded ha
    rcases pre with _ | ⟨q, pre⟩
    · obtain ⟨rfl, -⟩ := List.cons.inj heq
      exact ⟨[], rfl, hs⟩
    · obtain ⟨rfl, rfl⟩ := List.cons.inj heq
      obtain ⟨as', hr', hp⟩ := ih hr
      exact ⟨a :: as', by rw [run_cons_of_ok ha, hr']; rfl, hp⟩

variable (step) in
/-- **What a run asks of a part of its state**: what each call asks of it,
in the state the call finds. -/
def gathered {β : Type*} (asks : σ → α → List β) : σ → List α → List β
  | _, [] => []
  | s, a :: as =>
    match step s a with
    | .error _ => asks s a
    | .ok (s', _) => asks s a ++ gathered asks s' as

/-- One call more. -/
theorem gathered_concat {β : Type*} (asks : σ → α → List β) {s s' : σ} {as : List α}
    {outs : List ω} (h : run step s as = .ok (s', outs)) (a : α) :
    gathered step asks s (as ++ [a]) = gathered step asks s as ++ asks s' a := by
  induction as generalizing s outs with
  | nil =>
    obtain ⟨rfl, -⟩ := Prod.mk.inj (Except.ok.inj h)
    change gathered step asks s [a] = asks s a
    rw [gathered]
    rcases step s a with e | r
    · rfl
    · exact List.append_nil _
  | cons b as ih =>
    obtain ⟨s₁, out, outs', hb, hrest, -⟩ := exists_of_run_cons h
    rw [List.cons_append, gathered, gathered, hb]
    dsimp only
    rw [ih hrest, List.append_assoc]

end Run

end OrderbookFix
