import OrderbookFix.Common.Run
/-!
# Refinement of fallible computations

A computation close to the machine and one above it. Where the lower one
returns, so does the upper, and their results are related; where it fails,
the upper one fails alike, or the failure is one the lower level is
excused for. The relation goes through a sequence of steps and through a
run.
-/

namespace OrderbookFix

section Refines

universe u v

variable {ε ε' : Type*}

/-- **The lower result refines the upper**: they are related values, or
the same error, or the lower one is an error that is excused. -/
inductive Refines {α : Type u} {β : Type v} (excused : ε → Prop) (tr : ε' → ε)
    (R : α → β → Prop) : Except ε α → Except ε' β → Prop
  | ok {a : α} {b : β} (h : R a b) : Refines excused tr R (.ok a) (.ok b)
  | error (e : ε') : Refines excused tr R (.error (tr e)) (.error e)
  | excuse {e : ε} (h : excused e) (r : Except ε' β) : Refines excused tr R (.error e) r

namespace Refines

variable {excused : ε → Prop} {tr : ε' → ε}

section Mono

variable {α : Type u} {β : Type v} {R S : α → β → Prop} {r : Except ε α} {r' : Except ε' β}

theorem mono (h : Refines excused tr R r r') (hRS : ∀ a b, R a b → S a b) :
    Refines excused tr S r r' := by
  cases h with
  | ok h => exact .ok (hRS _ _ h)
  | error e => exact .error e
  | excuse h => exact .excuse h _

/-- What a lower result that is a value says of the upper one. -/
theorem of_ok {a : α} (h : Refines excused tr R (.ok a) r') : ∃ b, r' = .ok b ∧ R a b := by
  cases h with
  | ok h => exact ⟨_, rfl, h⟩

/-- What a lower result that is an error says of the upper one. -/
theorem of_error {e : ε} (h : Refines excused tr R (.error e) r') :
    excused e ∨ ∃ e', e = tr e' ∧ r' = .error e' := by
  cases h with
  | error e' => exact .inr ⟨e', rfl, rfl⟩
  | excuse h => exact .inl h

end Mono

/-- **Refinement goes through a sequence.** -/
theorem bind {α₁ α₂ : Type u} {β₁ β₂ : Type v} {R : α₁ → β₁ → Prop} {S : α₂ → β₂ → Prop}
    {r : Except ε α₁} {r' : Except ε' β₁} {k : α₁ → Except ε α₂} {k' : β₁ → Except ε' β₂}
    (h : Refines excused tr R r r')
    (hk : ∀ a b, R a b → Refines excused tr S (k a) (k' b)) :
    Refines excused tr S (r >>= k) (r' >>= k') := by
  cases h with
  | ok h => exact hk _ _ h
  | error e => exact .error e
  | excuse h => exact .excuse h _

/-- A step of the lower level that the upper one does at once. -/
theorem bind_of_ok {α₁ α₂ : Type u} {β₁ β₂ : Type v} {R : α₁ → β₁ → Prop} {S : α₂ → β₂ → Prop}
    {r : Except ε α₁} {b : β₁} {k : α₁ → Except ε α₂} {r' : Except ε' β₂}
    (h : Refines excused tr R r (.ok b)) (hk : ∀ a, R a b → Refines excused tr S (k a) r') :
    Refines excused tr S (r >>= k) r' := by
  cases h with
  | ok h => exact hk _ h
  | excuse h => exact .excuse h _

end Refines

/-- **A run of steps that refine refines**, with the same output, where
the calls meet a condition on the upper states. -/
theorem run_refines {σ σ' α ω : Type*} {excused : ε → Prop} {tr : ε' → ε}
    {step : σ → α → Except ε (σ × List ω)} {step' : σ' → α → Except ε' (σ' × List ω)}
    {ok : σ' → α → Prop} {R : σ → σ' → Prop}
    (hstep : ∀ s t a, R s t → ok t a →
      Refines excused tr (fun r r' => R r.1 r'.1 ∧ r.2 = r'.2) (step s a) (step' t a))
    {s : σ} {t : σ'} {as : List α} (hR : R s t) (hg : Guarded step' ok t as) :
    Refines excused tr (fun r r' => R r.1 r'.1 ∧ r.2 = r'.2) (run step s as) (run step' t as) := by
  induction as generalizing s t with
  | nil => exact .ok ⟨hR, rfl⟩
  | cons a as ih =>
    have hhead := hstep s t a hR hg.1
    rw [run, run]
    rcases hs : step s a with e | ⟨s₁, out⟩
    · rw [hs] at hhead
      obtain h | ⟨e', rfl, ht⟩ := hhead.of_error
      · exact .excuse h _
      · rw [ht]
        exact .error e'
    rw [hs] at hhead
    obtain ⟨⟨t₁, out'⟩, ht, hR₁, hout⟩ := hhead.of_ok
    obtain rfl : out = out' := hout
    rw [ht]
    have htail := ih hR₁ (hg.2 t₁ out ht)
    dsimp only
    rcases hrun : run step s₁ as with e | ⟨s₂, outs⟩
    · rw [hrun] at htail
      obtain h | ⟨e', rfl, hrun'⟩ := htail.of_error
      · exact .excuse h _
      · rw [hrun']
        exact .error e'
    · rw [hrun] at htail
      obtain ⟨⟨t₂, outs'⟩, hrun', hR₂, houts⟩ := htail.of_ok
      obtain rfl : outs = outs' := houts
      rw [hrun']
      exact .ok ⟨hR₂, rfl⟩

/-- Where the condition is none, every run meets it. -/
theorem guarded_of_forall {σ α ω : Type*} {step : σ → α → Except ε (σ × List ω)}
    {ok : σ → α → Prop} (h : ∀ s a, ok s a) (s : σ) (as : List α) : Guarded step ok s as := by
  induction as generalizing s with
  | nil => exact trivial
  | cons a as ih => exact ⟨h s a, fun s' _ _ => ih s'⟩

end Refines

end OrderbookFix
