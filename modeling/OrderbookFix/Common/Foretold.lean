import OrderbookFix.Common.Run
/-!
# Runs that are foretold

A fine machine takes apart what a coarse one does in one step, and what
that step comes to may be settled only by what the fine one does later. So
a fine state is read as a coarse one under a guess at what is still to
come. Where every fine step can be caught up with, under any guess after
it and some guess before it, every fine run is a coarse one, under any
guess at its end.
-/

namespace OrderbookFix

section Foretold

variable {σ α ω ε τ β ω' ε' γ ι : Type*} {fine : σ → α → Except ε (σ × List ω)}
  {coarse : τ → β → Except ε' (τ × List ω')} {view : γ → σ → τ} {seen : ω → Option ω'}
  {P : ι → α → Prop} {G : ι → γ → Prop} {B : ι → β → Prop}

/-- **A fine run is a coarse run**, with what the coarse one shows of its
outputs. The guesses go back from the end of the run to its start, and so
does what is asked of them, as far as the calls after them allow it. -/
theorem run_foretold
    (hstep : ∀ s a s' out, fine s a = .ok (s', out) → ∀ g', ∃ g bs,
      run coarse (view g s) bs = .ok (view g' s', out.filterMap seen) ∧
        ∀ i, P i a → G i g' → G i g ∧ ∀ b ∈ bs, B i b)
    {s s' : σ} {as : List α} {outs : List ω} (h : run fine s as = .ok (s', outs)) (g' : γ) :
    ∃ g bs, run coarse (view g s) bs = .ok (view g' s', outs.filterMap seen) ∧
      ∀ i, (∀ a ∈ as, P i a) → G i g' → G i g ∧ ∀ b ∈ bs, B i b := by
  induction as generalizing s outs with
  | nil =>
    obtain ⟨rfl, rfl⟩ := Prod.mk.inj (Except.ok.inj h)
    exact ⟨g', [], rfl, fun _ _ hg => ⟨hg, fun _ hb => by cases hb⟩⟩
  | cons a as ih =>
    obtain ⟨s₁, out, outs', ha, hr, rfl⟩ := exists_of_run_cons h
    obtain ⟨g₁, bs₁, hrest, hlater⟩ := ih hr
    obtain ⟨g, bs, hfirst, hnow⟩ := hstep s a s₁ out ha g₁
    rw [List.filterMap_append]
    refine ⟨g, bs ++ bs₁, run_append_of_ok hfirst hrest, fun i hall hg => ?_⟩
    obtain ⟨hg₁, hbs₁⟩ := hlater i (fun b hb => hall b (List.mem_cons_of_mem _ hb)) hg
    obtain ⟨hg₀, hbs⟩ := hnow i (hall a (List.mem_cons_self ..)) hg₁
    exact ⟨hg₀, fun b hb => (List.mem_append.mp hb).elim (hbs b) (hbs₁ b)⟩

end Foretold

end OrderbookFix
