import OrderbookFix.Common.Run
/-!
# Runs that come to an end

That some call can always be made is not enough for a system to come to an
end: the call has to be made. An endless sequence of calls is fair if it
leaves nobody waiting, so that as long as some call would do something, one
that does something comes. A system that goes down in rank with every call
that does something, and that can do something as long as it is not done,
is done after finitely many calls of a fair sequence, or has failed.
-/

namespace OrderbookFix

section Fair

variable {σ α ω ε : Type*} (step : σ → α → Except ε (σ × List ω))

/-- A call that does something: it changes the state, or it fails. -/
def Takes (s : σ) (a : α) : Prop := ∀ out, step s a ≠ .ok (s, out)

/-- The first calls of an endless sequence. -/
def firsts (later : ℕ → α) (n : ℕ) : List α := (List.range n).map later

/-- **A fair sequence of calls.** As long as a call that can be made would
do something, one that does something comes. -/
def Fair (can : α → Prop) (s : σ) (later : ℕ → α) : Prop :=
  ∀ n s' outs, run step s (firsts later n) = .ok (s', outs) → (∃ a, can a ∧ Takes step s' a) →
    ∃ m ≥ n, ∀ s'' outs', run step s (firsts later m) = .ok (s'', outs') →
      Takes step s'' (later m)

variable {step} {can : α → Prop} {s s' : σ} {later : ℕ → α} {n : ℕ} {outs : List ω}

theorem firsts_succ (later : ℕ → α) (n : ℕ) :
    firsts later (n + 1) = firsts later n ++ [later n] := by
  rw [firsts, List.range_succ, List.map_append, List.map_singleton, firsts]

/-- **Fairness can be had** from every state: each call is chosen so that it
does something, where one does. -/
theorem exists_fair (step : σ → α → Except ε (σ × List ω)) (can : α → Prop) (s : σ)
    (hcan : ∃ a, can a) :
    ∃ later : ℕ → α, (∀ n, can (later n)) ∧ Fair step can s later := by
  classical
  obtain ⟨b, hb⟩ := hcan
  have hnext : ∀ as : List α, ∃ a, can a ∧ ∀ s' outs, run step s as = .ok (s', outs) →
      (∃ a, can a ∧ Takes step s' a) → Takes step s' a := by
    intro as
    by_cases h : ∃ s' outs, run step s as = .ok (s', outs) ∧ ∃ a, can a ∧ Takes step s' a
    · obtain ⟨s', outs, hrun, a, ha, htakes⟩ := h
      refine ⟨a, ha, fun s'' outs' hrun' _ => ?_⟩
      obtain ⟨rfl, -⟩ := Prod.mk.inj (Except.ok.inj (hrun.symm.trans hrun'))
      exact htakes
    · exact ⟨b, hb, fun s' outs hrun hsome => absurd ⟨s', outs, hrun, hsome⟩ h⟩
  choose pick hpick using hnext
  let made : ℕ → List α := fun n => Nat.rec [] (fun _ as => as ++ [pick as]) n
  have hmade : ∀ n, firsts (fun n => pick (made n)) n = made n := by
    intro n
    induction n with
    | zero => rfl
    | succ n ih => rw [firsts_succ, ih]
  refine ⟨fun n => pick (made n), fun n => (hpick _).1, fun n s' outs hrun hsome => ?_⟩
  refine ⟨n, le_rfl, fun s'' outs' hrun' => ?_⟩
  obtain ⟨rfl, -⟩ := Prod.mk.inj (Except.ok.inj (hrun.symm.trans hrun'))
  exact (hpick _).2 s' outs (hmade n ▸ hrun) hsome

/-- The next call of a fair sequence that does something. -/
theorem Fair.next (h : Fair step can s later)
    (hrun : run step s (firsts later n) = .ok (s', outs)) (hsome : ∃ a, can a ∧ Takes step s' a) :
    ∃ m outs', run step s (firsts later m) = .ok (s', outs') ∧ Takes step s' (later m) := by
  obtain ⟨m, hm, htakes⟩ := h n s' outs hrun hsome
  obtain ⟨k, rfl⟩ := Nat.exists_eq_add_of_le hm
  clear hm
  -- calls that do nothing come first, and leave the state alone
  induction k generalizing n outs with
  | zero => exact ⟨n, outs, hrun, htakes s' outs hrun⟩
  | succ k ih =>
    by_cases hn : Takes step s' (later n)
    · exact ⟨n, outs, hrun, hn⟩
    · obtain ⟨out, hstay⟩ := not_forall_not.mp hn
      have hrun' : run step s (firsts later (n + 1)) = .ok (s', outs ++ out) :=
        firsts_succ later n ▸ run_concat_of_ok hrun hstay
      exact ih hrun' (by rwa [Nat.add_right_comm n 1 k])

/-- **A fair run is over after finitely many calls**, or one of them
fails. -/
theorem Fair.ends {ρ : Type*} [LT ρ] [WellFoundedLT ρ] {J done : σ → Prop} {rank : σ → ρ}
    (hmove : ∀ s a s' out, J s → can a → step s a = .ok (s', out) → s' ≠ s →
      J s' ∧ rank s' < rank s)
    (hprogress : ∀ s, J s → ¬ done s → ∃ a, can a ∧ Takes step s a)
    (hs : J s) (hcan : ∀ n, can (later n)) (h : Fair step can s later) :
    ∃ n, (∃ s' outs, run step s (firsts later n) = .ok (s', outs) ∧ J s' ∧ done s') ∨
      ∃ s' a e, can a ∧ step s' a = .error e ∧ run step s (firsts later n) = .error e := by
  have hall : ∀ r n s' outs, rank s' = r → J s' → run step s (firsts later n) = .ok (s', outs) →
      ∃ n, (∃ s' outs, run step s (firsts later n) = .ok (s', outs) ∧ J s' ∧ done s') ∨
        ∃ s' a e, can a ∧ step s' a = .error e ∧ run step s (firsts later n) = .error e := by
    intro r
    induction r using WellFoundedLT.induction with
    | ind r ih =>
      rintro n s' outs rfl hs' hrun
      by_cases hdone : done s'
      · exact ⟨n, .inl ⟨s', outs, hrun, hs', hdone⟩⟩
      obtain ⟨m, outs', hrun', htakes⟩ := h.next hrun (hprogress s' hs' hdone)
      rcases hstep : step s' (later m) with e | ⟨s'', out⟩
      · refine ⟨m + 1, .inr ⟨s', later m, e, hcan m, hstep, ?_⟩⟩
        rw [firsts_succ]
        exact run_append_of_error hrun' (run_singleton_of_error hstep)
      · have hne : s'' ≠ s' := by
          rintro rfl
          exact htakes out hstep
        obtain ⟨hs'', hlt⟩ := hmove s' (later m) s'' out hs' (hcan m) hstep hne
        exact ih _ hlt (m + 1) s'' (outs' ++ out) rfl hs''
          (firsts_succ later m ▸ run_concat_of_ok hrun' hstep)
  exact hall _ 0 s [] rfl hs rfl

end Fair

end OrderbookFix
