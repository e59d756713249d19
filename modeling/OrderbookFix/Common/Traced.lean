import Mathlib.Data.List.Basic
/-!
# Computations that log their accesses

A computation that may fail, with the accesses it makes, in order. It
stops at its first failure, so where each access fails exactly if it is
unsafe, the computation returns exactly if all it made were safe.
-/

namespace OrderbookFix

/-- A result and the accesses made on the way to it. -/
structure Traced (ι ε α : Type) where
  log : List ι
  result : Except ε α

namespace Traced

variable {ι ε α β : Type}

/-- Nothing is accessed. -/
def done (a : α) : Traced ι ε α := ⟨[], .ok a⟩

/-- One access, logged before it is made. -/
def access (i : ι) (r : Except ε α) : Traced ι ε α := ⟨[i], r⟩

/-- One computation after another. -/
def andThen (x : Traced ι ε α) (f : α → Traced ι ε β) : Traced ι ε β :=
  match x.result with
  | .ok a => ⟨x.log ++ (f a).log, (f a).result⟩
  | .error e => ⟨x.log, .error e⟩

instance : Monad (Traced ι ε) where
  pure := done
  bind := andThen

@[simp] theorem result_pure (a : α) : (pure a : Traced ι ε α).result = .ok a := rfl

@[simp] theorem result_access (i : ι) (r : Except ε α) : (access i r).result = r := rfl

@[simp] theorem result_bind (x : Traced ι ε α) (f : α → Traced ι ε β) :
    (x >>= f).result = x.result >>= fun a => (f a).result := by
  change (andThen x f).result = _
  rw [andThen]
  cases x.result <;> rfl

theorem result_bind_of_ok {x : Traced ι ε α} {a : α} (h : x.result = .ok a)
    (f : α → Traced ι ε β) : (x >>= f).result = (f a).result := by
  rw [result_bind, h]
  rfl

/-- Two continuations of one computation need only agree where it
returns. -/
theorem result_bind_congr {x : Traced ι ε α} {f : α → Traced ι ε β} {g : α → Except ε β}
    (h : ∀ a, x.result = .ok a → (f a).result = g a) : (x >>= f).result = x.result >>= g := by
  rw [result_bind]
  rcases hr : x.result with e | a
  · rfl
  · exact h a hr

@[simp] theorem result_ite {c : Prop} [Decidable c] (x y : Traced ι ε α) :
    (if c then x else y).result = if c then x.result else y.result := apply_ite ..

/-! ## Safe accesses -/

variable {safe : ι → Prop}

/-- **A computation that returns exactly if its accesses are safe.** -/
def Exact (safe : ι → Prop) (x : Traced ι ε α) : Prop :=
  (∀ i ∈ x.log, safe i) ↔ ∃ a, x.result = .ok a

namespace Exact

theorem pure (a : α) : Exact safe (pure a : Traced ι ε α) :=
  ⟨fun _ => ⟨a, rfl⟩, fun _ _ hi => absurd hi List.not_mem_nil⟩

theorem access {i : ι} {r : Except ε α} (h : safe i ↔ ∃ a, r = .ok a) :
    Exact safe (access i r) := by
  rw [Exact, result_access, ← h]
  exact List.forall_mem_singleton

theorem bind {x : Traced ι ε α} {f : α → Traced ι ε β} (hx : Exact safe x)
    (hf : ∀ a, x.result = .ok a → Exact safe (f a)) : Exact safe (x >>= f) := by
  change Exact safe (andThen x f)
  rw [andThen]
  rcases hr : x.result with e | a
  · rw [Exact, hr] at hx
    exact ⟨fun h => absurd (hx.mp h) (by rintro ⟨a, ha⟩; cases ha), by rintro ⟨a, ha⟩; cases ha⟩
  · have hlog := hx.mpr ⟨a, hr⟩
    refine Iff.trans ?_ (hf a hr)
    constructor
    · exact fun h i hi => h i (List.mem_append_right _ hi)
    · intro h i hi
      rcases List.mem_append.mp hi with hi | hi
      · exact hlog i hi
      · exact h i hi

theorem ite {c : Prop} [Decidable c] {x y : Traced ι ε α} (hx : c → Exact safe x)
    (hy : ¬ c → Exact safe y) : Exact safe (if c then x else y) := by
  split_ifs with hc
  · exact hx hc
  · exact hy hc

end Exact

end Traced

end OrderbookFix
