import Mathlib.Logic.Function.Basic
import Mathlib.Data.Nat.Notation
/-!
# A heap of nodes

Addresses are handed out in order and never twice, so a stale address
reads as `none` for ever after it is freed. That the unallocated
addresses are empty is a field of the structure, which is what makes an
allocation land outside everything already linked.
-/

namespace OrderbookFix

/-- **A heap**: the live cells, and the first address never handed out. -/
@[ext] structure Heap (α : Type*) where
  /-- The node at an address, `none` once freed or before it is allocated. -/
  cells : ℕ → Option α
  next : ℕ
  fresh : ∀ p, next ≤ p → cells p = none

namespace Heap

variable {α : Type*} (h : Heap α) {p q : ℕ} {v : α}

/-- The heap nothing was allocated in. -/
def empty : Heap α where
  cells := fun _ => none
  next := 0
  fresh := fun _ _ => rfl

/-- Allocate a node, at address `h.next`. -/
def alloc (v : α) : Heap α where
  cells := Function.update h.cells h.next (some v)
  next := h.next + 1
  fresh := fun p hp => by
    rw [Function.update_of_ne (by omega)]
    exact h.fresh p (by omega)

/-- Overwrite a live node; a write to a dead address changes nothing. -/
def write (p : ℕ) (v : α) : Heap α where
  cells := fun q => if q = p then (h.cells q).map fun _ => v else h.cells q
  next := h.next
  fresh := fun q hq => by
    rw [h.fresh q hq]
    split <;> rfl

/-- Change a node in place; at a dead address there is none. -/
def modify (p : ℕ) (f : α → α) : Heap α where
  cells := fun q => if q = p then (h.cells q).map f else h.cells q
  next := h.next
  fresh := fun q hq => by
    rw [h.fresh q hq]
    split <;> rfl

/-- Free a node. -/
def free (p : ℕ) : Heap α where
  cells := fun q => if q = p then none else h.cells q
  next := h.next
  fresh := fun q hq => by
    rw [h.fresh q hq]
    split <;> rfl

@[simp] theorem alloc_self : (h.alloc v).cells h.next = some v := Function.update_self ..

/-- A live node is not at the address the next allocation takes. -/
theorem ne_next (hp : h.cells p = some v) : p ≠ h.next := by
  rintro rfl
  rw [h.fresh _ (Nat.le_refl _)] at hp
  cases hp

theorem alloc_of_ne (hp : p ≠ h.next) : (h.alloc v).cells p = h.cells p :=
  Function.update_of_ne hp ..

theorem write_self {w : α} (hp : h.cells p = some w) : (h.write p v).cells p = some v := by
  simp [write, hp]

theorem write_of_ne (hq : q ≠ p) : (h.write p v).cells q = h.cells q := by
  simp [write, hq]

@[simp] theorem free_self : (h.free p).cells p = none := by simp [free]

theorem free_of_ne (hq : q ≠ p) : (h.free p).cells q = h.cells q := by
  simp [free, hq]

theorem modify_self {f : α → α} (hp : h.cells p = some v) :
    (h.modify p f).cells p = some (f v) := by
  simp [modify, hp]

theorem modify_of_ne {f : α → α} (hq : q ≠ p) : (h.modify p f).cells q = h.cells q := by
  simp [modify, hq]

/-- Writing back what is there changes nothing. -/
theorem write_same (hp : h.cells p = some v) : h.write p v = h := by
  ext q w
  · by_cases hq : q = p
    · subst hq
      rw [write_self h hp, hp]
    · rw [write_of_ne h hq]
  · rfl

/-! ## Renaming -/

/-- The heap with every node replaced by its image. -/
def map {β : Type*} (f : α → β) : Heap β where
  cells := fun p => (h.cells p).map f
  next := h.next
  fresh := fun p hp => by rw [h.fresh p hp]; rfl

section Map

variable {β : Type*} (f : α → β)

theorem map_alloc : (h.alloc v).map f = (h.map f).alloc (f v) := by
  refine Heap.ext ?_ rfl
  funext q
  change ((h.alloc v).cells q).map f = ((h.map f).alloc (f v)).cells q
  by_cases hq : q = h.next
  · subst hq
    rw [alloc_self]
    exact ((h.map f).alloc_self).symm
  · rw [alloc_of_ne h hq, alloc_of_ne (h.map f) hq]
    rfl

theorem map_write : (h.write p v).map f = (h.map f).write p (f v) := by
  refine Heap.ext ?_ rfl
  funext q
  change ((h.write p v).cells q).map f = ((h.map f).write p (f v)).cells q
  by_cases hq : q = p
  · subst hq
    unfold write map
    simp only [if_true, Option.map_map]
    rfl
  · rw [write_of_ne h hq, write_of_ne (h.map f) hq]
    rfl

theorem map_free : (h.free p).map f = (h.map f).free p := by
  refine Heap.ext ?_ rfl
  funext q
  change ((h.free p).cells q).map f = ((h.map f).free p).cells q
  by_cases hq : q = p
  · subst hq
    rw [free_self, free_self]
    rfl
  · rw [free_of_ne h hq, free_of_ne (h.map f) hq]
    rfl

/-- A change that the image does not show. -/
theorem map_modify {g : α → α} (hg : ∀ a, f (g a) = f a) : (h.modify p g).map f = h.map f := by
  refine Heap.ext ?_ rfl
  funext q
  change ((h.modify p g).cells q).map f = (h.cells q).map f
  by_cases hq : q = p
  · subst hq
    simp only [modify, if_true, Option.map_map]
    exact Option.map_congr fun a _ => hg a
  · rw [modify_of_ne h hq]

end Map

/-- Write a list of values at a list of addresses. -/
def writeAll : Heap α → List ℕ → List α → Heap α
  | h, p :: ps, v :: vs => writeAll (h.write p v) ps vs
  | h, _, _ => h

/-- Off the addresses written, the heap is the one it was. -/
theorem writeAll_of_notMem {ps : List ℕ} {vs : List α} (hq : q ∉ ps) :
    (h.writeAll ps vs).cells q = h.cells q := by
  induction ps generalizing h vs with
  | nil => rfl
  | cons p ps ih =>
    obtain ⟨hqp, hqps⟩ := not_or.mp (List.mem_cons.not.mp hq)
    cases vs with
    | nil => rfl
    | cons v vs => rw [writeAll, ih _ hqps, write_of_ne h hqp]

/-- Written at distinct live addresses, the values are what is read there. -/
theorem map_writeAll {ps : List ℕ} {os vs : List α} (hnd : ps.Nodup)
    (hlive : ps.map h.cells = os.map some) (hlen : vs.length = os.length) :
    ps.map (h.writeAll ps vs).cells = vs.map some := by
  induction ps generalizing h os vs with
  | nil =>
    have hos : os = [] := by simpa using hlive.symm
    have hvs : vs = [] := by simpa [hos] using hlen
    rw [hvs]
    rfl
  | cons p ps ih =>
    obtain ⟨hp, hps⟩ := List.nodup_cons.mp hnd
    obtain _ | ⟨o, os⟩ := os
    · simp at hlive
    obtain _ | ⟨v, vs⟩ := vs
    · simp at hlen
    simp only [List.map_cons, List.cons.injEq] at hlive ⊢
    have hrest : ps.map (h.write p v).cells = os.map some := by
      rw [← hlive.2]
      exact List.map_congr_left fun q hq => write_of_ne h fun he => hp (he ▸ hq)
    refine ⟨?_, ih _ hps hrest (by simpa using hlen)⟩
    rw [writeAll, writeAll_of_notMem _ hp, write_self h hlive.1]

end Heap

end OrderbookFix
