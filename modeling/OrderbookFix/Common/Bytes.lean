import Mathlib.Data.Nat.Notation
import Mathlib.Data.List.Basic
import Mathlib.Data.Option.Basic
/-!
# Byte strings

The program's `std::string` values: lists of bytes, with the two ways it
looks into them, a search from a position and a substring. A literal of
the source is read off its characters, all of which are ASCII.
-/

namespace OrderbookFix

/-- A byte string. -/
abbrev Bytes := List UInt8

/-- The bytes of an ASCII literal. -/
def ascii (s : String) : Bytes := s.toList.map fun c => c.toNat.toUInt8

namespace Bytes

/-- `s.find(c, i)`, `none` being `npos`. -/
def findFrom (c : UInt8) (i : ℕ) (s : Bytes) : Option ℕ :=
  ((s.drop i).findIdx? (· == c)).map (· + i)

/-- `s.substr(i, n)`, `i` in range. -/
def substr (s : Bytes) (i n : ℕ) : Bytes := (s.drop i).take n

section Find

variable {c : UInt8} {i j : ℕ} {s t : Bytes}

/-- What a search finds is at or after the place it starts from, and is
the byte it looks for. -/
theorem findFrom_spec (h : findFrom c i s = some j) : i ≤ j ∧ s[j]? = some c := by
  rw [findFrom, Option.map_eq_some_iff] at h
  obtain ⟨k, hk, rfl⟩ := h
  obtain ⟨hlt, hc, -⟩ := List.findIdx?_eq_some_iff_getElem.mp hk
  refine ⟨Nat.le_add_left i k, ?_⟩
  have hget : (s.drop i)[k]? = some c := by
    rw [List.getElem?_eq_getElem hlt]
    exact congrArg some (by simpa using hc)
  rwa [List.getElem?_drop, Nat.add_comm] at hget

theorem findFrom_lt (h : findFrom c i s = some j) : j < s.length :=
  (List.getElem?_eq_some_iff.mp (findFrom_spec h).2).1

/-- A byte found is found in any extension. -/
theorem findFrom_append (h : findFrom c i s = some j) : findFrom c i (s ++ t) = some j := by
  have hlt := findFrom_lt h
  have hle := (findFrom_spec h).1
  rw [findFrom, Option.map_eq_some_iff] at h
  obtain ⟨k, hk, rfl⟩ := h
  rw [findFrom, List.drop_append_of_le_length (by omega), List.findIdx?_append, hk]
  rfl

/-- A byte not found is not found before the extension. -/
theorem le_of_findFrom_append (h : findFrom c i s = none) (hi : i ≤ s.length)
    (hj : findFrom c i (s ++ t) = some j) : s.length ≤ j := by
  rw [findFrom, Option.map_eq_none_iff] at h
  rw [findFrom, List.drop_append_of_le_length hi, List.findIdx?_append, h] at hj
  simp only [Option.none_or, Option.map_map, Option.map_eq_some_iff] at hj
  obtain ⟨k, -, rfl⟩ := hj
  simp only [Function.comp_apply, List.length_drop]
  omega

/-- A search skips what does not hold the byte. -/
theorem findFrom_of_notMem {p w : Bytes} (h : c ∉ w) :
    findFrom c p.length (p ++ (w ++ c :: t)) = some (p.length + w.length) := by
  have hnone : w.findIdx? (· == c) = none := by
    rw [List.findIdx?_eq_none_iff]
    intro x hx
    exact beq_eq_false_iff_ne.mpr fun hxc => h (hxc ▸ hx)
  rw [findFrom, List.drop_left, List.findIdx?_append, hnone, List.findIdx?_cons]
  simp [Nat.add_comm]

/-- What stands before the first of a byte is told from what follows. -/
theorem append_cons_inj {a b : Bytes} (ha : c ∉ a) (hb : c ∉ b) (h : a ++ c :: s = b ++ c :: t) :
    a = b ∧ s = t := by
  induction a generalizing b with
  | nil =>
    cases b with
    | nil => exact ⟨rfl, (List.cons.inj h).2⟩
    | cons d b => exact absurd ((List.cons.inj h).1 ▸ List.mem_cons_self ..) hb
  | cons d a ih =>
    cases b with
    | nil => exact absurd ((List.cons.inj h).1 ▸ List.mem_cons_self ..) ha
    | cons d' b =>
      obtain ⟨hd, htail⟩ := List.cons.inj h
      obtain ⟨hab, hst⟩ := ih (List.not_mem_of_not_mem_cons ha) (List.not_mem_of_not_mem_cons hb)
        htail
      exact ⟨by rw [hd, hab], hst⟩

end Find

section Substr

variable {s t : Bytes} {i n : ℕ}

theorem substr_append (h : i + n ≤ s.length) : substr (s ++ t) i n = substr s i n := by
  rw [substr, List.drop_append_of_le_length (by omega), List.take_append_of_le_length]
  · rfl
  · rw [List.length_drop]
    omega

theorem substr_of_eq {p w : Bytes} : substr (p ++ (w ++ t)) p.length w.length = w := by
  rw [substr, List.drop_left, List.take_left]

theorem length_substr (h : i + n ≤ s.length) : (substr s i n).length = n := by
  rw [substr, List.length_take, List.length_drop]
  omega

theorem substr_add (s : Bytes) (i m n : ℕ) :
    substr s i (m + n) = substr s i m ++ substr s (i + m) n := by
  rw [substr, substr, substr, List.take_add, List.drop_drop]

/-- A byte of a substring and the rest of it. -/
theorem substr_succ {c : UInt8} (h : s[i]? = some c) : substr s i (n + 1) = c :: substr s (i + 1) n := by
  obtain ⟨hlt, hc⟩ := List.getElem?_eq_some_iff.mp h
  rw [substr, substr, List.drop_eq_getElem_cons hlt, hc, List.take_succ_cons]

/-- A byte of a buffer and the rest of it. -/
theorem drop_eq_cons {c : UInt8} (h : s[i]? = some c) : s.drop i = c :: s.drop (i + 1) := by
  obtain ⟨hlt, hc⟩ := List.getElem?_eq_some_iff.mp h
  rw [List.drop_eq_getElem_cons hlt, hc]

theorem drop_eq_substr (s : Bytes) (i n : ℕ) : s.drop i = substr s i n ++ s.drop (i + n) := by
  rw [substr, ← List.drop_drop, List.take_append_drop]

/-- The byte a search finds is not before it. -/
theorem notMem_substr_of_findFrom {c : UInt8} {j : ℕ} (h : findFrom c i s = some j) :
    c ∉ substr s i (j - i) := by
  rw [findFrom, Option.map_eq_some_iff] at h
  obtain ⟨k, hk, rfl⟩ := h
  obtain ⟨hlt, -, hbefore⟩ := List.findIdx?_eq_some_iff_getElem.mp hk
  rw [Nat.add_sub_cancel, substr]
  intro hc
  obtain ⟨m, hm, hget⟩ := List.mem_iff_getElem.mp hc
  rw [List.length_take] at hm
  rw [List.getElem_take] at hget
  exact hbefore m (by omega) (by rw [hget]; exact beq_self_eq_true c)

end Substr

end Bytes

end OrderbookFix
