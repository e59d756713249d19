import OrderbookFix.Common.Bytes
import Mathlib.Data.Nat.Digits.Defs
/-!
# Decimal numerals

Numbers written in decimal and read back: `std::to_string` and the value
of a run of digits, over naturals of any size.
-/

namespace OrderbookFix

/-- `'0' <= c && c <= '9'`. -/
def isDigit (c : UInt8) : Bool := 0x30 ≤ c && c ≤ 0x39

/-- The value of a run of digits. -/
def digitsValue (s : Bytes) : ℕ := s.foldl (fun v c => v * 10 + (c.toNat - 0x30)) 0

/-- `std::to_string` of an unsigned number. -/
def decimal (n : ℕ) : Bytes := (Nat.toDigits 10 n).map fun c => c.toNat.toUInt8

/-- `std::to_string` of a signed number. -/
def decimalInt (z : Int) : Bytes := if z < 0 then 0x2d :: decimal z.natAbs else decimal z.natAbs

/-- The code of a digit and its byte. -/
theorem isDigit_toUInt8 {n : ℕ} (h1 : 0x30 ≤ n) (h2 : n ≤ 0x39) :
    isDigit n.toUInt8 = true ∧ n.toUInt8.toNat = n := by
  have hn : n.toUInt8.toNat = n := by
    rw [Nat.toUInt8_eq, UInt8.toNat_ofNat']
    exact Nat.mod_eq_of_lt (by omega)
  refine ⟨?_, hn⟩
  rw [isDigit, Bool.and_eq_true, decide_eq_true_eq, decide_eq_true_eq, UInt8.le_iff_toNat_le,
    UInt8.le_iff_toNat_le, hn]
  exact ⟨h1, h2⟩

/-- A digit character and its byte. -/
theorem toUInt8_of_isDigit {c : Char} (h : c.isDigit = true) :
    isDigit c.toNat.toUInt8 = true ∧ c.toNat.toUInt8.toNat = c.toNat := by
  rw [Char.isDigit, Bool.and_eq_true, decide_eq_true_eq, decide_eq_true_eq] at h
  exact isDigit_toUInt8 (UInt32.le_iff_toNat_le.mp h.1) (UInt32.le_iff_toNat_le.mp h.2)

theorem isDigit_of_mem_decimal {n : ℕ} {c : UInt8} (h : c ∈ decimal n) : isDigit c = true := by
  obtain ⟨d, hd, rfl⟩ := List.mem_map.mp h
  exact (toUInt8_of_isDigit (Nat.isDigit_of_mem_toDigits (by decide) (by decide) hd)).1

theorem decimal_ne_nil {n : ℕ} : decimal n ≠ [] := by
  intro h
  exact Nat.toDigits_ne_nil (List.map_eq_nil_iff.mp h)

/-- **A numeral reads back.** -/
theorem digitsValue_decimal (n : ℕ) : digitsValue (decimal n) = n := by
  have hval := @Nat.ofDigitChars_ten_toDigits n
  rw [Nat.ofDigitChars_eq_foldl] at hval
  rw [digitsValue, decimal, List.foldl_map]
  conv_rhs => rw [← hval]
  have hstep : ∀ (l : List Char), (∀ c ∈ l, c.isDigit = true) → ∀ v : ℕ,
      l.foldl (fun v c => v * 10 + (c.toNat.toUInt8.toNat - 0x30)) v =
        l.foldl (fun v c => 10 * v + (c.toNat - '0'.toNat)) v := by
    intro l
    induction l with
    | nil => exact fun _ _ => rfl
    | cons c l ih =>
      intro hl v
      have hc := (toUInt8_of_isDigit (hl c (List.mem_cons_self ..))).2
      rw [List.foldl_cons, List.foldl_cons, hc, Nat.mul_comm v 10]
      exact ih (fun d hd => hl d (List.mem_cons_of_mem _ hd)) _
  exact hstep _ (fun c hc => Nat.isDigit_of_mem_toDigits (by decide) (by decide) hc) 0

/-- The bytes that are digits. -/
theorem isDigit_iff {c : UInt8} : isDigit c = true ↔ 0x30 ≤ c.toNat ∧ c.toNat ≤ 0x39 := by
  rw [isDigit, Bool.and_eq_true, decide_eq_true_eq, decide_eq_true_eq, UInt8.le_iff_toNat_le,
    UInt8.le_iff_toNat_le]
  rfl

/-- What ends a run of digits is told from what follows. -/
theorem eq_of_digits_append {s s' t t' : Bytes} {c c' : UInt8} (hs : ∀ d ∈ s, isDigit d = true)
    (hs' : ∀ d ∈ s', isDigit d = true) (hc : isDigit c = false) (hc' : isDigit c' = false)
    (h : s ++ c :: t = s' ++ c' :: t') : c = c' := by
  have hdrop := congrArg (List.dropWhile isDigit) h
  rw [List.dropWhile_append_of_pos hs, List.dropWhile_append_of_pos hs',
    List.dropWhile_cons_of_neg (by rw [hc]; decide),
    List.dropWhile_cons_of_neg (by rw [hc']; decide)] at hdrop
  exact (List.cons.inj hdrop).1

theorem length_decimal_le {n k : ℕ} (hk : 0 < k) (h : n < 10 ^ k) : (decimal n).length ≤ k := by
  rw [decimal, List.length_map]
  exact Nat.toDigits_length 10 n k hk h

/-- A run of digits is worth less than ten to its length. -/
theorem digitsValue_lt {s : Bytes} (h : ∀ c ∈ s, isDigit c = true) :
    digitsValue s < 10 ^ s.length := by
  have hstep : ∀ (s : Bytes), (∀ c ∈ s, isDigit c = true) → ∀ v : ℕ,
      s.foldl (fun v c => v * 10 + (c.toNat - 0x30)) v < (v + 1) * 10 ^ s.length := by
    intro s
    induction s with
    | nil => exact fun _ v => by simp
    | cons c s ih =>
      intro hs v
      obtain ⟨hc, hs⟩ := List.forall_mem_cons.mp hs
      have hc := isDigit_iff.mp hc
      have hrest := ih hs (v * 10 + (c.toNat - 0x30))
      have hle : (v * 10 + (c.toNat - 0x30) + 1) * 10 ^ s.length ≤ (v + 1) * 10 * 10 ^ s.length :=
        Nat.mul_le_mul_right _ (by omega)
      rw [List.foldl_cons, List.length_cons, Nat.pow_succ, Nat.mul_comm (10 ^ s.length),
        ← Nat.mul_assoc]
      exact Nat.lt_of_lt_of_le hrest hle
  simpa [digitsValue] using hstep s h 0

/-- **Runs of digits of one length are told apart by their values.** -/
theorem digitsValue_inj {s t : Bytes} (hs : ∀ c ∈ s, isDigit c = true)
    (ht : ∀ c ∈ t, isDigit c = true) (hlen : s.length = t.length)
    (h : digitsValue s = digitsValue t) : s = t := by
  -- Over any two starting values: equal results give equal starts, since each step adds at most 9.
  have hstep : ∀ (s t : Bytes), (∀ c ∈ s, isDigit c = true) → (∀ c ∈ t, isDigit c = true) →
      s.length = t.length → ∀ v w : ℕ,
      s.foldl (fun v c => v * 10 + (c.toNat - 0x30)) v =
        t.foldl (fun v c => v * 10 + (c.toNat - 0x30)) w → v = w ∧ s = t := by
    intro s
    induction s with
    | nil =>
      intro t _ _ hlen v w h
      obtain rfl := List.length_eq_zero_iff.mp hlen.symm
      exact ⟨h, rfl⟩
    | cons c s ih =>
      intro t hs ht hlen v w h
      cases t with
      | nil => cases hlen
      | cons d t =>
        obtain ⟨hc, hs⟩ := List.forall_mem_cons.mp hs
        obtain ⟨hd, ht⟩ := List.forall_mem_cons.mp ht
        obtain ⟨hval, hrest⟩ := ih t hs ht (Nat.succ.inj hlen) _ _ h
        dsimp only at hval
        have hc := isDigit_iff.mp hc
        have hd := isDigit_iff.mp hd
        have hcd : c = d := UInt8.toNat_inj.mp (by omega)
        exact ⟨by omega, by rw [hcd, hrest]⟩
  exact (hstep s t hs ht hlen 0 0 h).2

theorem decimal_inj {m n : ℕ} (h : decimal m = decimal n) : m = n := by
  rw [← digitsValue_decimal m, h, digitsValue_decimal]

theorem decimalInt_inj {a b : Int} (h : decimalInt a = decimalInt b) : a = b := by
  -- the minus sign is no digit
  have hminus : ∀ (n : ℕ) (u : Bytes), decimal n ≠ 0x2d :: u := by
    intro n u he
    have hmem : 0x2d ∈ decimal n := by rw [he]; exact List.mem_cons_self ..
    exact absurd (isDigit_of_mem_decimal hmem) (by decide)
  unfold decimalInt at h
  split_ifs at h with ha hb hb
  · have := decimal_inj (List.cons.inj h).2
    omega
  · exact absurd h.symm (hminus _ _)
  · exact absurd h (hminus _ _)
  · have := decimal_inj h
    omega

end OrderbookFix
