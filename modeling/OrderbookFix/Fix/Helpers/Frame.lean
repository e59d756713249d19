import OrderbookFix.Fix.Helpers.Parse
import OrderbookFix.Common.Decimal
import OrderbookFix.Common.Run
/-!
# Frames

A frame is its length field, its body and its checksum, and the bytes
they come to. A parse gets past the framing exactly on a buffer that
starts with a frame whose length field is the length of the body modulo
the word size: a body end that wraps back into the header finds no `10=`
there.
-/

namespace OrderbookFix

namespace Fix

open Bytes

/-! ## Words as numbers -/

/-- The sum of the bytes, unbounded. -/
def byteSum (bytes : Bytes) : ℕ := (bytes.map UInt8.toNat).sum

theorem byteSum_cons (c : UInt8) (b : Bytes) : byteSum (c :: b) = c.toNat + byteSum b := rfl

theorem byteSum_append (a b : Bytes) : byteSum (a ++ b) = byteSum a + byteSum b := by
  rw [byteSum, List.map_append, List.sum_append]
  rfl

theorem toNat_checksum (bytes : Bytes) : (checksum bytes).toNat = byteSum bytes % 256 := by
  have hfold : ∀ (b : Bytes) (s : UInt32),
      (b.foldl (fun s c => s + c.toUInt32) s).toNat = (s.toNat + byteSum b) % 2 ^ 32 := by
    intro b
    induction b with
    | nil =>
      intro s
      have := s.toNat_lt
      exact (Nat.mod_eq_of_lt this).symm
    | cons c b ih =>
      intro s
      rw [List.foldl_cons, ih, UInt32.toNat_add, UInt8.toNat_toUInt32, byteSum_cons]
      omega
  have hmask : ∀ n : ℕ, n &&& 255 = n % 256 := fun n => Nat.and_two_pow_sub_one_eq_mod n 8
  rw [checksum, UInt32.toNat_and, hfold]
  change _ &&& 255 = _
  rw [hmask, UInt32.toNat_zero]
  omega

theorem parseUintFrom_eq {s : Bytes} (h : ∀ c ∈ s, isDigit c = true) (n : ℕ) :
    parseUintFrom (UInt64.ofNat n) s =
      some (UInt64.ofNat (s.foldl (fun v c => v * 10 + (c.toNat - 0x30)) n)) := by
  induction s generalizing n with
  | nil => rfl
  | cons c s ih =>
    have hc := h c (List.mem_cons_self ..)
    have hle : (0x30 : UInt8) ≤ c := by
      rw [isDigit, Bool.and_eq_true, decide_eq_true_eq] at hc
      exact hc.1
    have hdigit : (c - 0x30).toUInt64 = UInt64.ofNat (c.toNat - 0x30) := by
      rw [← UInt64.toNat_inj, UInt8.toNat_toUInt64, UInt8.toNat_sub_of_le _ _ hle,
        UInt64.toNat_ofNat']
      have := c.toNat_lt
      have h30 : (0x30 : UInt8).toNat = 0x30 := rfl
      omega
    rw [parseUintFrom, if_pos hc, hdigit, List.foldl_cons,
      ← ih fun d hd => h d (List.mem_cons_of_mem _ hd)]
    congr 1
    rw [UInt64.ofNat_add, UInt64.ofNat_mul]
    rfl

theorem parseUintFrom_eq_none {s : Bytes} (h : ∃ c ∈ s, isDigit c = false) (v : UInt64) :
    parseUintFrom v s = none := by
  induction s generalizing v with
  | nil =>
    obtain ⟨c, hc, -⟩ := h
    cases hc
  | cons d s ih =>
    rw [parseUintFrom]
    split
    · rename_i hd
      refine ih ?_ _
      obtain ⟨c, hc, hdigit⟩ := h
      rcases List.mem_cons.mp hc with rfl | hc
      · rw [hd] at hdigit
        cases hdigit
      · exact ⟨c, hc, hdigit⟩
    · rfl

/-- **A number reads as digits**, modulo the word size. -/
theorem parseUint_eq_some_iff {s : Bytes} {v : UInt64} :
    parseUint s = some v ↔
      s ≠ [] ∧ (∀ c ∈ s, isDigit c = true) ∧ v = UInt64.ofNat (digitsValue s) := by
  rw [parseUint]
  by_cases hs : s = []
  · simp [hs]
  rw [if_neg hs]
  by_cases hall : ∀ c ∈ s, isDigit c = true
  · have hval := parseUintFrom_eq hall 0
    rw [← digitsValue] at hval
    change parseUintFrom 0 s = _ at hval
    rw [hval, Option.some.injEq]
    exact ⟨fun h => ⟨hs, hall, h.symm⟩, fun h => h.2.2.symm⟩
  · have hnone : parseUintFrom 0 s = none := by
      refine parseUintFrom_eq_none ?_ 0
      by_contra hn
      refine hall fun c hc => ?_
      by_contra hd
      exact hn ⟨c, hc, by simpa using hd⟩
    rw [hnone]
    constructor
    · intro h
      cases h
    · exact fun h => absurd h.2.1 hall

/-! ## Frames -/

/-- A non-empty run of digits. -/
def Digits (s : Bytes) : Prop := s ≠ [] ∧ ∀ c ∈ s, isDigit c = true

theorem digits_iff {s : Bytes} : (!s.isEmpty && s.all isDigit) = true ↔ Digits s := by
  rw [Bool.and_eq_true, List.all_eq_true, Bool.not_eq_true', Digits, List.isEmpty_eq_false_iff]

instance (s : Bytes) : Decidable (Digits s) := decidable_of_iff _ digits_iff

theorem Digits.notMem {s : Bytes} {c : UInt8} (h : Digits s) (hc : isDigit c = false) : c ∉ s := by
  intro hmem
  rw [h.2 c hmem] at hc
  cases hc

/-- **A frame**: the digits of its length field, its body and the digits
of its checksum. -/
structure Frame where
  len : Bytes
  body : Bytes
  sum : Bytes

namespace Frame

variable (soh : UInt8) (f : Frame)

/-- The bytes before the trailer. -/
def front : Bytes := opening soh f.len f.body

/-- The bytes of a frame. -/
def bytes : Bytes := f.front soh ++ 0x31 :: 0x30 :: 0x3d :: (f.sum ++ [soh])

/-- **A frame holds** if its fields are digits, the checksum is the sum of
the bytes before it, and the length field agrees with the body. -/
structure Holds (agrees : ℕ → ℕ → Prop) : Prop where
  len : Digits f.len
  length : agrees (digitsValue f.len) f.body.length
  sum : f.sum.length = 3 ∧ ∀ c ∈ f.sum, isDigit c = true
  checksum : digitsValue f.sum = byteSum (f.front soh) % 256

/-- The length field as the parser reads it. -/
def Wrapped (n len : ℕ) : Prop := n % 2 ^ 64 = len

theorem length_front : (f.front soh).length = 12 + f.len.length + 1 + f.body.length := by
  have h9 : kBegin.length = 9 := rfl
  rw [front, opening]
  simp only [List.length_append, List.length_cons, h9]
  omega

theorem length_bytes (h : f.sum.length = 3) : (f.bytes soh).length = (f.front soh).length + 7 := by
  rw [bytes]
  simp only [List.length_append, List.length_cons, List.length_nil, h]

theorem Holds.imp {soh : UInt8} {f : Frame} {p q : ℕ → ℕ → Prop} (h : f.Holds soh p)
    (hpq : p (digitsValue f.len) f.body.length → q (digitsValue f.len) f.body.length) :
    f.Holds soh q :=
  ⟨h.len, hpq h.length, h.sum, h.checksum⟩

/-- A length field that is true is one the parser reads as it is. -/
theorem Holds.wrapped {soh : UInt8} {f : Frame} (h : f.Holds soh (· = ·))
    (hlen : f.body.length < 2 ^ 64) : f.Holds soh Wrapped := by
  refine h.imp fun he => ?_
  rw [Wrapped, he, Nat.mod_eq_of_lt hlen]

theorem length_body_le (rest : Bytes) : f.body.length ≤ (f.bytes soh ++ rest).length := by
  have hfront := f.length_front soh
  rw [bytes, List.length_append, List.length_append]
  omega

end Frame

/-! ## Getting past the framing -/

theorem walkFields_not_framing {soh : UInt8} {buf : Bytes} {bodyEnd fuel i : ℕ} {fields : Fields} :
    ¬ (walkFields soh buf bodyEnd fuel i fields).1.Framing := by
  induction fuel generalizing i fields with
  | zero => exact not_framing_none
  | succ fuel ih =>
    rw [walkFields]
    split
    · split
      · exact not_framing_malformedField
      split
      · exact not_framing_malformedField
      split
      · exact not_framing_malformedField
      split
      · exact not_framing_malformedField
      split
      · exact not_framing_malformedField
      split
      · exact not_framing_duplicateField
      · exact ih
    · exact not_framing_none

/-- The fields are no matter of the framing. -/
theorem parseFields_not_framing {soh : UInt8} {buf : Bytes} {bodyEnd : ℕ} {want : UInt32} :
    ¬ (parseFields soh buf bodyEnd want).err.Framing := by
  have hwalk := @walkFields_not_framing soh buf bodyEnd bodyEnd 0 ∅
  rw [parseFields]
  rcases hw : walkFields soh buf bodyEnd bodyEnd 0 ∅ with ⟨e, fields⟩
  rw [hw] at hwalk
  cases e with
  | none => exact not_framing_none
  | _ => exact hwalk

theorem isDigit_of_getElem? {buf : Bytes} {e j : ℕ} {c : UInt8}
    (h : ∀ c ∈ substr buf 12 (e - 12), isDigit c = true) (h12 : 12 ≤ j) (hj : j < e)
    (hc : buf[j]? = some c) : isDigit c = true := by
  refine h c (List.mem_of_getElem? (i := j - 12) ?_)
  rw [substr, List.getElem?_take_of_lt (by omega), List.getElem?_drop]
  rw [show 12 + (j - 12) = j by omega]
  exact hc

/-- **The header holds no trailer**: a body end that wraps back into it
does not find `10=`. -/
theorem lt_of_trailer {soh : Soh} {buf : Bytes} {e bodyEnd : ℕ} {rest : Bytes} (h12 : 12 ≤ e)
    (hsoh : buf[e]? = some soh.byte)
    (hhead : buf = opening soh.byte (substr buf 12 (e - 12)) rest)
    (hdigits : ∀ c ∈ substr buf 12 (e - 12), isDigit c = true)
    (h₀ : buf[bodyEnd]? = some 0x31) (h₁ : buf[bodyEnd + 1]? = some 0x30)
    (h₂ : buf[bodyEnd + 2]? = some 0x3d) : e < bodyEnd := by
  have hne : soh.byte ≠ 0x31 ∧ soh.byte ≠ 0x30 ∧ soh.byte ≠ 0x3d := by cases soh <;> decide
  by_contra hle
  -- the bytes of the header before the length field
  have hhead₁ : ∀ j < 12, buf[j]? = (kBegin ++ [soh.byte, 0x39, 0x3d])[j]? := by
    intro j hj
    have hsplit : buf = (kBegin ++ [soh.byte, 0x39, 0x3d]) ++
        (substr buf 12 (e - 12) ++ soh.byte :: rest) := by
      conv_lhs => rw [hhead]
      simp [opening]
    conv_lhs => rw [hsplit]
    exact List.getElem?_append_left hj
  by_cases h2 : bodyEnd + 2 < 12
  · rw [hhead₁ _ h2] at h₂
    rw [hhead₁ _ (by omega)] at h₀
    have hall : ∀ soh : Soh, ∀ j < 10, ¬ ((kBegin ++ [soh.byte, 0x39, 0x3d])[j]? = some 0x31 ∧
        (kBegin ++ [soh.byte, 0x39, 0x3d])[j + 2]? = some 0x3d) := by
      intro soh
      cases soh <;> decide
    exact hall soh bodyEnd (by omega) ⟨h₀, h₂⟩
  by_cases h2e : bodyEnd + 2 < e
  · have := isDigit_of_getElem? hdigits (by omega) h2e h₂
    exact absurd this (by decide)
  rcases (by omega : bodyEnd + 2 = e ∨ bodyEnd + 1 = e ∨ bodyEnd = e) with rfl | rfl | rfl
  · exact hne.2.2 (Option.some.inj (hsoh.symm.trans h₂))
  · exact hne.2.1 (Option.some.inj (hsoh.symm.trans h₁))
  · exact hne.1 (Option.some.inj (hsoh.symm.trans h₀))

/-- The checksum field, as a number. -/
theorem toNat_sum {s : Bytes} (hlen : s.length = 3) (h : ∀ c ∈ s, isDigit c = true) :
    (UInt64.ofNat (digitsValue s)).toUInt32.toNat = digitsValue s := by
  have hlt := digitsValue_lt h
  rw [hlen] at hlt
  rw [UInt64.toNat_toUInt32, UInt64.toNat_ofNat']
  omega

/-- The frame in a buffer, from the ends of its length field and of its
body. -/
def frameAt (buf : Bytes) (e bodyEnd : ℕ) : Frame :=
  ⟨substr buf 12 (e - 12), substr buf (e + 1) (bodyEnd - (e + 1)), substr buf (bodyEnd + 3) 3⟩

theorem length_front_frameAt {soh : UInt8} {buf : Bytes} {e bodyEnd : ℕ} (h12 : 12 ≤ e)
    (hlt : e < bodyEnd) (hle : bodyEnd ≤ buf.length) :
    ((frameAt buf e bodyEnd).front soh).length = bodyEnd := by
  rw [Frame.length_front, frameAt, length_substr (by omega), length_substr (by omega)]
  omega

/-- A buffer with the opening of a message, split where its body ends. -/
theorem eq_front_frameAt {soh : UInt8} {buf : Bytes} {e bodyEnd : ℕ} (hlt : e < bodyEnd)
    (hhead : buf = opening soh (substr buf 12 (e - 12)) (buf.drop (e + 1))) :
    buf = (frameAt buf e bodyEnd).front soh ++ buf.drop bodyEnd := by
  conv_lhs => rw [hhead, drop_eq_substr buf (e + 1) (bodyEnd - (e + 1)),
    show e + 1 + (bodyEnd - (e + 1)) = bodyEnd by omega]
  simp [Frame.front, opening, frameAt]

/-- **What gets past the framing starts with a frame.** -/
theorem exists_frame {soh : Soh} {buf : Bytes} {r : ParseResult} (hbuf : buf.length < 2 ^ 63)
    (h : parseOne soh buf = .ok r) (hr : ¬ r.err.Framing) :
    ∃ f : Frame, ∃ rest, buf = f.bytes soh.byte ++ rest ∧ f.Holds soh.byte Frame.Wrapped ∧
      r = parseFields soh.byte buf (f.front soh.byte).length (checksum (f.front soh.byte)) := by
  obtain ⟨e, n, h12, hsoh, hhead, hn, htrail⟩ := parseOne_eq_ok h hr
  obtain ⟨hne, hdigits, rfl⟩ := parseUint_eq_some_iff.mp hn
  obtain ⟨bodyEnd, hend⟩ : ∃ bodyEnd, bodyEnd =
      (e + 1 + (UInt64.ofNat (digitsValue (substr buf 12 (e - 12)))).toNat) % 2 ^ 64 := ⟨_, rfl⟩
  rw [← hend] at htrail
  obtain ⟨cs, hin, hdrop, hcs, hwant, hres⟩ := parseTrailer_eq_ok htrail hr
  obtain ⟨hcne, hcdigits, rfl⟩ := parseUint_eq_some_iff.mp hcs
  have hat : ∀ i c, (buf.drop bodyEnd)[i]? = some c → buf[bodyEnd + i]? = some c := by
    intro i c hc
    rwa [List.getElem?_drop] at hc
  -- The sum can wrap back into the header, but no header byte there reads `10=`.
  have hlt : e < bodyEnd := lt_of_trailer h12 hsoh hhead hdigits
    (hat 0 _ (by rw [hdrop]; rfl)) (hat 1 _ (by rw [hdrop]; rfl)) (hat 2 _ (by rw [hdrop]; rfl))
  have hfront := @length_front_frameAt soh.byte buf e bodyEnd h12 hlt (by omega)
  have hsplit := eq_front_frameAt hlt hhead
  have htake : substr buf 0 bodyEnd = (frameAt buf e bodyEnd).front soh.byte := by
    rw [substr, List.drop_zero]
    conv_lhs => rw [hsplit]
    exact List.take_left' hfront
  have hsum : (substr buf (bodyEnd + 3) 3).length = 3 := length_substr (by omega)
  refine ⟨frameAt buf e bodyEnd, buf.drop (bodyEnd + 7), ?_,
    ⟨⟨hne, hdigits⟩, ?_, ⟨hsum, hcdigits⟩, ?_⟩, ?_⟩
  · conv_lhs => rw [hsplit, hdrop]
    simp [Frame.bytes, frameAt]
  · change digitsValue (substr buf 12 (e - 12)) % 2 ^ 64 = (substr buf (e + 1) _).length
    rw [length_substr (by omega)]
    rw [UInt64.toNat_ofNat'] at hend
    omega
  · rw [← htake, ← toNat_checksum, ← hwant]
    exact (toNat_sum hsum hcdigits).symm
  · rw [hfront, ← htake, ← hwant]
    exact hres

/-! ## From the frame -/

/-- The checks an opening passes. -/
theorem opening_spec {soh : Soh} {len tail buf : Bytes} (hlen : Digits len)
    (hb : buf = opening soh.byte len tail) :
    substr buf 0 9 = kBegin ∧ buf[9]? = some soh.byte ∧ buf[10]? = some 0x39 ∧
      buf[11]? = some 0x3d ∧ findFrom soh.byte 12 buf = some (12 + len.length) ∧
      parseUint (substr buf 12 (12 + len.length - 12)) =
        some (UInt64.ofNat (digitsValue len)) := by
  have hbuf : buf = (kBegin ++ [soh.byte, 0x39, 0x3d]) ++ (len ++ soh.byte :: tail) := by
    simp [hb, opening]
  have hsub : substr buf 12 (12 + len.length - 12) = len := by
    rw [hbuf, Nat.add_sub_cancel_left]
    exact substr_of_eq (p := kBegin ++ [soh.byte, 0x39, 0x3d])
  refine ⟨?_, by rw [hbuf]; rfl, by rw [hbuf]; rfl, by rw [hbuf]; rfl, ?_, ?_⟩
  · have h9 : (9 : ℕ) = kBegin.length := rfl
    rw [hb, opening, substr, List.drop_zero, h9, List.take_left]
  · rw [hbuf]
    exact findFrom_of_notMem (p := kBegin ++ [soh.byte, 0x39, 0x3d])
      (hlen.notMem (isDigit_soh soh))
  · rw [hsub]
    exact parseUint_eq_some_iff.mpr ⟨hlen.1, hlen.2, rfl⟩

/-- **A header of the right form** is read up to its length field. -/
theorem parseOne_opening {soh : Soh} {len tail buf : Bytes} (hlen : Digits len)
    (hb : buf = opening soh.byte len tail) (h20 : 20 ≤ buf.length) :
    parseOne soh buf =
      if (12 + len.length + 1 + digitsValue len % 2 ^ 64 + 7) % 2 ^ 64 > buf.length then
        .ok (.failed .incomplete)
      else
        parseTrailer soh.byte buf
          ((12 + len.length + 1 + digitsValue len % 2 ^ 64) % 2 ^ 64) := by
  obtain ⟨hbegin, h9, h10, h11, hfind, hval⟩ := opening_spec hlen hb
  rw [parseOne, if_neg (by omega), if_neg (not_not.mpr hbegin), if_neg (not_not.mpr h9),
    if_neg (not_or.mpr ⟨not_not.mpr h10, not_not.mpr h11⟩), parseFrame]
  simp only [hfind, hval, UInt64.toNat_ofNat']

/-- **A trailer of the right form** holds if its checksum does. -/
theorem parseTrailer_of_sum {soh : UInt8} {out sum r : Bytes} (hlen : sum.length = 3)
    (hdigits : ∀ c ∈ sum, isDigit c = true) (hsum : digitsValue sum = byteSum out % 256) :
    parseTrailer soh (out ++ 0x31 :: 0x30 :: 0x3d :: (sum ++ soh :: r)) out.length =
      .ok (parseFields soh (out ++ 0x31 :: 0x30 :: 0x3d :: (sum ++ soh :: r)) out.length
        (checksum out)) := by
  set buf := out ++ 0x31 :: 0x30 :: 0x3d :: (sum ++ soh :: r) with hb
  have hread : ∀ i c, (0x31 :: 0x30 :: 0x3d :: (sum ++ soh :: r))[i]? = some c →
      read buf (out.length + i) = .ok c := by
    intro i c hc
    rw [read, hb, List.getElem?_append_right (Nat.le_add_right ..), Nat.add_sub_cancel_left, hc]
  have hsub : substr buf (out.length + 3) 3 = sum := by
    have hsplit : buf = (out ++ [0x31, 0x30, 0x3d]) ++ (sum ++ soh :: r) := by simp [hb]
    have hl : out.length + 3 = (out ++ [0x31, 0x30, 0x3d]).length := by simp
    rw [hsplit, hl, ← hlen]
    exact substr_of_eq
  have hpre : substr buf 0 out.length = out := by
    rw [hb, substr, List.drop_zero, List.take_left]
  have hne : sum ≠ [] := List.ne_nil_of_length_pos (by omega)
  have hval : parseUint sum = some (UInt64.ofNat (digitsValue sum)) :=
    parseUint_eq_some_iff.mpr ⟨hne, hdigits, rfl⟩
  have hwant : (UInt64.ofNat (digitsValue sum)).toUInt32 = checksum out := by
    rw [← UInt32.toNat_inj, toNat_sum hlen hdigits, toNat_checksum, hsum]
  have hr₀ : read buf out.length = .ok 0x31 := hread 0 0x31 rfl
  have hr₁ : read buf (out.length + 1) = .ok 0x30 := hread 1 0x30 rfl
  have hr₂ : read buf (out.length + 2) = .ok 0x3d := hread 2 0x3d rfl
  have hr₆ : read buf (out.length + 6) = .ok soh := by
    refine hread 6 soh ?_
    rw [show 6 = sum.length + 1 + 1 + 1 by omega]
    simp
  simp only [parseTrailer, hr₀, hr₁, hr₂, hr₆, bind, Except.bind, pure, Except.pure, hsub,
    hval, hwant, hpre, ne_eq, not_true_eq_false, if_false]

/-- **A frame gets past the framing**, whatever follows it. -/
theorem parseOne_of_holds {soh : Soh} {f : Frame} {rest : Bytes}
    (hbuf : (f.bytes soh.byte ++ rest).length < 2 ^ 64) (h : f.Holds soh.byte Frame.Wrapped) :
    parseOne soh (f.bytes soh.byte ++ rest) =
      .ok (parseFields soh.byte (f.bytes soh.byte ++ rest) (f.front soh.byte).length
        (checksum (f.front soh.byte))) := by
  have htail : f.bytes soh.byte ++ rest =
      f.front soh.byte ++ 0x31 :: 0x30 :: 0x3d :: (f.sum ++ soh.byte :: rest) := by
    simp [Frame.bytes]
  have hhead : f.bytes soh.byte ++ rest = opening soh.byte f.len
      (f.body ++ 0x31 :: 0x30 :: 0x3d :: (f.sum ++ soh.byte :: rest)) := by
    simp [Frame.bytes, Frame.front, opening]
  have hlen := h.length
  rw [Frame.Wrapped] at hlen
  have hfront := f.length_front soh.byte
  have hbytes := f.length_bytes soh.byte h.sum.1
  have hpos := List.length_pos_of_ne_nil h.len.1
  have hend : 12 + f.len.length + 1 + digitsValue f.len % 2 ^ 64 = (f.front soh.byte).length := by
    omega
  have hle : (f.bytes soh.byte).length ≤ (f.bytes soh.byte ++ rest).length := by
    rw [List.length_append]
    omega
  have hparse := parseOne_opening h.len hhead (by omega)
  rw [hend, if_neg (by rw [Nat.mod_eq_of_lt (by omega)]; omega),
    Nat.mod_eq_of_lt (by omega)] at hparse
  rw [hparse, htail]
  exact parseTrailer_of_sum h.sum.1 h.sum.2 h.checksum

/-! ## Faults -/

/-- **A length field that wraps.** The end of the message it gives is one
of the last addresses, and the check for a whole message overflows. -/
def Wraps (soh : Soh) (buf : Bytes) : Prop :=
  20 ≤ buf.length ∧ substr buf 0 9 = kBegin ∧ buf[9]? = some soh.byte ∧
    buf[10]? = some 0x39 ∧ buf[11]? = some 0x3d ∧
    ∃ bodyLenEnd bodyLen, findFrom soh.byte 12 buf = some bodyLenEnd ∧
      parseUint (substr buf 12 (bodyLenEnd - 12)) = some bodyLen ∧
      2 ^ 64 - 7 ≤ (bodyLenEnd + 1 + bodyLen.toNat) % 2 ^ 64

/-- The frame is read without a fault unless the length field wraps. -/
theorem parseFrame_returns_iff {soh : UInt8} {buf : Bytes} (h20 : 20 ≤ buf.length)
    (hlen : buf.length < 2 ^ 63) :
    (∃ r, parseFrame soh buf = .ok r) ↔
      ¬ ∃ bodyLenEnd bodyLen, findFrom soh 12 buf = some bodyLenEnd ∧
        parseUint (substr buf 12 (bodyLenEnd - 12)) = some bodyLen ∧
        2 ^ 64 - 7 ≤ (bodyLenEnd + 1 + bodyLen.toNat) % 2 ^ 64 := by
  rw [parseFrame]
  rcases hfind : findFrom soh 12 buf with _ | e
  · refine ⟨?_, fun _ => ⟨_, rfl⟩⟩
    rintro - ⟨e, n, he, -⟩
    cases he
  dsimp only
  rcases hn : parseUint (substr buf 12 (e - 12)) with _ | n
  · refine ⟨?_, fun _ => ⟨_, rfl⟩⟩
    rintro - ⟨e', n, he, hn', -⟩
    obtain rfl := Option.some.inj he
    rw [hn] at hn'
    cases hn'
  have hwraps : (∃ e' n', some e = some e' ∧ parseUint (substr buf 12 (e' - 12)) = some n' ∧
      2 ^ 64 - 7 ≤ (e' + 1 + n'.toNat) % 2 ^ 64) ↔ 2 ^ 64 - 7 ≤ (e + 1 + n.toNat) % 2 ^ 64 := by
    refine ⟨?_, fun h => ⟨e, n, rfl, hn, h⟩⟩
    rintro ⟨e', n', he, hn', h⟩
    obtain rfl := Option.some.inj he
    obtain rfl := Option.some.inj (hn.symm.trans hn')
    exact h
  dsimp only
  rw [hwraps]
  by_cases hinc : (e + 1 + n.toNat + 7) % 2 ^ 64 > buf.length
  · rw [if_pos hinc]
    exact ⟨fun _ h => by omega, fun _ => ⟨_, rfl⟩⟩
  rw [if_neg hinc]
  by_cases hend : (e + 1 + n.toNat) % 2 ^ 64 + 7 ≤ buf.length
  · exact ⟨fun _ h => by omega, fun _ => parseTrailer_returns hend⟩
  · rw [parseTrailer_of_le (by omega)]
    refine ⟨fun h => absurd h (not_returns_error _), fun h => absurd ?_ h⟩
    omega

/-- A parse returns unless the length field wraps. -/
theorem parseOne_returns_iff {soh : Soh} {buf : Bytes} (hlen : buf.length < 2 ^ 63) :
    (∃ r, parseOne soh buf = .ok r) ↔ ¬ Wraps soh buf := by
  rw [parseOne, Wraps]
  by_cases h20 : buf.length < 20
  · rw [if_pos h20]
    exact ⟨fun _ h => by omega, fun _ => ⟨_, rfl⟩⟩
  rw [if_neg h20]
  by_cases hb : substr buf 0 9 ≠ kBegin
  · rw [if_pos hb]
    exact ⟨fun _ h => hb h.2.1, fun _ => ⟨_, rfl⟩⟩
  rw [if_neg hb]
  by_cases h9 : buf[9]? ≠ some soh.byte
  · rw [if_pos h9]
    exact ⟨fun _ h => h9 h.2.2.1, fun _ => ⟨_, rfl⟩⟩
  rw [if_neg h9]
  by_cases h10 : buf[10]? ≠ some 0x39 ∨ buf[11]? ≠ some 0x3d
  · rw [if_pos h10]
    exact ⟨fun _ h => h10.elim (fun hn => hn h.2.2.2.1) fun hn => hn h.2.2.2.2.1,
      fun _ => ⟨_, rfl⟩⟩
  rw [if_neg h10, parseFrame_returns_iff (by omega) hlen]
  rw [not_or, not_not, not_not] at h10
  exact not_congr ⟨fun h => ⟨by omega, not_not.mp hb, not_not.mp h9, h10.1, h10.2, h⟩,
    fun h => h.2.2.2.2.2⟩

/-- **A length field that points at the last addresses**, in bytes: the
end of the message comes to one of the seven before the word size. -/
def LengthWraps (soh : Soh) (buf : Bytes) : Prop :=
  20 ≤ buf.length ∧ ∃ len tail, buf = opening soh.byte len tail ∧ Digits len ∧
    2 ^ 64 - 7 ≤ (12 + len.length + 1 + digitsValue len) % 2 ^ 64

theorem wraps_iff {soh : Soh} {buf : Bytes} : Wraps soh buf ↔ LengthWraps soh buf := by
  constructor
  · rintro ⟨h20, hbegin, h9, h10, h11, e, n, he, hn, hw⟩
    obtain ⟨h12, hsoh, hopen⟩ := eq_opening hbegin h9 h10 h11 he
    obtain ⟨hne, hdigits, rfl⟩ := parseUint_eq_some_iff.mp hn
    have hlt := (List.getElem?_eq_some_iff.mp hsoh).1
    have hlen : (substr buf 12 (e - 12)).length = e - 12 := length_substr (by omega)
    refine ⟨h20, _, _, hopen, ⟨hne, hdigits⟩, ?_⟩
    rw [UInt64.toNat_ofNat'] at hw
    omega
  · rintro ⟨h20, len, tail, hb, hlen, hw⟩
    obtain ⟨hbegin, h9, h10, h11, hfind, hval⟩ := opening_spec hlen hb
    refine ⟨h20, hbegin, h9, h10, h11, _, _, hfind, hval, ?_⟩
    rw [UInt64.toNat_ofNat']
    omega

end Fix

end OrderbookFix
