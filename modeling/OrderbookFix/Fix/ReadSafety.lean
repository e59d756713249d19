import OrderbookFix.Fix.Model.Reads
import OrderbookFix.Fix.Helpers.Frame
/-!
# What the parser reads

The accesses of a parse are safe exactly if it returns: it stops at its
first fault, and each access faults exactly if it is unsafe. It returns
unless the length field makes the sum of a position and a length wrap,
which is where the one check before the trailer lets it through.
-/

namespace OrderbookFix

namespace Fix

open Bytes

/-! ## The same results -/

section Results

variable {soh : UInt8} {buf : Bytes} {bodyEnd : ℕ}

theorem result_indexAt (i : ℕ) : (indexAt buf i).result = read buf i := rfl

theorem result_substrAt {i : ℕ} (n : ℕ) (h : i ≤ buf.length) :
    (substrAt buf i n).result = .ok (substr buf i n) := if_pos h

theorem result_walkFieldsReads (fuel i : ℕ) (fields : Fields) :
    (walkFieldsReads soh buf bodyEnd fuel i fields).result =
      .ok (walkFields soh buf bodyEnd fuel i fields) := by
  induction fuel generalizing i fields with
  | zero => rfl
  | succ fuel ih =>
    rw [walkFieldsReads, walkFields]
    by_cases hi : i < bodyEnd
    · rw [if_pos hi, if_pos hi]
      rcases heq : findFrom 0x3d i buf with _ | eq
      · rfl
      dsimp only
      by_cases he : bodyEnd ≤ eq
      · rw [if_pos he, if_pos he]
        rfl
      -- a byte was found, so both substrings start inside the buffer
      have hlt := findFrom_lt heq
      have hle := (findFrom_spec heq).1
      rw [if_neg he, if_neg he, Traced.result_bind_of_ok (result_substrAt _ (by omega))]
      rcases parseUint (substr buf i (eq - i)) with _ | tag
      · rfl
      rcases findFrom soh (eq + 1) buf with _ | sohAt
      · rfl
      dsimp only
      by_cases hs : bodyEnd < sohAt
      · rw [if_pos hs, if_pos hs]
        rfl
      rw [if_neg hs, if_neg hs, Traced.result_bind_of_ok (result_substrAt _ (by omega)),
        Traced.result_ite, ih, Traced.result_pure, apply_ite Except.ok]
    · rw [if_neg hi, if_neg hi]
      rfl

theorem result_parseFieldsReads (want : UInt32) :
    (parseFieldsReads soh buf bodyEnd want).result = .ok (parseFields soh buf bodyEnd want) := by
  rw [parseFieldsReads, parseFields, Traced.result_bind_of_ok (result_walkFieldsReads ..)]
  rcases walkFields soh buf bodyEnd bodyEnd 0 ∅ with ⟨e, fields⟩
  cases e <;> rfl

theorem result_parseTrailerReads :
    (parseTrailerReads soh buf bodyEnd).result = parseTrailer soh buf bodyEnd := by
  rw [parseTrailerReads, parseTrailer]
  refine Traced.result_bind_congr fun c₀ _ => ?_
  rw [Traced.result_ite]
  refine if_congr Iff.rfl rfl ?_
  refine Traced.result_bind_congr fun c₁ _ => ?_
  rw [Traced.result_ite]
  refine if_congr Iff.rfl rfl ?_
  refine Traced.result_bind_congr fun c₂ h₂ => ?_
  rw [Traced.result_ite]
  refine if_congr Iff.rfl rfl ?_
  have hlt := lt_of_read h₂
  rw [Traced.result_bind_of_ok (result_substrAt _ (by omega))]
  rcases parseUint (substr buf (bodyEnd + 3) 3) with _ | cs
  · rfl
  refine Traced.result_bind_congr fun c₆ _ => ?_
  rw [Traced.result_ite]
  refine if_congr Iff.rfl rfl ?_
  rw [Traced.result_bind_of_ok (result_substrAt _ (Nat.zero_le _)), Traced.result_ite,
    result_parseFieldsReads]
  rfl

theorem result_parseFrameReads (h12 : 12 ≤ buf.length) :
    (parseFrameReads soh buf).result = parseFrame soh buf := by
  rw [parseFrameReads, parseFrame]
  rcases findFrom soh 12 buf with _ | bodyLenEnd
  · rfl
  dsimp only
  rw [Traced.result_bind_of_ok (result_substrAt _ h12)]
  rcases parseUint (substr buf 12 (bodyLenEnd - 12)) with _ | bodyLen
  · rfl
  dsimp only
  rw [Traced.result_ite, result_parseTrailerReads]
  rfl

/-- **The parser that logs its accesses is the parser.** -/
theorem result_parseOneReads (soh : Soh) (buf : Bytes) :
    (parseOneReads soh buf).result = parseOne soh buf := by
  rw [parseOneReads, parseOne]
  by_cases h20 : buf.length < 20
  · rw [if_pos h20, if_pos h20]
    rfl
  have hread : ∀ i < 20, ∃ c, buf[i]? = some c ∧ (indexAt buf i).result = .ok c := by
    intro i hi
    have hlt : i < buf.length := by omega
    exact ⟨buf[i], List.getElem?_eq_getElem hlt, by
      rw [result_indexAt, read, List.getElem?_eq_getElem hlt]⟩
  obtain ⟨c₉, h₉, hr₉⟩ := hread 9 (by omega)
  obtain ⟨c₁₀, h₁₀, hr₁₀⟩ := hread 10 (by omega)
  obtain ⟨c₁₁, h₁₁, hr₁₁⟩ := hread 11 (by omega)
  rw [if_neg h20, if_neg h20, Traced.result_bind_of_ok (result_substrAt _ (Nat.zero_le _)),
    Traced.result_ite, Traced.result_bind_of_ok hr₉, Traced.result_ite,
    Traced.result_bind_of_ok hr₁₀, Traced.result_ite, Traced.result_bind_of_ok hr₁₁,
    Traced.result_ite, result_parseFrameReads (by omega), h₉, h₁₀, h₁₁]
  simp only [Traced.result_pure, ne_eq, Option.some.injEq]
  split_ifs <;> simp_all

end Results

/-! ## Safe and returning -/

section Safe

variable {soh : UInt8} {buf : Bytes} {bodyEnd : ℕ}

/-- The accesses of a computation are safe exactly if it returns. -/
abbrev ReadsExact {α : Type} (buf : Bytes) (x : Reads α) : Prop :=
  x.Exact (Access.Safe buf.length)

theorem exact_indexAt (i : ℕ) : ReadsExact buf (indexAt buf i) := by
  refine Traced.Exact.access ⟨fun h => ?_, fun ⟨_, h⟩ => lt_of_read h⟩
  have hi : i < buf.length := h
  exact ⟨buf[i], by rw [read, List.getElem?_eq_getElem hi]⟩

theorem exact_substrAt (i n : ℕ) : ReadsExact buf (substrAt buf i n) := by
  refine Traced.Exact.access ⟨fun h => ⟨_, if_pos h⟩, fun ⟨_, h⟩ => ?_⟩
  split at h
  · assumption
  · cases h

theorem exact_walkFieldsReads (fuel i : ℕ) (fields : Fields) :
    ReadsExact buf (walkFieldsReads soh buf bodyEnd fuel i fields) := by
  induction fuel generalizing i fields with
  | zero => exact .pure _
  | succ fuel ih =>
    rw [walkFieldsReads]
    refine .ite (fun _ => ?_) fun _ => .pure _
    rcases findFrom 0x3d i buf with _ | eq
    · exact .pure _
    refine .ite (fun _ => .pure _) fun _ => .bind (exact_substrAt ..) fun tag _ => ?_
    rcases parseUint tag with _ | tag
    · exact .pure _
    rcases findFrom soh (eq + 1) buf with _ | sohAt
    · exact .pure _
    refine .ite (fun _ => .pure _) fun _ => .bind (exact_substrAt ..) fun val _ => ?_
    exact .ite (fun _ => .pure _) fun _ => ih _ _

theorem exact_parseFieldsReads (want : UInt32) :
    ReadsExact buf (parseFieldsReads soh buf bodyEnd want) := by
  refine .bind (exact_walkFieldsReads ..) fun r _ => ?_
  rcases r with ⟨e, fields⟩
  cases e <;> exact .pure _

theorem exact_parseTrailerReads : ReadsExact buf (parseTrailerReads soh buf bodyEnd) := by
  refine .bind (exact_indexAt _) fun c₀ _ => .ite (fun _ => .pure _) fun _ => ?_
  refine .bind (exact_indexAt _) fun c₁ _ => .ite (fun _ => .pure _) fun _ => ?_
  refine .bind (exact_indexAt _) fun c₂ _ => .ite (fun _ => .pure _) fun _ => ?_
  refine .bind (exact_substrAt ..) fun cs _ => ?_
  rcases parseUint cs with _ | cs
  · exact .pure _
  refine .bind (exact_indexAt _) fun c₆ _ => .ite (fun _ => .pure _) fun _ => ?_
  refine .bind (exact_substrAt ..) fun front _ => ?_
  exact .ite (fun _ => .pure _) fun _ => exact_parseFieldsReads _

theorem exact_parseFrameReads : ReadsExact buf (parseFrameReads soh buf) := by
  rw [parseFrameReads]
  rcases findFrom soh 12 buf with _ | bodyLenEnd
  · exact .pure _
  refine .bind (exact_substrAt ..) fun len _ => ?_
  rcases parseUint len with _ | bodyLen
  · exact .pure _
  exact .ite (fun _ => .pure _) fun _ => exact_parseTrailerReads

end Safe

theorem exact_parseOneReads (soh : Soh) (buf : Bytes) : ReadsExact buf (parseOneReads soh buf) := by
  refine .ite (fun _ => .pure _) fun _ => .bind (exact_substrAt ..) fun front _ => ?_
  refine .ite (fun _ => .pure _) fun _ => .bind (exact_indexAt _) fun c₉ _ => ?_
  refine .ite (fun _ => .pure _) fun _ => .bind (exact_indexAt _) fun c₁₀ _ => ?_
  refine .ite (fun _ => .pure _) fun _ => .bind (exact_indexAt _) fun c₁₁ _ => ?_
  exact .ite (fun _ => .pure _) fun _ => exact_parseFrameReads

/-- **The parser reads inside its buffer**: every position it subscripts
is smaller than the size and every offset at most the size, exactly where
the length field does not point at the last addresses. -/
theorem parse_reads_safe_iff {soh : Soh} {buf : Bytes} (hbuf : buf.length < 2 ^ 63) :
    (∀ a ∈ (parseOneReads soh buf).log, a.Safe buf.length) ↔ ¬ LengthWraps soh buf := by
  refine (exact_parseOneReads soh buf).trans ?_
  rw [result_parseOneReads, parseOne_returns_iff hbuf, wraps_iff]

/-- A Heartbeat is read inside its twenty-six bytes. -/
theorem parse_reads_safe_heartbeat :
    ¬ LengthWraps .text (ascii "8=FIX.4.4|9=5|35=0|10=020|") ∧
      ∀ a ∈ (parseOneReads .text (ascii "8=FIX.4.4|9=5|35=0|10=020|")).log,
        a.Safe (ascii "8=FIX.4.4|9=5|35=0|10=020|").length := by
  have hbuf : (ascii "8=FIX.4.4|9=5|35=0|10=020|").length < 2 ^ 63 := by decide
  obtain ⟨r, hr, -⟩ := passes_iff.mp (by decide +kernel : passes (fun _ => true)
    (parseOne .text (ascii "8=FIX.4.4|9=5|35=0|10=020|")) = true)
  have hwraps : ¬ LengthWraps .text (ascii "8=FIX.4.4|9=5|35=0|10=020|") := by
    rw [← wraps_iff, ← parseOne_returns_iff hbuf]
    exact ⟨r, hr⟩
  exact ⟨hwraps, (parse_reads_safe_iff hbuf).mpr hwraps⟩

/-- A length field of `2^64 - 34`: the trailer is looked for at position
`2^64 - 1` of a buffer of forty-one bytes. -/
theorem wrapped_length_read :
    ¬ ∀ a ∈ (parseOneReads .text (ascii "8=FIX.4.4|9=18446744073709551582|aaaaaaaa")).log,
      a.Safe (ascii "8=FIX.4.4|9=18446744073709551582|aaaaaaaa").length := by
  decide +kernel

end Fix

end OrderbookFix
