import OrderbookFix.Fix.Model.Codec
/-!
# What a parse says of its buffer

A verdict other than `incomplete` rests on the bytes of the message
alone, so it stands when more bytes follow. What gets past the framing
has the opening of a message and, where its length field points, a
trailer. A message that parses takes bytes off the buffer, and none of
its values holds the separator.
-/

namespace OrderbookFix

namespace Fix

open Bytes

/-! ## More bytes -/

section Append

variable {soh : UInt8} {buf ext : Bytes} {bodyEnd : ℕ}

theorem read_append {i : ℕ} (h : i < buf.length) : read (buf ++ ext) i = read buf i := by
  rw [read, read, List.getElem?_append_left h]

theorem read_of_le {i : ℕ} (h : buf.length ≤ i) : read buf i = .error .outOfBounds := by
  rw [read, List.getElem?_eq_none h]

/-- The walk stops at the end of the body. A separator found past it ends
the walk as one not found at all does. -/
theorem walkFields_append (h : bodyEnd < buf.length) (fuel i : ℕ) (fields : Fields) :
    walkFields soh (buf ++ ext) bodyEnd fuel i fields =
      walkFields soh buf bodyEnd fuel i fields := by
  induction fuel generalizing i fields with
  | zero => rfl
  | succ fuel ih =>
    rw [walkFields, walkFields]
    by_cases hi : i < bodyEnd
    · rw [if_pos hi, if_pos hi]
      rcases heq : findFrom 0x3d i buf with _ | eq
      · rcases heq' : findFrom 0x3d i (buf ++ ext) with _ | eq'
        · rfl
        -- A delimiter first met in the extension lies past `bodyEnd`: both walks are malformed.
        · have hle := le_of_findFrom_append heq (by omega) heq'
          dsimp only
          rw [if_pos (by omega)]
      · rw [findFrom_append heq]
        dsimp only
        have hlt := findFrom_lt heq
        have hie := (findFrom_spec heq).1
        by_cases hbe : bodyEnd ≤ eq
        · rw [if_pos hbe, if_pos hbe]
        rw [if_neg hbe, if_neg hbe, substr_append (by omega)]
        rcases parseUint (substr buf i (eq - i)) with _ | tag
        · rfl
        dsimp only
        rcases hsoh : findFrom soh (eq + 1) buf with _ | sohAt
        · rcases hsoh' : findFrom soh (eq + 1) (buf ++ ext) with _ | sohAt'
          · rfl
          · have hle := le_of_findFrom_append hsoh (by omega) hsoh'
            dsimp only
            rw [if_pos (by omega)]
        · rw [findFrom_append hsoh]
          dsimp only
          have hslt := findFrom_lt hsoh
          have hes := (findFrom_spec hsoh).1
          rw [substr_append (by omega), ih]
    · rw [if_neg hi, if_neg hi]

theorem parseTrailer_append (h : bodyEnd + 7 ≤ buf.length) :
    parseTrailer soh (buf ++ ext) bodyEnd = parseTrailer soh buf bodyEnd := by
  have hfields : ∀ want, parseFields soh (buf ++ ext) bodyEnd want =
      parseFields soh buf bodyEnd want := by
    intro want
    rw [parseFields, parseFields, walkFields_append (by omega)]
  simp only [parseTrailer, read_append (show bodyEnd < buf.length by omega),
    read_append (show bodyEnd + 1 < buf.length by omega),
    read_append (show bodyEnd + 2 < buf.length by omega),
    read_append (show bodyEnd + 6 < buf.length by omega),
    substr_append (show bodyEnd + 3 + 3 ≤ buf.length by omega),
    substr_append (show 0 + bodyEnd ≤ buf.length by omega), hfields]

/-- A message that ends past the buffer has no trailer to read. -/
theorem parseTrailer_of_le (h : buf.length ≤ bodyEnd) :
    parseTrailer soh buf bodyEnd = .error .outOfBounds := by
  rw [parseTrailer, read_of_le h]
  rfl

theorem parseFrame_append (hlen : (buf ++ ext).length < 2 ^ 63)
    (h : ∀ r, parseFrame soh buf = .ok r → r.err ≠ .incomplete) (h12 : 12 ≤ buf.length) :
    parseFrame soh (buf ++ ext) = parseFrame soh buf := by
  have hle : buf.length ≤ (buf ++ ext).length := by
    rw [List.length_append]
    exact Nat.le_add_right ..
  rw [parseFrame] at h
  rw [parseFrame, parseFrame]
  rcases hfind : findFrom soh 12 buf with _ | bodyLenEnd
  · rw [hfind] at h
    exact absurd rfl (h _ rfl)
  rw [hfind] at h
  rw [findFrom_append hfind]
  have hlt := findFrom_lt hfind
  have h12' := (findFrom_spec hfind).1
  dsimp only at h ⊢
  rw [substr_append (by omega)]
  rcases hlen' : parseUint (substr buf 12 (bodyLenEnd - 12)) with _ | bodyLen
  · rfl
  rw [hlen'] at h
  dsimp only at h ⊢
  by_cases hinc : (bodyLenEnd + 1 + bodyLen.toNat + 7) % 2 ^ 64 > buf.length
  · rw [if_pos hinc] at h
    exact absurd rfl (h _ rfl)
  rw [if_neg hinc, if_neg (by omega)]
  by_cases hend : (bodyLenEnd + 1 + bodyLen.toNat) % 2 ^ 64 + 7 ≤ buf.length
  · exact parseTrailer_append hend
  · -- the length field makes the sum wrap: the trailer is past any buffer
    rw [parseTrailer_of_le (by omega), parseTrailer_of_le (by omega)]

end Append

/-- **A verdict stands when more bytes follow**, up to the size a string
can have. -/
theorem parseOne_append {soh : Soh} {buf ext : Bytes} (hlen : (buf ++ ext).length < 2 ^ 63)
    (h : ∀ r, parseOne soh buf = .ok r → r.err ≠ .incomplete) :
    parseOne soh (buf ++ ext) = parseOne soh buf := by
  rw [parseOne] at h
  rw [parseOne, parseOne]
  by_cases h20 : buf.length < 20
  · rw [if_pos h20] at h
    exact absurd rfl (h _ rfl)
  have h20' : ¬ (buf ++ ext).length < 20 := by
    rw [List.length_append]
    omega
  rw [if_neg h20] at h
  rw [if_neg h20, if_neg h20', substr_append (by omega),
    List.getElem?_append_left (by omega), List.getElem?_append_left (by omega),
    List.getElem?_append_left (by omega)]
  by_cases hb : substr buf 0 9 ≠ kBegin
  · rw [if_pos hb, if_pos hb]
  rw [if_neg hb] at h ⊢
  rw [if_neg hb]
  by_cases h9 : buf[9]? ≠ some soh.byte
  · rw [if_pos h9, if_pos h9]
  rw [if_neg h9] at h ⊢
  rw [if_neg h9]
  by_cases h10 : buf[10]? ≠ some 0x39 ∨ buf[11]? ≠ some 0x3d
  · rw [if_pos h10, if_pos h10]
  rw [if_neg h10] at h ⊢
  rw [if_neg h10]
  exact parseFrame_append hlen h (by omega)

/-! ## Past the framing -/

/-- The verdicts of the framing. -/
def ParseError.Framing (e : ParseError) : Prop :=
  e = .incomplete ∨ e = .badHeader ∨ e = .badBodyLength ∨ e = .badCheckSum

instance (e : ParseError) : Decidable e.Framing := inferInstanceAs (Decidable (_ ∨ _))

theorem not_framing_none : ¬ ParseError.none.Framing := by decide

theorem not_framing_malformedField : ¬ ParseError.malformedField.Framing := by decide

theorem not_framing_duplicateField : ¬ ParseError.duplicateField.Framing := by decide

theorem lt_of_read {buf : Bytes} {i : ℕ} {c : UInt8} (h : read buf i = .ok c) :
    i < buf.length := by
  by_contra hi
  rw [read_of_le (by omega)] at h
  cases h

theorem getElem?_of_read {buf : Bytes} {i : ℕ} {c : UInt8} (h : read buf i = .ok c) :
    buf[i]? = some c := by
  rw [read] at h
  split at h
  · rename_i d hd
    rw [hd, Except.ok.inj h]
  · cases h

/-- **A trailer that holds**, byte by byte. -/
theorem parseTrailer_eq_ok {soh : UInt8} {buf : Bytes} {bodyEnd : ℕ} {r : ParseResult}
    (h : parseTrailer soh buf bodyEnd = .ok r) (hr : ¬ r.err.Framing) :
    ∃ cs, bodyEnd + 7 ≤ buf.length ∧ buf.drop bodyEnd =
        0x31 :: 0x30 :: 0x3d :: (substr buf (bodyEnd + 3) 3 ++ soh :: buf.drop (bodyEnd + 7)) ∧
      parseUint (substr buf (bodyEnd + 3) 3) = some cs ∧
      cs.toUInt32 = checksum (substr buf 0 bodyEnd) ∧
      r = parseFields soh buf bodyEnd cs.toUInt32 := by
  have hsum : ∀ {r : ParseResult}, r = .failed .badCheckSum → r.err.Framing := by
    rintro r rfl
    exact .inr (.inr (.inr rfl))
  -- Each byte of the trailer is read, then compared; every mismatch is a bad checksum.
  simp only [parseTrailer, bind, Except.bind, pure, Except.pure] at h
  split at h
  · cases h
  rename_i c₀ h₀
  split_ifs at h with hc₀
  · exact absurd (hsum (Except.ok.inj h).symm) hr
  split at h
  · cases h
  rename_i c₁ h₁
  split_ifs at h with hc₁
  · exact absurd (hsum (Except.ok.inj h).symm) hr
  split at h
  · cases h
  rename_i c₂ h₂
  split_ifs at h with hc₂
  · exact absurd (hsum (Except.ok.inj h).symm) hr
  split at h
  · exact absurd (hsum (Except.ok.inj h).symm) hr
  rename_i cs hcs
  split at h
  · cases h
  rename_i c₆ h₆
  split_ifs at h with hc₆ hwant
  · exact absurd (hsum (Except.ok.inj h).symm) hr
  · exact absurd (hsum (Except.ok.inj h).symm) hr
  rw [not_not] at hc₀ hc₁ hc₂ hc₆ hwant
  subst hc₀ hc₁ hc₂ hc₆
  refine ⟨cs, lt_of_read h₆, ?_, hcs, hwant, (Except.ok.inj h).symm⟩
  rw [drop_eq_cons (getElem?_of_read h₀), drop_eq_cons (getElem?_of_read h₁),
    drop_eq_cons (getElem?_of_read h₂), drop_eq_substr buf (bodyEnd + 1 + 1 + 1) 3,
    drop_eq_cons (getElem?_of_read h₆)]

/-- A message with this length field, up to its separator, and what
follows. -/
def opening (soh : UInt8) (len tail : Bytes) : Bytes :=
  kBegin ++ soh :: 0x39 :: 0x3d :: (len ++ soh :: tail)

/-- The bytes the parser checks make the opening of a message. -/
theorem eq_opening {soh : UInt8} {buf : Bytes} {e : ℕ} (hbegin : substr buf 0 9 = kBegin)
    (h9 : buf[9]? = some soh) (h10 : buf[10]? = some 0x39) (h11 : buf[11]? = some 0x3d)
    (he : findFrom soh 12 buf = some e) :
    12 ≤ e ∧ buf[e]? = some soh ∧
      buf = opening soh (substr buf 12 (e - 12)) (buf.drop (e + 1)) := by
  obtain ⟨hle, hsoh⟩ := findFrom_spec he
  refine ⟨hle, hsoh, ?_⟩
  have hsoh' : buf[0 + 9 + 1 + 1 + 1 + (e - 12)]? = some soh := by
    rw [show 0 + 9 + 1 + 1 + 1 + (e - 12) = e by omega]
    exact hsoh
  conv_lhs => rw [← List.drop_zero (l := buf), drop_eq_substr buf 0 9, hbegin, drop_eq_cons h9,
    drop_eq_cons h10, drop_eq_cons h11, drop_eq_substr buf (0 + 9 + 1 + 1 + 1) (e - 12)]
  rw [drop_eq_cons hsoh', show 0 + 9 + 1 + 1 + 1 + (e - 12) + 1 = e + 1 by omega]
  rfl

/-- **A header that holds**, and the trailer it points at. -/
theorem parseOne_eq_ok {soh : Soh} {buf : Bytes} {r : ParseResult}
    (h : parseOne soh buf = .ok r) (hr : ¬ r.err.Framing) :
    ∃ e n, 12 ≤ e ∧ buf[e]? = some soh.byte ∧
      buf = opening soh.byte (substr buf 12 (e - 12)) (buf.drop (e + 1)) ∧
      parseUint (substr buf 12 (e - 12)) = some n ∧
      parseTrailer soh.byte buf ((e + 1 + n.toNat) % 2 ^ 64) = .ok r := by
  have hfail : ∀ {e : ParseError}, e.Framing → (.ok (.failed e) : Except Fault ParseResult) = .ok r →
      False := fun he hok => hr (Except.ok.inj hok ▸ he)
  -- BeginString, its separator and `9=` in the order they are tested, then the frame.
  rw [parseOne] at h
  split at h
  · exact (hfail (.inl rfl) h).elim
  split at h
  · exact (hfail (.inr (.inl rfl)) h).elim
  rename_i hbegin
  split at h
  · exact (hfail (.inr (.inl rfl)) h).elim
  rename_i h9
  split at h
  · exact (hfail (.inr (.inl rfl)) h).elim
  rename_i h10
  rw [not_or] at h10
  rw [not_not] at hbegin h9 h10
  rw [not_not] at h10
  rw [parseFrame] at h
  split at h
  · exact (hfail (.inl rfl) h).elim
  rename_i e he
  split at h
  · exact (hfail (.inr (.inr (.inl rfl))) h).elim
  rename_i n hn
  dsimp only at h
  split at h
  · exact (hfail (.inl rfl) h).elim
  obtain ⟨hle, hsoh, hopen⟩ := eq_opening hbegin h9 h10.1 h10.2 he
  exact ⟨e, n, hle, hsoh, hopen, hn, h⟩

/-! ## Messages that parse -/

theorem isDigit_soh (soh : Soh) : isDigit soh.byte = false := by
  cases soh <;> decide

/-- A checksum is written in digits. -/
theorem notMem_formatChecksum {c : UInt8} (h : isDigit c = false) (v : UInt32) :
    c ∉ formatChecksum v := by
  have hlt : (v &&& 0xff).toNat < 256 := by
    rw [UInt32.toNat_and]
    exact Nat.lt_of_le_of_lt Nat.and_le_right (by decide)
  intro hc
  -- the byte is at most 255, so each of its three places is a digit
  have hdigit : isDigit c = true := by
    rcases List.mem_cons.mp hc with rfl | hc
    · exact (isDigit_toUInt8 (by omega) (by omega)).1
    rcases List.mem_cons.mp hc with rfl | hc
    · exact (isDigit_toUInt8 (by omega) (by omega)).1
    · obtain rfl := List.mem_singleton.mp hc
      exact (isDigit_toUInt8 (by omega) (by omega)).1
  rw [hdigit] at h
  cases h

section Parsed

variable {soh : UInt8} {buf : Bytes} {bodyEnd : ℕ} {r : ParseResult}

/-- A trailer inside the buffer is read, whatever it holds. -/
theorem parseTrailer_returns (h : bodyEnd + 7 ≤ buf.length) :
    ∃ r, parseTrailer soh buf bodyEnd = .ok r := by
  have hread : ∀ i < buf.length, ∃ c, read buf i = .ok c := fun i hi =>
    ⟨buf[i], by rw [read, List.getElem?_eq_getElem hi]⟩
  obtain ⟨c₀, h₀⟩ := hread bodyEnd (by omega)
  obtain ⟨c₁, h₁⟩ := hread (bodyEnd + 1) (by omega)
  obtain ⟨c₂, h₂⟩ := hread (bodyEnd + 2) (by omega)
  obtain ⟨c₆, h₆⟩ := hread (bodyEnd + 6) (by omega)
  simp only [parseTrailer, h₀, h₁, h₂, h₆, bind, Except.bind, pure, Except.pure]
  rcases parseUint (substr buf (bodyEnd + 3) 3) with _ | cs <;> dsimp only <;> split_ifs <;>
    exact ⟨_, rfl⟩

/-- The values of a map of fields are free of the separator. -/
def Clean (soh : UInt8) (fields : Fields) : Prop :=
  ∀ t v, fields.lookup t = some v → soh ∉ v

theorem Clean.insert {fields : Fields} (h : Clean soh fields) {t : Int} {v : Bytes}
    (hv : soh ∉ v) : Clean soh (fields.insert t v) := by
  intro t' v' hl
  by_cases ht : t' = t
  · subst ht
    rw [AList.lookup_insert] at hl
    exact Option.some.inj hl ▸ hv
  · rw [AList.lookup_insert_ne ht] at hl
    exact h t' v' hl

/-- **The invariant rule for the walk**: a field stored is new, and its
value ends at the first separator after its `=`. -/
theorem walkFields_inv {P : Fields → Prop}
    (hP : ∀ fields t v, P fields → t ∉ fields → soh ∉ v → P (fields.insert t v))
    {fuel i : ℕ} {fields fields' : Fields} {e : ParseError} (hf : P fields)
    (h : walkFields soh buf bodyEnd fuel i fields = (e, fields')) : P fields' := by
  induction fuel generalizing i fields with
  | zero => exact (Prod.mk.inj h).2 ▸ hf
  | succ fuel ih =>
    rw [walkFields] at h
    split at h
    · split at h
      · exact (Prod.mk.inj h).2 ▸ hf
      split at h
      · exact (Prod.mk.inj h).2 ▸ hf
      split at h
      · exact (Prod.mk.inj h).2 ▸ hf
      split at h
      · exact (Prod.mk.inj h).2 ▸ hf
      rename_i sohAt hsoh
      split at h
      · exact (Prod.mk.inj h).2 ▸ hf
      split at h
      · exact (Prod.mk.inj h).2 ▸ hf
      rename_i hnew
      exact ih (hP _ _ _ hf hnew (notMem_substr_of_findFrom hsoh)) h
    · exact (Prod.mk.inj h).2 ▸ hf

theorem walkFields_clean {fuel i : ℕ} {fields fields' : Fields} {e : ParseError}
    (hc : Clean soh fields) (h : walkFields soh buf bodyEnd fuel i fields = (e, fields')) :
    Clean soh fields' :=
  walkFields_inv (fun _ _ _ hf _ hv => hf.insert hv) hc h

/-- What is stored stays. -/
theorem walkFields_keeps {fuel i : ℕ} {fields fields' : Fields} {e : ParseError} {t : Int}
    {v : Bytes} (hl : fields.lookup t = some v)
    (h : walkFields soh buf bodyEnd fuel i fields = (e, fields')) : fields'.lookup t = some v := by
  refine walkFields_inv (P := fun f => f.lookup t = some v) ?_ hl h
  intro f t' v' hf hnew _
  have hne : t ≠ t' := by
    rintro rfl
    exact hnew (AList.lookup_isSome.mp (by rw [hf]; rfl))
  rw [AList.lookup_insert_ne hne, hf]

theorem parseFields_none {want : UInt32} (hr : (parseFields soh buf bodyEnd want).err = .none) :
    (parseFields soh buf bodyEnd want).consumed = bodyEnd + 7 ∧
      (isDigit soh = false → Clean soh (parseFields soh buf bodyEnd want).msg.fields) := by
  rw [parseFields] at hr ⊢
  rcases hw : walkFields soh buf bodyEnd bodyEnd 0 ∅ with ⟨e, fields⟩
  have hclean : Clean soh fields :=
    walkFields_clean (fun t v hl => by rw [AList.lookup_empty] at hl; cases hl) hw
  rcases e with _ | _ | _ | _ | _ | _ | _
  case none =>
    refine ⟨rfl, fun hsoh => ?_⟩
    dsimp only
    split
    · exact hclean
    · exact hclean.insert (notMem_formatChecksum hsoh want)
  all_goals
    rw [hw] at hr
    exact ParseError.noConfusion hr

end Parsed

/-- A message that parses is what the walk makes of its fields. -/
theorem parseOne_fields {soh : Soh} {buf : Bytes} {r : ParseResult}
    (h : parseOne soh buf = .ok r) (hr : r.err = .none) :
    ∃ bodyEnd want, bodyEnd + 7 ≤ buf.length ∧ r = parseFields soh.byte buf bodyEnd want := by
  have hpast : ¬ r.err.Framing := by
    rw [hr]
    exact not_framing_none
  obtain ⟨e, n, -, -, -, -, htrail⟩ := parseOne_eq_ok h hpast
  obtain ⟨cs, hle, -, -, -, rfl⟩ := parseTrailer_eq_ok htrail hpast
  exact ⟨_, _, hle, rfl⟩

/-- **A message that parses** takes bytes off the buffer, and its values
are free of the separator. -/
theorem parseOne_none {soh : Soh} {buf : Bytes} {r : ParseResult}
    (h : parseOne soh buf = .ok r) (hr : r.err = .none) :
    0 < r.consumed ∧ r.consumed ≤ buf.length ∧ Clean soh.byte r.msg.fields := by
  obtain ⟨bodyEnd, want, hle, rfl⟩ := parseOne_fields h hr
  obtain ⟨hcons, hclean⟩ := parseFields_none hr
  rw [hcons]
  exact ⟨by omega, hle, hclean (isDigit_soh soh)⟩

end Fix

end OrderbookFix
