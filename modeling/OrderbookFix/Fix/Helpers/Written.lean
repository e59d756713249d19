import OrderbookFix.Fix.Helpers.RoundTrip
/-!
# Fields as they are written

The fields of a message read off its bytes: what stands between
separators, cut at the first `=`. A walk that ends well has read a run of
such fields, tags of digits and values without the separator, and has
stored each under the number its tag comes to in an `int`.
-/

namespace OrderbookFix

namespace Fix

open Bytes

/-- A field as written. -/
structure Written where
  tag : Bytes
  value : Bytes
  deriving DecidableEq

namespace Written

/-- The number the tag is written for. -/
def number (w : Written) : ℕ := digitsValue w.tag

/-- The key the parser stores the field under. -/
def key (w : Written) : Int := toInt32 (UInt64.ofNat w.number)

/-- The bytes of a field, with its separator. -/
def bytes (soh : UInt8) (w : Written) : Bytes := w.tag ++ 0x3d :: (w.value ++ [soh])

/-- A field the parser can read back. -/
def Ok (soh : UInt8) (w : Written) : Prop := Digits w.tag ∧ soh ∉ w.value

/-- A field cut at its first `=`. -/
def cut (piece : Bytes) : Written :=
  ⟨piece.takeWhile (· != 0x3d), (piece.dropWhile (· != 0x3d)).drop 1⟩

theorem cut_append {t v : Bytes} (h : (0x3d : UInt8) ∉ t) : cut (t ++ 0x3d :: v) = ⟨t, v⟩ := by
  have hne : ∀ c ∈ t, (c != 0x3d) = true := fun c hc => bne_iff_ne.mpr fun he => h (he ▸ hc)
  rw [cut, List.takeWhile_append_of_pos hne, List.dropWhile_append_of_pos hne]
  simp

end Written

/-- The bytes of a run of fields. -/
def writtenBytes (soh : UInt8) (ws : List Written) : Bytes := ws.flatMap (Written.bytes soh)

/-- **The fields of a message**, separator by separator. -/
def writtenFields (soh : UInt8) (bytes : Bytes) : List Written :=
  ((bytes.splitOn soh).dropLast).map Written.cut

theorem writtenBytes_cons (soh : UInt8) (w : Written) (ws : List Written) :
    writtenBytes soh (w :: ws) = w.bytes soh ++ writtenBytes soh ws := List.flatMap_cons ..

theorem writtenBytes_append (soh : UInt8) (ws ws' : List Written) :
    writtenBytes soh (ws ++ ws') = writtenBytes soh ws ++ writtenBytes soh ws' :=
  List.flatMap_append ..

theorem writtenBytes_concat (soh : UInt8) (ws : List Written) (w : Written) :
    writtenBytes soh (ws ++ [w]) = writtenBytes soh ws ++ w.bytes soh := by
  rw [writtenBytes_append, writtenBytes_cons]
  exact congrArg _ (List.append_nil _)

theorem ok_concat {soh : UInt8} {ws : List Written} {w : Written} (hws : ∀ x ∈ ws, x.Ok soh)
    (hw : w.Ok soh) : ∀ x ∈ ws ++ [w], x.Ok soh := by
  intro x hx
  rcases List.mem_append.mp hx with hx | hx
  · exact hws x hx
  · exact List.mem_singleton.mp hx ▸ hw

/-- A run of fields at the front splits off. -/
theorem writtenFields_append {soh : Soh} {ws : List Written} (h : ∀ w ∈ ws, w.Ok soh.byte)
    (rest : Bytes) :
    writtenFields soh.byte (writtenBytes soh.byte ws ++ rest) =
      ws ++ writtenFields soh.byte rest := by
  have hsoh : soh.byte ≠ 0x3d := by cases soh <;> decide
  induction ws with
  | nil => rfl
  | cons w ws ih =>
    obtain ⟨⟨htag, hvalue⟩, hws⟩ := List.forall_mem_cons.mp h
    have hpiece : ∀ c ∈ w.tag ++ 0x3d :: w.value, (c == soh.byte) = false := by
      intro c hc
      refine beq_eq_false_iff_ne.mpr fun he => ?_
      rcases List.mem_append.mp (he ▸ hc) with hc | hc
      · exact htag.notMem (isDigit_soh soh) hc
      · exact (List.mem_cons.mp hc).elim hsoh hvalue
    have hbytes : writtenBytes soh.byte (w :: ws) ++ rest =
        (w.tag ++ 0x3d :: w.value) ++ soh.byte :: (writtenBytes soh.byte ws ++ rest) := by
      rw [writtenBytes_cons, Written.bytes]
      simp
    have hne : (writtenBytes soh.byte ws ++ rest).splitOn soh.byte ≠ [] :=
      List.splitOnP_ne_nil _ _
    rw [writtenFields] at ih
    rw [writtenFields, hbytes, List.splitOn,
      List.splitOnP_append_cons_of_forall_mem hpiece _ (beq_self_eq_true _), ← List.splitOn,
      List.dropLast_cons_of_ne_nil hne, List.map_cons, ih hws,
      Written.cut_append (htag.notMem (by decide))]
    rfl

/-- A run of fields splits into the fields it is made of. -/
theorem writtenFields_writtenBytes {soh : Soh} {ws : List Written}
    (h : ∀ w ∈ ws, w.Ok soh.byte) : writtenFields soh.byte (writtenBytes soh.byte ws) = ws := by
  have hall := writtenFields_append h []
  rw [List.append_nil] at hall
  exact hall.trans (List.append_nil ws)

/-- **A field is told from what follows it.** -/
theorem Written.bytes_inj {soh : UInt8} {w w' : Written} {x y : Bytes} (hw : w.Ok soh)
    (hw' : w'.Ok soh) (h : w.bytes soh ++ x = w'.bytes soh ++ y) : w = w' ∧ x = y := by
  simp only [Written.bytes, List.append_assoc, List.cons_append, List.nil_append] at h
  obtain ⟨htag, hrest⟩ := append_cons_inj (hw.1.notMem (by decide)) (hw'.1.notMem (by decide)) h
  obtain ⟨hvalue, hxy⟩ := append_cons_inj hw.2 hw'.2 hrest
  cases w
  cases w'
  exact ⟨by rw [Written.mk.injEq]; exact ⟨htag, hvalue⟩, hxy⟩

/-- A run of fields in front of another is the start of it. -/
theorem writtenBytes_append_inj {soh : UInt8} {ws ws' : List Written} {rest : Bytes}
    (hws : ∀ w ∈ ws, w.Ok soh) (hws' : ∀ w ∈ ws', w.Ok soh)
    (h : writtenBytes soh ws ++ rest = writtenBytes soh ws') :
    ∃ more, ws' = ws ++ more ∧ rest = writtenBytes soh more := by
  induction ws generalizing ws' with
  | nil => exact ⟨ws', rfl, h⟩
  | cons w ws ih =>
    cases ws' with
    | nil =>
      have hlen := congrArg List.length h
      rw [writtenBytes_cons, Written.bytes] at hlen
      simp [writtenBytes] at hlen
    | cons w' ws' =>
      obtain ⟨hw, hok⟩ := List.forall_mem_cons.mp hws
      obtain ⟨hw', hok'⟩ := List.forall_mem_cons.mp hws'
      rw [writtenBytes_cons, writtenBytes_cons, List.append_assoc] at h
      obtain ⟨rfl, hrest⟩ := Written.bytes_inj hw hw' h
      obtain ⟨more, rfl, hmore⟩ := ih hok hok' hrest
      exact ⟨more, rfl, hmore⟩

/-- The digits a run of fields starts with end at a `=`, not at a
separator. -/
theorem writtenBytes_ne {soh : Soh} {ws : List Written} {d x rest : Bytes} (hne : ws ≠ [])
    (hws : ∀ w ∈ ws, w.Ok soh.byte) (hd : ∀ c ∈ d, isDigit c = true) :
    writtenBytes soh.byte ws ++ rest ≠ d ++ soh.byte :: x := by
  intro h
  cases ws with
  | nil => exact hne rfl
  | cons w ws =>
    rw [writtenBytes_cons, Written.bytes, List.append_assoc, List.append_assoc,
      List.cons_append] at h
    have hsoh := eq_of_digits_append (hws w (List.mem_cons_self ..)).1.2 hd (by decide)
      (isDigit_soh soh) h
    exact absurd hsoh (by cases soh <;> decide)

/-! ## Bodies -/

/-- The fields of a body, as they are written. -/
def writtenBody (body : Body) : List Written := body.map fun kv => ⟨decimalInt kv.1, kv.2⟩

theorem writtenBytes_writtenBody (soh : UInt8) (body : Body) :
    writtenBytes soh (writtenBody body) = fieldBytes soh body := by
  rw [writtenBytes, writtenBody, List.flatMap_map]
  rfl

theorem written_ok {soh : UInt8} {t : Int} {v : Bytes} (ht : 0 ≤ t) (hv : soh ∉ v) :
    Written.Ok soh ⟨decimalInt t, v⟩ := by
  obtain ⟨n, rfl⟩ := Int.eq_ofNat_of_zero_le ht
  refine ⟨?_, hv⟩
  change Digits (decimalInt (n : Int))
  rw [decimalInt_natCast]
  exact ⟨decimal_ne_nil, fun _ hc => isDigit_of_mem_decimal hc⟩

/-! ## The walk -/

/-- What a run of fields is stored as. -/
def stored (ws : List Written) : Body := ws.map fun w => (w.key, w.value)

/-- **A run of new fields**, from a position up to the end of the body,
and what they are stored as. -/
structure FieldRun (soh : UInt8) (buf : Bytes) (bodyEnd i : ℕ) (fields fields' : Fields)
    (ws : List Written) : Prop where
  bytes : substr buf i (bodyEnd - i) = writtenBytes soh ws
  ok : ∀ w ∈ ws, w.Ok soh
  nodup : (ws.map Written.key).Nodup
  fresh : ∀ w ∈ ws, w.key ∉ fields
  fields : fields' = addFields fields (stored ws)

section Walk

variable {soh : UInt8} {buf : Bytes} {bodyEnd fuel i eq sohAt : ℕ} {fields fields' : Fields}

theorem FieldRun.nil (h : bodyEnd - i = 0) : FieldRun soh buf bodyEnd i fields fields [] where
  bytes := by
    rw [h]
    exact List.take_zero
  ok := by simp
  nodup := List.nodup_nil
  fresh := by simp
  fields := rfl

/-- A field in the buffer: its tag up to a `=`, its value up to a
separator. -/
def fieldAt (buf : Bytes) (i eq sohAt : ℕ) : Written :=
  ⟨substr buf i (eq - i), substr buf (eq + 1) (sohAt - (eq + 1))⟩

/-- The bytes from a field on. -/
theorem substr_fieldAt (hi : i ≤ eq) (heq : buf[eq]? = some 0x3d) (hlt : eq < sohAt)
    (hsoh : buf[sohAt]? = some soh) (hend : sohAt < bodyEnd) :
    substr buf i (bodyEnd - i) =
      (fieldAt buf i eq sohAt).bytes soh ++ substr buf (sohAt + 1) (bodyEnd - (sohAt + 1)) := by
  rw [show bodyEnd - i = (eq - i) + ((sohAt - (eq + 1) + (bodyEnd - (sohAt + 1) + 1)) + 1) by omega,
    substr_add, show i + (eq - i) = eq by omega, substr_succ heq, substr_add,
    show eq + 1 + (sohAt - (eq + 1)) = sohAt by omega, substr_succ hsoh, Written.bytes, fieldAt]
  simp

theorem FieldRun.cons {ws : List Written} (hi : i ≤ eq) (heq : buf[eq]? = some 0x3d)
    (hlt : eq < sohAt) (hsoh : buf[sohAt]? = some soh) (hend : sohAt < bodyEnd)
    (hok : (fieldAt buf i eq sohAt).Ok soh) (hfresh : (fieldAt buf i eq sohAt).key ∉ fields)
    (h : FieldRun soh buf bodyEnd (sohAt + 1)
      (fields.insert (fieldAt buf i eq sohAt).key (fieldAt buf i eq sohAt).value) fields' ws) :
    FieldRun soh buf bodyEnd i fields fields' (fieldAt buf i eq sohAt :: ws) := by
  have hkey : ∀ x ∈ ws, x.key ≠ (fieldAt buf i eq sohAt).key ∧ x.key ∉ fields := by
    intro x hx
    have hnew := h.fresh x hx
    rw [AList.mem_insert, not_or] at hnew
    exact hnew
  refine ⟨?_, List.forall_mem_cons.mpr ⟨hok, h.ok⟩, ?_,
    List.forall_mem_cons.mpr ⟨hfresh, fun x hx => (hkey x hx).2⟩, h.fields⟩
  · rw [substr_fieldAt hi heq hlt hsoh hend, h.bytes, writtenBytes_cons]
  · rw [List.map_cons, List.nodup_cons]
    refine ⟨fun hmem => ?_, h.nodup⟩
    obtain ⟨x, hx, he⟩ := List.mem_map.mp hmem
    exact (hkey x hx).1 he

/-- One step of a walk that ends well. -/
theorem exists_field_of_walkFields (hlt : i < bodyEnd)
    (h : walkFields soh buf bodyEnd (fuel + 1) i fields = (.none, fields')) :
    ∃ eq sohAt, i ≤ eq ∧ buf[eq]? = some 0x3d ∧ eq < sohAt ∧ buf[sohAt]? = some soh ∧
      sohAt ≤ bodyEnd ∧ (fieldAt buf i eq sohAt).Ok soh ∧
      (fieldAt buf i eq sohAt).key ∉ fields ∧
      walkFields soh buf bodyEnd fuel (sohAt + 1)
        (fields.insert (fieldAt buf i eq sohAt).key (fieldAt buf i eq sohAt).value) =
          (.none, fields') := by
  rw [walkFields, if_pos hlt] at h
  split at h
  · cases (Prod.mk.inj h).1
  rename_i eq heq
  split at h
  · cases (Prod.mk.inj h).1
  split at h
  · cases (Prod.mk.inj h).1
  rename_i tag htag
  split at h
  · cases (Prod.mk.inj h).1
  rename_i sohAt hsoh
  split at h
  · cases (Prod.mk.inj h).1
  rename_i hle
  split at h
  · cases (Prod.mk.inj h).1
  rename_i hfresh
  obtain ⟨hi, hateq⟩ := findFrom_spec heq
  obtain ⟨hes, hatsoh⟩ := findFrom_spec hsoh
  obtain ⟨hne, hdigits, rfl⟩ := parseUint_eq_some_iff.mp htag
  exact ⟨eq, sohAt, hi, hateq, hes, hatsoh, Nat.not_lt.mp hle,
    ⟨⟨hne, hdigits⟩, notMem_substr_of_findFrom hsoh⟩, hfresh, h⟩

/-- **A walk that ends well has read a run of fields** up to the end of
the body, where no separator stands. -/
theorem walkFields_written (hend : buf[bodyEnd]? ≠ some soh) (hi : i ≤ bodyEnd)
    (hfuel : bodyEnd - i ≤ fuel)
    (h : walkFields soh buf bodyEnd fuel i fields = (.none, fields')) :
    ∃ ws, FieldRun soh buf bodyEnd i fields fields' ws := by
  induction fuel generalizing i fields with
  | zero =>
    obtain rfl := (Prod.mk.inj h).2
    exact ⟨[], .nil (by omega)⟩
  | succ fuel ih =>
    by_cases hlt : i < bodyEnd
    · obtain ⟨eq, sohAt, hie, heq, hes, hsoh, hle, hok, hfresh, hrest⟩ :=
        exists_field_of_walkFields hlt h
      -- no separator is at the end of the body, so the walk stops there exactly
      have hne : sohAt ≠ bodyEnd := by
        rintro rfl
        exact hend hsoh
      obtain ⟨ws, hws⟩ := ih (by omega) (by omega) hrest
      exact ⟨_, hws.cons hie heq hes hsoh (by omega) hok hfresh⟩
    · rw [walkFields, if_neg hlt] at h
      obtain rfl := (Prod.mk.inj h).2
      exact ⟨[], .nil (by omega)⟩

end Walk

/-! ## A message that parses -/

namespace Frame

variable {soh : UInt8} {f : Frame}

/-- The checksum, as a field. -/
def trailer (f : Frame) : Written := ⟨[0x31, 0x30], f.sum⟩

theorem number_trailer : f.trailer.number = 10 := rfl

theorem bytes_eq (soh : UInt8) (f : Frame) : f.bytes soh = f.front soh ++ f.trailer.bytes soh := rfl

theorem bytes_eq_opening (soh : UInt8) (f : Frame) (rest : Bytes) :
    f.bytes soh ++ rest = opening soh f.len (f.body ++ (f.trailer.bytes soh ++ rest)) := by
  rw [bytes_eq, front, opening]
  simp [opening]

theorem Holds.trailer_ok {agrees : ℕ → ℕ → Prop} (h : f.Holds soh agrees)
    (hsoh : isDigit soh = false) : f.trailer.Ok soh := by
  refine ⟨(by decide : Digits [0x31, 0x30]), fun hmem => ?_⟩
  rw [h.sum.2 soh hmem] at hsoh
  cases hsoh

theorem Holds.length_trailer {agrees : ℕ → ℕ → Prop} (h : f.Holds soh agrees) :
    (f.trailer.bytes soh).length = 7 := by
  simp [Written.bytes, trailer, h.sum.1]

/-- The checksum the parser stores is the one that was written. -/
theorem Holds.formatChecksum {agrees : ℕ → ℕ → Prop} (h : f.Holds soh agrees) :
    formatChecksum (Fix.checksum (f.front soh)) = f.sum := by
  obtain ⟨hdigits, hvalue⟩ := formatChecksum_spec (checksum_lt (f.front soh))
  refine digitsValue_inj hdigits h.sum.2 ?_ ?_
  · rw [length_formatChecksum, h.sum.1]
  · rw [hvalue, toNat_checksum, h.checksum]

end Frame

/-- The map a run of fields and its checksum make. -/
def readFields (ws : List Written) (sum : Bytes) : Fields :=
  if Tag.checkSum ∈ addFields ∅ (stored ws) then addFields ∅ (stored ws)
  else (addFields ∅ (stored ws)).insert Tag.checkSum sum

/-- **A message that parses**: a frame, and before its trailer a run of
fields with distinct keys. -/
theorem exists_written {soh : Soh} {buf : Bytes} {r : ParseResult} (hbuf : buf.length < 2 ^ 63)
    (h : parseOne soh buf = .ok r) (hr : r.err = .none) :
    ∃ f : Frame, ∃ rest ws, buf = f.bytes soh.byte ++ rest ∧ f.Holds soh.byte Frame.Wrapped ∧
      f.front soh.byte = writtenBytes soh.byte ws ∧ (∀ w ∈ ws, w.Ok soh.byte) ∧
      (ws.map Written.key).Nodup ∧
      r = ⟨.none, (f.bytes soh.byte).length, ⟨readFields ws f.sum⟩⟩ := by
  obtain ⟨f, rest, heq, hf, hres⟩ := exists_frame hbuf h (by rw [hr]; exact not_framing_none)
  have hsplit : buf = f.front soh.byte ++ (f.trailer.bytes soh.byte ++ rest) := by
    rw [heq, Frame.bytes_eq, List.append_assoc]
  -- The walk stops where the trailer starts, and `1` of `10=` is no separator.
  have hend : buf[(f.front soh.byte).length]? ≠ some soh.byte := by
    rw [hsplit, List.getElem?_append_right (Nat.le_refl _), Nat.sub_self]
    intro hc
    exact absurd (Option.some.inj hc) (by cases soh <;> decide)
  rw [parseFields] at hres
  rcases hw : walkFields soh.byte buf (f.front soh.byte).length (f.front soh.byte).length 0 ∅
    with ⟨e, fields⟩
  rw [hw] at hres
  have he : e = .none := by
    rw [hres] at hr
    cases e with
    | none => rfl
    | _ => exact hr
  subst he
  obtain ⟨ws, hbytes, hok, hnodup, -, hfields⟩ :=
    walkFields_written hend (Nat.zero_le _) (by omega) hw
  refine ⟨f, rest, ws, heq, hf, ?_, hok, hnodup, ?_⟩
  · rw [← hbytes, hsplit, substr, List.drop_zero, Nat.sub_zero, List.take_left]
  · rw [hres, readFields, ← hf.formatChecksum, hfields, f.length_bytes soh.byte hf.sum.1]

end Fix

end OrderbookFix
