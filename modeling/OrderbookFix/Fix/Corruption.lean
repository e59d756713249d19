import OrderbookFix.Fix.Helpers.Written
/-!
# One byte changed

A built message with one byte changed is not accepted. Past the header
and the length field the frame stays where it was, and the checksum is
off by the change. A length field that is changed moves the frame: the
message it would end at another `10=` has a field 10 where the fields of
the body stood, and none of those is one. A separator put into the
length field, or taken from its end, leaves no digits before a `=`.
-/

namespace OrderbookFix

namespace Fix

open Bytes

/-! ## The opening -/

/-- **What a changed byte does to the opening of a message**, where the
result is an opening again. -/
inductive Changed (soh : UInt8) (len tail len' tail' : Bytes) : Prop where
  /-- another number in the length field -/
  | number (hne : len' ≠ len) (hlen : len'.length = len.length) (htail : tail' = tail)
  /-- a separator in the length field -/
  | cut (hlen : len'.length ≤ len.length) (d x : Bytes) (hd : ∀ c ∈ d, isDigit c = true)
      (htail : tail' = d ++ soh :: x)
  /-- the length field as it was -/
  | body (hlen : len' = len) (i : ℕ) (c : UInt8) (hi : i < tail.length) (hc : tail[i]? ≠ some c)
      (htail : tail' = tail.set i c)

theorem set_ne_self {s : Bytes} {k : ℕ} {c : UInt8} (hk : k < s.length) (h : s[k]? ≠ some c) :
    s.set k c ≠ s := by
  intro he
  refine h ?_
  rw [← he, List.getElem?_set_self hk]

/-- Digits with a separator among them, or at their end. -/
theorem changed_len {soh : Soh} {len tail len' tail' : Bytes} {j : ℕ} {c : UInt8}
    (hlen : Digits len) (hlen' : Digits len') (hj : j < len.length) (hc : len[j]? ≠ some c)
    (h : len.set j c ++ soh.byte :: tail = len' ++ soh.byte :: tail') :
    Changed soh.byte len tail len' tail' := by
  have hnot' := hlen'.notMem (isDigit_soh soh)
  by_cases hsoh : c = soh.byte
  · subst hsoh
    rw [List.set_eq_take_append_cons_drop, if_pos hj, List.append_assoc, List.cons_append] at h
    have hnot : soh.byte ∉ len.take j := fun hmem =>
      hlen.notMem (isDigit_soh soh) (List.mem_of_mem_take hmem)
    obtain ⟨rfl, htail⟩ := append_cons_inj hnot hnot' h
    refine .cut ?_ (len.drop (j + 1)) tail ?_ htail.symm
    · rw [List.length_take]
      omega
    · exact fun c hc => hlen.2 c (List.mem_of_mem_drop hc)
  · have hnot : soh.byte ∉ len.set j c := by
      intro hmem
      rcases List.mem_or_eq_of_mem_set hmem with hmem | he
      · exact hlen.notMem (isDigit_soh soh) hmem
      · exact hsoh he.symm
    obtain ⟨rfl, htail⟩ := append_cons_inj hnot hnot' h
    exact .number (set_ne_self hj hc) List.length_set htail.symm

/-- The separator after the digits is changed, so the digits run on. -/
theorem joined_of_ne {soh : Soh} {len tail len' tail' : Bytes} {c : UInt8} (hlen : Digits len)
    (hlen' : Digits len') (hc : c ≠ soh.byte)
    (h : len ++ c :: tail = len' ++ soh.byte :: tail') :
    ∃ d, (∀ c ∈ d, isDigit c = true) ∧ tail = d ++ soh.byte :: tail' := by
  have hnot := hlen.notMem (isDigit_soh soh)
  rcases List.append_eq_append_iff.mp h with ⟨d, hl', hd⟩ | ⟨d, hl, hd⟩
  · cases d with
    | nil => exact absurd (List.cons.inj hd).1 hc
    | cons a d =>
      obtain ⟨rfl, htail⟩ := List.cons.inj hd
      refine ⟨d, fun x hx => hlen'.2 x ?_, htail⟩
      rw [hl']
      exact List.mem_append_right _ (List.mem_cons_of_mem _ hx)
  · cases d with
    | nil => exact absurd (List.cons.inj hd).1.symm hc
    | cons a d =>
      obtain ⟨rfl, -⟩ := List.cons.inj hd
      exact absurd (hl ▸ List.mem_append_right _ (List.mem_cons_self ..)) hnot

/-- The cases of a changed byte, where no digits and separator follow the
length field. -/
theorem opening_set {soh : Soh} {len tail len' tail' : Bytes} {k : ℕ} {c : UInt8}
    (hlen : Digits len) (hlen' : Digits len') (hk : k < (opening soh.byte len tail).length)
    (hc : (opening soh.byte len tail)[k]? ≠ some c)
    (htail : ∀ d x : Bytes, (∀ c ∈ d, isDigit c = true) → tail ≠ d ++ soh.byte :: x)
    (h : (opening soh.byte len tail).set k c = opening soh.byte len' tail') :
    Changed soh.byte len tail len' tail' := by
  obtain ⟨p, hopen⟩ : ∃ p, ∀ l t, opening soh.byte l t = p ++ (l ++ soh.byte :: t) :=
    ⟨kBegin ++ [soh.byte, 0x39, 0x3d], fun l t => by simp [opening]⟩
  rw [hopen] at hk hc
  rw [hopen, hopen, List.set_append] at h
  split at h
  · -- the header is the same in every opening
    rename_i hlt
    rw [List.getElem?_append_left hlt] at hc
    exact absurd (List.append_inj_left h (by rw [List.length_set])) (set_ne_self hlt hc)
  rename_i hge
  rw [List.getElem?_append_right (by omega)] at hc
  rw [List.length_append] at hk
  replace h := List.append_cancel_left h
  set j := k - p.length with hj
  rw [List.set_append] at h
  split at h
  · rename_i hlt
    rw [List.getElem?_append_left hlt] at hc
    exact changed_len hlen hlen' hlt hc h
  rename_i hge'
  rw [List.getElem?_append_right (by omega)] at hc
  rcases Nat.eq_zero_or_pos (j - len.length) with hz | hpos
  · rw [hz] at h hc
    have hne : c ≠ soh.byte := by
      rintro rfl
      exact hc rfl
    obtain ⟨d, hd, hjoined⟩ := joined_of_ne hlen hlen' hne h
    exact absurd hjoined (htail d tail' hd)
  · obtain ⟨i, hi⟩ : ∃ i, j - len.length = i + 1 := ⟨j - len.length - 1, by omega⟩
    rw [hi] at h hc
    rw [List.set_cons_succ] at h
    obtain ⟨hl, ht⟩ := append_cons_inj (hlen.notMem (isDigit_soh soh))
      (hlen'.notMem (isDigit_soh soh)) h
    rw [List.length_append, List.length_cons] at hk
    exact .body hl.symm i c (by omega) hc ht.symm

/-! ## Built messages -/

/-- **A body a caller may hand the serializer**, repeated tags and all. -/
structure Enclosable (soh : UInt8) (body : Body) : Prop where
  tags : ∀ kv ∈ body, 0 ≤ kv.1 ∧ kv.1 ≤ 2 ^ 31 - 1
  reserved : ∀ kv ∈ body,
    kv.1 ≠ Tag.beginString ∧ kv.1 ≠ Tag.bodyLength ∧ kv.1 ≠ Tag.checkSum
  values : ∀ kv ∈ body, soh ∉ kv.2

section Built

variable {soh : Soh} {body : Body}

theorem Enclosable.written (h : Enclosable soh.byte body) :
    ∀ w ∈ writtenBody body, w.Ok soh.byte ∧ w.number ≠ 10 := by
  intro w hw
  obtain ⟨⟨t, v⟩, hkv, rfl⟩ := List.mem_map.mp hw
  refine ⟨written_ok (h.tags _ hkv).1 (h.values _ hkv), fun hten => ?_⟩
  obtain ⟨n, rfl⟩ := Int.eq_ofNat_of_zero_le (h.tags _ hkv).1
  have hnum : n = 10 := by
    rw [← digitsValue_decimal n, ← decimalInt_natCast]
    exact hten
  exact (h.reserved _ hkv).2.2 (by rw [hnum]; rfl)

theorem trailer_ok : (builtFrame soh.byte body).trailer.Ok soh.byte :=
  (builtFrame_holds soh.byte body).trailer_ok (isDigit_soh soh)

/-- A built message: its length field, its fields and its trailer. -/
theorem build_eq_opening (soh : Soh) (body : Body) :
    build soh body = opening soh.byte (builtFrame soh.byte body).len
      (writtenBytes soh.byte (writtenBody body ++ [(builtFrame soh.byte body).trailer])) := by
  rw [writtenBytes_concat, writtenBytes_writtenBody, ← bytes_builtFrame,
    ← List.append_nil (Frame.bytes ..), Frame.bytes_eq_opening, List.append_nil]
  rfl

/-- The length field of a message that fits a string. -/
theorem length_len_le (hlen : (build soh body).length < 2 ^ 63) :
    (builtFrame soh.byte body).len.length ≤ 19 := by
  have hbody := (builtFrame soh.byte body).length_body_le soh.byte []
  rw [List.append_nil, bytes_builtFrame] at hbody
  exact length_decimal_le (by decide) (by
    change (fieldBytes soh.byte body).length ≤ _ at hbody
    omega)

/-- **A built message with a byte changed**, as an opening. The length
field has no more digits than it had. -/
theorem build_set (h : Enclosable soh.byte body) {k : ℕ} {c : UInt8} {len' tail' : Bytes}
    (hk : k < (build soh body).length) (hc : (build soh body)[k]? ≠ some c)
    (hlen' : Digits len') (heq : (build soh body).set k c = opening soh.byte len' tail') :
    len'.length ≤ (builtFrame soh.byte body).len.length ∧
      Changed soh.byte (builtFrame soh.byte body).len
        (writtenBytes soh.byte (writtenBody body ++ [(builtFrame soh.byte body).trailer]))
        len' tail' := by
  rw [build_eq_opening] at hk hc heq
  have hchanged := opening_set (builtFrame_holds soh.byte body).len hlen' hk hc (by
    -- a field, or the trailer, stands after the length field
    intro d x hd
    rw [← List.append_nil (writtenBytes _ _)]
    exact writtenBytes_ne (by simp) (ok_concat (fun w hw => (h.written w hw).1) trailer_ok) hd) heq
  refine ⟨?_, hchanged⟩
  cases hchanged with
  | number _ hl => exact hl.le
  | cut hl => exact hl
  | body hl => exact (congrArg List.length hl).le

/-- A changed byte does not make the length field wrap. -/
theorem build_set_returns (h : Enclosable soh.byte body)
    (hlen : (build soh body).length < 2 ^ 63) {k : ℕ} {c : UInt8}
    (hk : k < (build soh body).length) (hc : (build soh body)[k]? ≠ some c) :
    ∃ r, parseOne soh ((build soh body).set k c) = .ok r := by
  rw [parseOne_returns_iff (by rwa [List.length_set]), wraps_iff]
  rintro ⟨-, len', tail', heq, hdigits, hwraps⟩
  have hle := (build_set h hk hc hdigits heq).1
  have hlt := digitsValue_lt hdigits.2
  have h19 := length_len_le hlen
  have hpow : 10 ^ len'.length ≤ 10 ^ 19 := Nat.pow_le_pow_right (by decide) (by omega)
  rw [Nat.mod_eq_of_lt (by omega)] at hwraps
  omega

end Built

/-! ## Not accepted -/

/-- The header of a frame is its first two fields. -/
theorem body_eq_written {soh : Soh} {f : Frame} {ws : List Written}
    (hlen : Digits f.len) (hws : ∀ w ∈ ws, w.Ok soh.byte)
    (h : f.front soh.byte = writtenBytes soh.byte ws) :
    ∃ ws', f.body = writtenBytes soh.byte ws' ∧ ∀ w ∈ ws', w.Ok soh.byte := by
  have hhead : f.front soh.byte =
      writtenBytes soh.byte [⟨[0x38], ascii "FIX.4.4"⟩, ⟨[0x39], f.len⟩] ++ f.body := by
    have hbegin : kBegin = 0x38 :: 0x3d :: ascii "FIX.4.4" := by decide
    simp [Frame.front, opening, hbegin, writtenBytes, Written.bytes]
  have hok : ∀ w ∈ [⟨[0x38], ascii "FIX.4.4"⟩, ⟨[0x39], f.len⟩], Written.Ok soh.byte w := by
    intro w hw
    rcases List.mem_cons.mp hw with rfl | hw
    · refine ⟨by decide, ?_⟩
      cases soh <;> decide
    · obtain rfl := List.mem_singleton.mp hw
      exact ⟨(by decide : Digits [0x39]), hlen.notMem (isDigit_soh soh)⟩
  obtain ⟨ws', rfl, hbody⟩ := writtenBytes_append_inj hok hws (hhead.symm.trans h)
  exact ⟨ws', hbody, fun w hw => hws w (List.mem_append_right _ hw)⟩

theorem byteSum_set {s : Bytes} {i : ℕ} {c d : UInt8} (h : s[i]? = some d) :
    byteSum (s.set i c) + d.toNat = byteSum s + c.toNat := by
  obtain ⟨hi, rfl⟩ := List.getElem?_eq_some_iff.mp h
  rw [List.set_eq_take_append_cons_drop, if_pos hi]
  conv_rhs => rw [← List.take_append_drop i s, List.drop_eq_getElem_cons hi]
  simp only [byteSum_append, byteSum_cons]
  omega

theorem byteSum_opening (soh : UInt8) (len tail : Bytes) :
    byteSum (opening soh len tail) = byteSum (opening soh len []) + byteSum tail := by
  rw [← byteSum_append]
  simp [opening]

/-- **The checksum tells a changed byte** where the frame stays in its
place. -/
theorem frame_set_ne {soh : UInt8} {f g : Frame} {rest : Bytes} {i : ℕ} {c : UInt8}
    (hf : f.Holds soh (· = ·)) (hg : g.Holds soh (· = ·)) (hlen : f.len = g.len)
    (hi : i < (g.body ++ g.trailer.bytes soh).length)
    (hc : (g.body ++ g.trailer.bytes soh)[i]? ≠ some c) :
    (g.body ++ g.trailer.bytes soh).set i c ≠ f.body ++ (f.trailer.bytes soh ++ rest) := by
  intro h
  have hbody : g.body.length = f.body.length := by
    rw [← hf.length, ← hg.length, hlen]
  have hrest : rest = [] := by
    have hl := congrArg List.length h
    simp only [List.length_set, List.length_append, hf.length_trailer, hg.length_trailer] at hl
    exact List.length_eq_zero_iff.mp (by omega)
  subst hrest
  rw [List.append_nil, List.set_append] at h
  split at h
  · -- the body changes and the checksum does not
    rename_i hlt
    obtain ⟨hset, htail⟩ := List.append_inj h (by rw [List.length_set, hbody])
    rw [List.getElem?_append_left hlt, List.getElem?_eq_getElem hlt] at hc
    have hsame : g.sum = f.sum := by
      simpa [Written.bytes, Frame.trailer] using htail
    have hsum := byteSum_set (c := c) (List.getElem?_eq_getElem hlt)
    have hfsum := hf.checksum
    have hgsum := hg.checksum
    rw [Frame.front, byteSum_opening] at hfsum hgsum
    rw [← hset, hlen] at hfsum
    rw [hsame, hfsum] at hgsum
    have hlt' := (g.body[i]).toNat_lt
    have hltc := c.toNat_lt
    refine hc (congrArg some (UInt8.toNat_inj.mp ?_))
    omega
  · -- the checksum changes and the body does not
    rename_i hge
    obtain ⟨hsame, htail⟩ := List.append_inj h hbody
    rw [List.getElem?_append_right (by omega)] at hc
    rw [List.length_append] at hi
    have hsum : f.sum = g.sum := by
      refine digitsValue_inj hf.sum.2 hg.sum.2 (hf.sum.1.trans hg.sum.1.symm) ?_
      rw [hf.checksum, hg.checksum, Frame.front, Frame.front, hlen, hsame]
    refine set_ne_self (by omega) hc (htail.trans ?_)
    rw [Frame.trailer, Frame.trailer, hsum]

/-- **A message does not end at another field.** A run of fields that
ends with a field 10 takes a body to its trailer. -/
theorem eq_of_trailer {soh : UInt8} {ws ws' : List Written} {t t' : Written} {rest : Bytes}
    (hws : ∀ w ∈ ws, w.Ok soh ∧ w.number ≠ 10) (ht : t.Ok soh) (hws' : ∀ w ∈ ws', w.Ok soh)
    (ht' : t'.Ok soh) (hten : t'.number = 10)
    (h : writtenBytes soh (ws' ++ [t']) ++ rest = writtenBytes soh (ws ++ [t])) : ws' = ws := by
  obtain ⟨more, hmore, -⟩ := writtenBytes_append_inj (ok_concat hws' ht')
    (ok_concat (fun w hw => (hws w hw).1) ht) h
  rcases List.eq_nil_or_concat more with rfl | ⟨more, z, rfl⟩
  · rw [List.append_nil] at hmore
    exact (List.append_inj_left' hmore rfl).symm
  · -- the field 10 would be one of the body's
    rw [List.concat_eq_append, ← List.append_assoc] at hmore
    have hbody := List.append_inj_left' hmore rfl
    refine absurd hten (hws t' ?_).2
    rw [hbody]
    simp

/-- **A changed byte is always found**: a built message with one byte
changed is read without a fault, and not accepted. -/
theorem corrupted_not_accepted {soh : Soh} {body : Body} (h : Enclosable soh.byte body)
    (hlen : (build soh body).length < 2 ^ 63) {k : ℕ} {c : UInt8}
    (hk : k < (build soh body).length) (hc : (build soh body)[k]? ≠ some c) :
    ∃ r, parseOne soh ((build soh body).set k c) = .ok r ∧ r.err ≠ .none := by
  obtain ⟨r, hr⟩ := build_set_returns h hlen hk hc
  refine ⟨r, hr, fun hnone => ?_⟩
  obtain ⟨f, rest, ws, heq, hf, hfront, hok, -, -⟩ :=
    exists_written (by rwa [List.length_set]) hr hnone
  obtain ⟨ws', hbody, hok'⟩ := body_eq_written hf.len hok hfront
  have htrailer := hf.trailer_ok (isDigit_soh soh)
  set g := builtFrame soh.byte body with hg
  have hgholds : g.Holds soh.byte (· = ·) := builtFrame_holds soh.byte body
  have htail : f.body ++ (f.trailer.bytes soh.byte ++ rest) =
      writtenBytes soh.byte (ws' ++ [f.trailer]) ++ rest := by
    rw [writtenBytes_concat, List.append_assoc, hbody]
  have hgtail : writtenBytes soh.byte (writtenBody body ++ [g.trailer]) =
      g.body ++ g.trailer.bytes soh.byte := by
    rw [writtenBytes_concat, writtenBytes_writtenBody]
    rfl
  rw [Frame.bytes_eq_opening] at heq
  obtain ⟨hle, hchanged⟩ := build_set h hk hc hf.len heq
  rw [← hg] at hle hchanged
  -- the length field is too short to wrap
  have hftrue : f.Holds soh.byte (· = ·) := by
    refine hf.imp fun hwrapped => ?_
    have hlt := digitsValue_lt hf.len.2
    have h19 : g.len.length ≤ 19 := length_len_le hlen
    have hpow : 10 ^ f.len.length ≤ 10 ^ 19 := Nat.pow_le_pow_right (by decide) (by omega)
    rw [Frame.Wrapped, Nat.mod_eq_of_lt (by omega)] at hwrapped
    exact hwrapped
  cases hchanged with
  | number hne hl htail' =>
    rw [htail] at htail'
    have hws := eq_of_trailer h.written trailer_ok hok' htrailer Frame.number_trailer htail'
    refine hne (digitsValue_inj hf.len.2 hgholds.len.2 hl ?_)
    rw [hftrue.length, hgholds.length, hbody, hws, writtenBytes_writtenBody]
    rfl
  | cut _ d x hd htail' =>
    rw [htail] at htail'
    exact writtenBytes_ne (by simp) (ok_concat hok' htrailer) hd htail'
  | body hl i c' hi hc' htail' =>
    rw [hgtail] at hi hc' htail'
    exact frame_set_ne hftrue hgholds hl hi hc' htail'.symm

/-- A Heartbeat whose length field says 4 and not 5. -/
theorem corrupted_not_accepted_heartbeat :
    ∃ r, parseOne .text ((build .text [(Tag.msgType, ascii "0")]).set 12 0x34) = .ok r ∧
      r.err ≠ .none :=
  corrupted_not_accepted ⟨by decide, by decide, by decide⟩ (by decide) (by decide) (by decide)

end Fix

end OrderbookFix
