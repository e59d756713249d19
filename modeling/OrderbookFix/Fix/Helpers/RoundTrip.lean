import OrderbookFix.Fix.Model.Session
import OrderbookFix.Fix.Helpers.Frame
import Mathlib.Data.List.TakeWhile
/-!
# What the serializer writes, the parser reads

The header is itself two fields, so a built message is a run of fields
and a trailer. The walk over a run of fields is by induction on the
fields: the tag ends at the first `=`, which no digit is, and the value
at the first separator, which it does not hold.
-/

namespace OrderbookFix

namespace Fix

open Bytes

/-! ## Numbers -/

/-- A number written in decimal reads back, modulo the word size. -/
theorem parseUint_decimal (n : ℕ) : parseUint (decimal n) = some (UInt64.ofNat n) :=
  parseUint_eq_some_iff.mpr ⟨decimal_ne_nil, fun _ hc => isDigit_of_mem_decimal hc,
    by rw [digitsValue_decimal]⟩

theorem toInt32_of_lt {n : ℕ} (h : n < 2 ^ 31) : toInt32 (UInt64.ofNat n) = n := by
  have hm : (UInt64.ofNat n).toNat % 2 ^ 32 = n := by
    rw [UInt64.toNat_ofNat']
    omega
  rw [toInt32, hm]
  exact if_pos h

theorem decimalInt_natCast (n : ℕ) : decimalInt n = decimal n := by
  rw [decimalInt, if_neg (by omega), Int.natAbs_natCast]

theorem notMem_decimal {n : ℕ} {c : UInt8} (h : isDigit c = false) : c ∉ decimal n := by
  intro hc
  rw [isDigit_of_mem_decimal hc] at h
  cases h

/-- A digit is neither a blank nor a sign. -/
theorem not_blank_of_isDigit {c : UInt8} (h : isDigit c = true) :
    isSpace c = false ∧ c ≠ 0x2d ∧ c ≠ 0x2b := by
  rw [isDigit, Bool.and_eq_true, decide_eq_true_eq, decide_eq_true_eq,
    UInt8.le_iff_toNat_le, UInt8.le_iff_toNat_le] at h
  have h1 : 48 ≤ c.toNat := h.1
  have hne : ∀ d : UInt8, d.toNat < 48 → c ≠ d := by
    rintro d hd rfl
    omega
  refine ⟨?_, hne _ (by decide), hne _ (by decide)⟩
  rw [isSpace, Bool.or_eq_false_iff, Bool.and_eq_false_iff]
  refine ⟨beq_eq_false_iff_ne.mpr (hne _ (by decide)), .inr (decide_eq_false fun hle => ?_)⟩
  have h2 : c.toNat ≤ 13 := UInt8.le_iff_toNat_le.mp hle
  omega

/-- Digits are scanned whole. -/
theorem scanNumber_digits {ds : Bytes} (h : Digits ds) : scanNumber ds = (false, ds) := by
  obtain ⟨hne, hdigits⟩ := h
  rcases ds with _ | ⟨c, rest⟩
  · exact absurd rfl hne
  obtain ⟨hspace, hminus, hplus⟩ := not_blank_of_isDigit (hdigits c (List.mem_cons_self ..))
  have hdrop : (c :: rest).dropWhile isSpace = c :: rest := by
    rw [List.dropWhile_cons, hspace]
    rfl
  rw [scanNumber, hdrop]
  dsimp only
  rw [if_neg hminus, if_neg hplus, List.takeWhile_eq_self_iff.mpr hdigits]

/-- So are digits after a sign, a minus being kept. -/
theorem scanNumber_signed {ds : Bytes} (h : Digits ds) {c : UInt8} (hc : c = 0x2d ∨ c = 0x2b) :
    scanNumber (c :: ds) = (decide (c = 0x2d), ds) := by
  have htake : ds.takeWhile isDigit = ds := List.takeWhile_eq_self_iff.mpr h.2
  rcases hc with rfl | rfl
  · change (true, ds.takeWhile isDigit) = _
    rw [htake]
    rfl
  · change (false, ds.takeWhile isDigit) = _
    rw [htake]
    rfl

/-- Digits of a 64-bit number read as that number through `stoull`. -/
theorem stoull_digits {ds : Bytes} (h : Digits ds) {n : UInt64} (hn : digitsValue ds = n.toNat) :
    stoull ds = .ok n := by
  rw [stoull, scanNumber_digits h]
  dsimp only
  rw [if_neg h.1, hn, if_pos n.toNat_lt, UInt64.ofNat_toNat]
  rfl

theorem digits_dec (n : UInt64) : Digits (dec n) :=
  ⟨decimal_ne_nil, fun _ hc => isDigit_of_mem_decimal hc⟩

/-- A 64-bit number written in decimal reads back through `stoull`. -/
theorem stoull_dec (n : UInt64) : stoull (dec n) = .ok n :=
  stoull_digits (digits_dec n) (digitsValue_decimal n.toNat)

theorem dec_inj {a b : UInt64} (h : dec a = dec b) : a = b := UInt64.toNat_inj.mp (decimal_inj h)

/-! ## Checksums -/

theorem checksum_lt (bytes : Bytes) : (checksum bytes).toNat < 256 := by
  rw [toNat_checksum]
  exact Nat.mod_lt _ (by decide)

/-- A checksum is written in three digits, its own. -/
theorem formatChecksum_spec {v : UInt32} (h : v.toNat < 256) :
    (∀ c ∈ formatChecksum v, isDigit c = true) ∧ digitsValue (formatChecksum v) = v.toNat := by
  have hall : ∀ n : Fin 256, (formatChecksum (UInt32.ofNat n.val)).all isDigit = true ∧
      digitsValue (formatChecksum (UInt32.ofNat n.val)) = n.val := by
    decide +kernel
  obtain ⟨hdigits, hvalue⟩ := hall ⟨v.toNat, h⟩
  rw [UInt32.ofNat_toNat] at hdigits hvalue
  exact ⟨List.all_eq_true.mp hdigits, hvalue⟩

theorem length_formatChecksum (v : UInt32) : (formatChecksum v).length = 3 := rfl

/-! ## The walk -/

/-- A body the serializer writes so that the parser can read it: tags
that fit a non-negative `int`, each once, and values without the
separator. -/
structure Writable (soh : UInt8) (body : Body) : Prop where
  tags : ∀ kv ∈ body, 0 ≤ kv.1 ∧ kv.1 < 2 ^ 31
  nodup : (body.map Prod.fst).Nodup
  values : ∀ kv ∈ body, soh ∉ kv.2

/-- The map a run of fields makes. -/
def addFields (fields : Fields) (body : Body) : Fields :=
  body.foldl (fun f kv => f.insert kv.1 kv.2) fields

theorem Writable.tail {soh : UInt8} {kv : Int × Bytes} {body : Body}
    (h : Writable soh (kv :: body)) : Writable soh body where
  tags x hx := h.tags x (List.mem_cons_of_mem _ hx)
  nodup := (List.nodup_cons.mp h.nodup).2
  values x hx := h.values x (List.mem_cons_of_mem _ hx)

/-- Storing a field leaves the later ones new. -/
theorem fresh_insert {fields : Fields} {kv : Int × Bytes} {body : Body}
    (h : ((kv :: body).map Prod.fst).Nodup) (hfresh : ∀ x ∈ kv :: body, x.1 ∉ fields) :
    ∀ x ∈ body, x.1 ∉ fields.insert kv.1 kv.2 := by
  intro x hx
  rw [AList.mem_insert, not_or]
  refine ⟨?_, hfresh x (List.mem_cons_of_mem _ hx)⟩
  intro he
  exact (List.nodup_cons.mp h).1 (List.mem_map.mpr ⟨x, hx, he⟩)

/-- **One field of the walk**, wherever the body ends. -/
theorem walkFields_field {soh : UInt8} {n : ℕ} {v pre post : Bytes} {fields : Fields}
    {fuel bodyEnd : ℕ} (hn : n < 2 ^ 31) (hv : soh ∉ v) :
    walkFields soh (pre ++ (field soh (n, v) ++ post)) bodyEnd (fuel + 1) pre.length fields =
      if pre.length < bodyEnd then
        if bodyEnd ≤ pre.length + (decimal n).length then (.malformedField, fields)
        else if bodyEnd < pre.length + (decimal n).length + 1 + v.length then
          (.malformedField, fields)
        else if (n : Int) ∈ fields then (.duplicateField, fields)
        else walkFields soh (pre ++ field soh (n, v) ++ post) bodyEnd fuel
          (pre ++ field soh (n, v)).length (fields.insert n v)
      else (.none, fields) := by
  set dl := (decimal n).length with hdl
  have hbuf : pre ++ (field soh (n, v) ++ post) =
      pre ++ (decimal n ++ 0x3d :: (v ++ soh :: post)) := by
    rw [field, decimalInt_natCast]
    simp only [List.append_assoc, List.cons_append, List.nil_append]
  have hpre' : pre ++ (decimal n ++ 0x3d :: (v ++ soh :: post)) =
      (pre ++ (decimal n ++ [0x3d])) ++ (v ++ soh :: post) := by
    simp only [List.append_assoc, List.cons_append, List.nil_append]
  have hl' : (pre ++ (decimal n ++ [0x3d])).length = pre.length + dl + 1 := by
    simp only [List.length_append, List.length_cons, List.length_nil]
    omega
  have hlnext : (pre ++ field soh (n, v)).length = pre.length + dl + 1 + v.length + 1 := by
    rw [field, decimalInt_natCast]
    simp only [List.length_append, List.length_cons, List.length_nil]
    omega
  -- the tag ends at its `=`, the value at the separator
  have heq : findFrom 0x3d pre.length (pre ++ (decimal n ++ 0x3d :: (v ++ soh :: post))) =
      some (pre.length + dl) := findFrom_of_notMem (notMem_decimal (by decide))
  have htag : substr (pre ++ (decimal n ++ 0x3d :: (v ++ soh :: post))) pre.length
      (pre.length + dl - pre.length) = decimal n := by
    rw [Nat.add_sub_cancel_left]
    exact substr_of_eq
  have hsoh : findFrom soh (pre.length + dl + 1)
      (pre ++ (decimal n ++ 0x3d :: (v ++ soh :: post))) =
      some (pre.length + dl + 1 + v.length) := by
    rw [hpre', ← hl']
    exact findFrom_of_notMem hv
  have hval : substr (pre ++ (decimal n ++ 0x3d :: (v ++ soh :: post)))
      (pre.length + dl + 1) (pre.length + dl + 1 + v.length - (pre.length + dl + 1)) = v := by
    rw [Nat.add_sub_cancel_left, hpre', ← hl']
    exact substr_of_eq
  rw [List.append_assoc pre, hlnext, hbuf, walkFields]
  simp only [heq, htag, parseUint_decimal, hsoh, hval, toInt32_of_lt hn]

/-- **The walk over a run of fields** reads them all. -/
theorem walkFields_eq {soh : UInt8} {body : Body} {pre post : Bytes} {fields : Fields}
    {fuel : ℕ} (h : Writable soh body) (hfresh : ∀ kv ∈ body, kv.1 ∉ fields)
    (hfuel : body.length ≤ fuel) :
    walkFields soh (pre ++ (fieldBytes soh body ++ post))
      (pre.length + (fieldBytes soh body).length) fuel pre.length fields =
        (.none, addFields fields body) := by
  induction body generalizing pre fields fuel with
  | nil =>
    cases fuel with
    | zero => rfl
    | succ fuel => rw [walkFields, if_neg (by simp [fieldBytes])]; rfl
  | cons kv body ih =>
    obtain ⟨t, v⟩ := kv
    obtain ⟨ht0, ht⟩ := h.tags (t, v) (List.mem_cons_self ..)
    obtain ⟨n, rfl⟩ := Int.eq_ofNat_of_zero_le ht0
    have hn : n < 2 ^ 31 := by
      have : (n : Int) < 2 ^ 31 := ht
      omega
    have hv : soh ∉ v := h.values ((n : Int), v) (List.mem_cons_self ..)
    obtain ⟨fuel, rfl⟩ : ∃ k, fuel = k + 1 := ⟨fuel - 1, by rw [List.length_cons] at hfuel; omega⟩
    have hcons : fieldBytes soh (((n : Int), v) :: body) =
        field soh ((n : Int), v) ++ fieldBytes soh body := List.flatMap_cons ..
    have hlen : (field soh ((n : Int), v)).length = (decimal n).length + 1 + v.length + 1 := by
      rw [field, decimalInt_natCast]
      simp only [List.length_append, List.length_cons, List.length_nil]
      omega
    have hnotin : (n : Int) ∉ fields := hfresh _ (List.mem_cons_self ..)
    have hend : pre.length + (field soh ((n : Int), v) ++ fieldBytes soh body).length =
        (pre ++ field soh ((n : Int), v)).length + (fieldBytes soh body).length := by
      rw [List.length_append, List.length_append]
      omega
    rw [hcons, List.append_assoc, walkFields_field hn hv,
      if_pos (by rw [hend, List.length_append]; omega),
      if_neg (by rw [hend, List.length_append]; omega),
      if_neg (by rw [hend, List.length_append]; omega), if_neg hnotin, hend]
    apply ih h.tail (fresh_insert h.nodup hfresh)
    rw [List.length_cons] at hfuel
    omega

/-! ## A whole message -/

/-- The fields of a built message before its trailer. -/
def framed (soh : UInt8) (body : Body) : Body :=
  (Tag.beginString, ascii "FIX.4.4") ::
    (Tag.bodyLength, decimal (fieldBytes soh body).length) :: body

/-- The header is the two first fields. -/
theorem fieldBytes_framed (soh : UInt8) (body : Body) :
    fieldBytes soh (framed soh body) =
      header soh (fieldBytes soh body).length ++ fieldBytes soh body := by
  have h8 : decimalInt Tag.beginString = ascii "8" := by decide
  have h9 : decimalInt Tag.bodyLength = ascii "9" := by decide
  rw [framed, fieldBytes, List.flatMap_cons, List.flatMap_cons, field, field, h8, h9, header]
  simp only [List.append_assoc, List.cons_append, List.nil_append]
  rfl

theorem header_eq (soh : UInt8) (len : ℕ) :
    header soh len = (kBegin ++ [soh, 0x39, 0x3d]) ++ (decimal len ++ [soh]) := by
  have h9 : ascii "9=" = [0x39, 0x3d] := by decide
  rw [header, h9]
  simp only [List.append_assoc, List.cons_append, List.nil_append]

theorem build_eq (soh : Soh) (body : Body) :
    build soh body = fieldBytes soh.byte (framed soh.byte body) ++
      (0x31 :: 0x30 :: 0x3d ::
        (formatChecksum (checksum (fieldBytes soh.byte (framed soh.byte body))) ++ [soh.byte])) := by
  rw [build, fieldBytes_framed]
  simp only [List.append_assoc]
  rfl

/-- The body a caller may hand the serializer. -/
structure Buildable (soh : UInt8) (body : Body) : Prop extends Writable soh body where
  reserved : ∀ kv ∈ body,
    kv.1 ≠ Tag.beginString ∧ kv.1 ≠ Tag.bodyLength ∧ kv.1 ≠ Tag.checkSum

/-- Tags of a body that can be built. -/
def BuildableTags (tags : List Int) : Prop :=
  tags.Nodup ∧ ∀ t ∈ tags, (0 ≤ t ∧ t < 2 ^ 31) ∧
    t ≠ Tag.beginString ∧ t ≠ Tag.bodyLength ∧ t ≠ Tag.checkSum

instance (tags : List Int) : Decidable (BuildableTags tags) := inferInstanceAs (Decidable (_ ∧ _))

theorem buildable_of_tags {soh : UInt8} {body : Body} (htags : BuildableTags (body.map Prod.fst))
    (hvalues : ∀ v ∈ body.map Prod.snd, soh ∉ v) : Buildable soh body where
  tags _ hkv := (htags.2 _ (List.mem_map_of_mem hkv)).1
  nodup := htags.1
  values _ hkv := hvalues _ (List.mem_map_of_mem hkv)
  reserved _ hkv := (htags.2 _ (List.mem_map_of_mem hkv)).2

theorem Buildable.framed {soh : Soh} {body : Body} (h : Buildable soh.byte body) :
    Writable soh.byte (framed soh.byte body) where
  tags kv hkv := by
    rcases List.mem_cons.mp hkv with rfl | hkv
    · decide
    rcases List.mem_cons.mp hkv with rfl | hkv
    · exact (by decide : (0 : Int) ≤ 9 ∧ (9 : Int) < 2 ^ 31)
    exact h.tags kv hkv
  nodup := by
    have h8 : Tag.beginString ∉ body.map Prod.fst := fun hm => by
      obtain ⟨kv, hkv, he⟩ := List.mem_map.mp hm
      exact (h.reserved kv hkv).1 he
    have h9 : Tag.bodyLength ∉ body.map Prod.fst := fun hm => by
      obtain ⟨kv, hkv, he⟩ := List.mem_map.mp hm
      exact (h.reserved kv hkv).2.1 he
    refine List.nodup_cons.mpr ⟨?_, List.nodup_cons.mpr ⟨h9, h.nodup⟩⟩
    intro hm
    rcases List.mem_cons.mp hm with he | hm
    · exact (by decide : ¬ (8 : Int) = 9) he
    · exact h8 hm
  values kv hkv := by
    rcases List.mem_cons.mp hkv with rfl | hkv
    · cases soh <;> decide
    rcases List.mem_cons.mp hkv with rfl | hkv
    · exact notMem_decimal (isDigit_soh soh)
    exact h.values kv hkv

theorem mem_addFields {fields : Fields} {body : Body} {t : Int} :
    t ∈ addFields fields body ↔ t ∈ fields ∨ t ∈ body.map Prod.fst := by
  induction body generalizing fields with
  | nil => simp [addFields]
  | cons kv body ih =>
    rw [addFields, List.foldl_cons, ← addFields, ih, AList.mem_insert, List.map_cons,
      List.mem_cons]
    tauto

/-- Fields with distinct tags are found under their tags. -/
theorem lookup_addFields {fields : Fields} {body : Body} (h : (body.map Prod.fst).Nodup) (t : Int) :
    (addFields fields body).lookup t = (body.lookup t).or (fields.lookup t) := by
  induction body generalizing fields with
  | nil => rfl
  | cons kv body ih =>
    obtain ⟨k, v⟩ := kv
    obtain ⟨hk, hbody⟩ := List.nodup_cons.mp h
    rw [addFields, List.foldl_cons, ← addFields, ih hbody]
    by_cases hkt : t = k
    · subst hkt
      have hnone : body.lookup t = none := by
        rw [List.lookup_eq_none_iff]
        intro kv hkv
        exact bne_iff_ne.mpr fun he => hk (List.mem_map.mpr ⟨kv, hkv, he.symm⟩)
      rw [hnone, AList.lookup_insert, List.lookup_cons_self]
      rfl
    · rw [AList.lookup_insert_ne hkt, List.lookup_cons, beq_eq_false_iff_ne.mpr hkt]

/-- Fields with distinct new tags are stored as they are. -/
theorem entries_addFields {fields : Fields} {body : Body} (h : (body.map Prod.fst).Nodup)
    (hfresh : ∀ kv ∈ body, kv.1 ∉ fields) :
    (addFields fields body).entries =
      (body.map fun kv => (⟨kv.1, kv.2⟩ : Sigma fun _ : Int => Bytes)).reverse ++
        fields.entries := by
  induction body generalizing fields with
  | nil => rfl
  | cons kv body ih =>
    obtain ⟨hk, hbody⟩ := List.nodup_cons.mp h
    rw [addFields, List.foldl_cons, ← addFields, ih hbody]
    · rw [AList.entries_insert_of_notMem (hfresh kv (List.mem_cons_self ..)), List.map_cons,
        List.reverse_cons, List.append_assoc]
      rfl
    · exact fresh_insert h hfresh

/-- The fields a built message parses to. -/
def parsedFields (soh : UInt8) (body : Body) : Fields :=
  (addFields ∅ (framed soh body)).insert Tag.checkSum
    (formatChecksum (checksum (fieldBytes soh (framed soh body))))

theorem checkSum_notMem_framed {soh : Soh} {body : Body} (h : Buildable soh.byte body) :
    Tag.checkSum ∉ addFields ∅ (framed soh.byte body) := by
  rw [mem_addFields, not_or]
  refine ⟨AList.notMem_empty _, fun hm => ?_⟩
  rcases List.mem_cons.mp hm with he | hm
  · exact (by decide : ¬ (10 : Int) = 8) he
  rcases List.mem_cons.mp hm with he | hm
  · exact (by decide : ¬ (10 : Int) = 9) he
  obtain ⟨kv, hkv, he⟩ := List.mem_map.mp hm
  exact (h.reserved kv hkv).2.2 he

/-- What a built message parses to, field by field. -/
theorem mem_parsedFields {soh : Soh} {body : Body} (h : Buildable soh.byte body) {t : Int}
    {v : Bytes} :
    ⟨t, v⟩ ∈ (parsedFields soh.byte body).entries ↔
      (t, v) ∈ (Tag.checkSum, formatChecksum
        (checksum (fieldBytes soh.byte (framed soh.byte body)))) :: framed soh.byte body := by
  rw [parsedFields, AList.entries_insert_of_notMem (checkSum_notMem_framed h),
    entries_addFields h.framed.nodup fun kv _ => AList.notMem_empty kv.1, List.mem_cons,
    List.mem_cons, AList.empty_entries, List.append_nil, List.mem_reverse, List.mem_map]
  constructor
  · rintro (he | ⟨kv, hkv, he⟩)
    · obtain ⟨rfl, hv⟩ := Sigma.mk.inj he
      exact .inl (by rw [eq_of_heq hv])
    · obtain ⟨rfl, hv⟩ := Sigma.mk.inj he
      exact .inr (eq_of_heq hv ▸ hkv)
  · rintro (he | hkv)
    · obtain ⟨rfl, rfl⟩ := Prod.mk.inj he
      exact .inl rfl
    · exact .inr ⟨(t, v), hkv, rfl⟩

theorem length_framed_le {soh : UInt8} {body : Body} :
    body.length ≤ (fieldBytes soh body).length := by
  induction body with
  | nil => exact Nat.le_refl _
  | cons kv body ih =>
    rw [fieldBytes] at ih ⊢
    rw [List.flatMap_cons, List.length_append, List.length_cons, field, List.length_append,
      List.length_cons]
    omega

theorem length_build (soh : Soh) (body : Body) :
    (build soh body).length = (fieldBytes soh.byte (framed soh.byte body)).length + 7 := by
  rw [build_eq]
  simp only [List.length_append, List.length_cons, length_formatChecksum, List.length_nil]

/-- **The frame of a built message.** -/
def builtFrame (soh : UInt8) (body : Body) : Frame where
  len := decimal (fieldBytes soh body).length
  body := fieldBytes soh body
  sum := formatChecksum (checksum (fieldBytes soh (framed soh body)))

theorem front_builtFrame (soh : UInt8) (body : Body) :
    (builtFrame soh body).front soh = fieldBytes soh (framed soh body) := by
  rw [fieldBytes_framed, header_eq, Frame.front, opening, builtFrame]
  simp only [List.append_assoc, List.cons_append, List.nil_append]

theorem bytes_builtFrame (soh : Soh) (body : Body) :
    (builtFrame soh.byte body).bytes soh.byte = build soh body := by
  rw [Frame.bytes, front_builtFrame, build_eq]
  rfl

/-- The frame of a built message holds, its length being true. -/
theorem builtFrame_holds (soh : UInt8) (body : Body) :
    (builtFrame soh body).Holds soh (· = ·) where
  len := ⟨decimal_ne_nil, fun _ hc => isDigit_of_mem_decimal hc⟩
  length := digitsValue_decimal _
  sum := ⟨rfl, (formatChecksum_spec (checksum_lt _)).1⟩
  checksum := by
    rw [front_builtFrame, ← toNat_checksum]
    exact (formatChecksum_spec (checksum_lt _)).2

/-- A built message gets to its fields. -/
theorem parseOne_frame {soh : Soh} {body : Body} {r : Bytes}
    (hlen : (build soh body ++ r).length < 2 ^ 64) :
    parseOne soh (build soh body ++ r) =
      .ok (parseFields soh.byte (build soh body ++ r)
        (fieldBytes soh.byte (framed soh.byte body)).length
        (checksum (fieldBytes soh.byte (framed soh.byte body)))) := by
  have hbytes := bytes_builtFrame soh body
  have hfront := front_builtFrame soh.byte body
  have hbody := (builtFrame soh.byte body).length_body_le soh.byte r
  rw [← hbytes] at hlen ⊢
  rw [← hfront]
  exact parseOne_of_holds hlen ((builtFrame_holds soh.byte body).wrapped (by omega))

/-- **A built message parses back**, whatever follows it in the buffer. -/
theorem parseOne_build {soh : Soh} {body : Body} (h : Buildable soh.byte body) (r : Bytes)
    (hlen : (build soh body ++ r).length < 2 ^ 64) :
    parseOne soh (build soh body ++ r) =
      .ok ⟨.none, (build soh body).length, ⟨parsedFields soh.byte body⟩⟩ := by
  have hwalk := @walkFields_eq soh.byte (framed soh.byte body) []
    (0x31 :: 0x30 :: 0x3d :: (formatChecksum (checksum (fieldBytes soh.byte (framed soh.byte body)))
      ++ soh.byte :: r)) ∅ (fieldBytes soh.byte (framed soh.byte body)).length h.framed
    (fun kv _ => AList.notMem_empty kv.1) length_framed_le
  have hbuf : build soh body ++ r = [] ++ (fieldBytes soh.byte (framed soh.byte body) ++
      (0x31 :: 0x30 :: 0x3d :: (formatChecksum (checksum (fieldBytes soh.byte
        (framed soh.byte body))) ++ soh.byte :: r))) := by
    rw [build_eq]
    simp only [List.append_assoc, List.cons_append, List.nil_append]
  rw [← hbuf, List.length_nil, Nat.zero_add] at hwalk
  rw [parseOne_frame hlen, parseFields, hwalk]
  simp only [if_neg (checkSum_notMem_framed h), length_build]
  rfl

/-- A message of our own is never read out of bounds, even one that does
not parse. -/
theorem parseOne_build_returns {soh : Soh} {body : Body}
    (hlen : (build soh body).length < 2 ^ 64) : ∃ r, parseOne soh (build soh body) = .ok r := by
  have hframe := @parseOne_frame soh body [] (by rwa [List.append_nil])
  rw [List.append_nil] at hframe
  exact ⟨_, hframe⟩

/-! ## The type of a message of our own -/

/-- A walk that returns has stopped before a field, or stored it. -/
theorem walkFields_past {soh : UInt8} {n : ℕ} {v pre post : Bytes} {fields fields' : Fields}
    {fuel bodyEnd : ℕ} (hn : n < 2 ^ 31) (hv : soh ∉ v)
    (h : walkFields soh (pre ++ (field soh (n, v) ++ post)) bodyEnd fuel pre.length fields =
      (.none, fields')) :
    fields' = fields ∨ ∃ fuel',
      walkFields soh (pre ++ field soh (n, v) ++ post) bodyEnd fuel'
        (pre ++ field soh (n, v)).length (fields.insert n v) = (.none, fields') := by
  cases fuel with
  | zero => exact .inl (Prod.mk.inj h).2.symm
  | succ fuel =>
    rw [walkFields_field hn hv] at h
    split_ifs at h
    · cases (Prod.mk.inj h).1
    · cases (Prod.mk.inj h).1
    · cases (Prod.mk.inj h).1
    · exact .inr ⟨fuel, h⟩
    · exact .inl (Prod.mk.inj h).2.symm

/-- **The type a message of our own is read with**, whatever its other
fields: its own, or none. -/
theorem type_of_parse {soh : Soh} {mt : Bytes} {rest : Body} {pr : ParseResult}
    (hmt : soh.byte ∉ mt) (hp : parseOne soh (build soh ((Tag.msgType, mt) :: rest)) = .ok pr)
    (hnone : pr.err = .none) :
    pr.msg.get Tag.msgType = none ∨ pr.msg.get Tag.msgType = some mt := by
  obtain ⟨bodyEnd, want, -, rfl⟩ := parseOne_fields hp hnone
  obtain ⟨n, hn⟩ : ∃ n, (fieldBytes soh.byte ((Tag.msgType, mt) :: rest)).length = n := ⟨_, rfl⟩
  obtain ⟨post, hbuf⟩ : ∃ post, build soh ((Tag.msgType, mt) :: rest) =
      [] ++ (field soh.byte ((8 : ℕ), ascii "FIX.4.4") ++
        (field soh.byte ((9 : ℕ), decimal n) ++ (field soh.byte ((35 : ℕ), mt) ++ post))) := by
    rw [build_eq, framed, hn]
    simp only [fieldBytes, List.flatMap_cons, List.append_assoc]
    exact ⟨_, rfl⟩
  rw [hbuf] at hnone ⊢
  rw [parseFields] at hnone ⊢
  set buf := [] ++ (field soh.byte ((8 : ℕ), ascii "FIX.4.4") ++
    (field soh.byte ((9 : ℕ), decimal n) ++ (field soh.byte ((35 : ℕ), mt) ++ post))) with hb
  rcases hw : walkFields soh.byte buf bodyEnd bodyEnd 0 ∅ with ⟨e, fields⟩
  rw [hw] at hnone
  have he : e = .none := by
    cases e with
    | none => rfl
    | _ => exact hnone
  subst he
  have hfields : fields.lookup Tag.msgType = none ∨ fields.lookup Tag.msgType = some mt := by
    have h8 : soh.byte ∉ ascii "FIX.4.4" := by cases soh <;> decide
    have h9 : soh.byte ∉ decimal n := notMem_decimal (isDigit_soh soh)
    rw [hb] at hw
    -- the walk ends before one of the first three fields, or stores MsgType
    rcases @walkFields_past _ 8 _ [] _ _ _ _ _ (by omega) h8 hw with rfl | ⟨fuel, hw⟩
    · exact .inl (AList.lookup_empty _)
    rcases walkFields_past (by omega) h9 hw with rfl | ⟨fuel, hw⟩
    · exact .inl (by rw [AList.lookup_insert_ne (by decide), AList.lookup_empty])
    rcases walkFields_past (by omega) hmt hw with rfl | ⟨fuel, hw⟩
    · exact .inl (by rw [AList.lookup_insert_ne (by decide), AList.lookup_insert_ne (by decide),
        AList.lookup_empty])
    exact .inr (walkFields_keeps (AList.lookup_insert _) hw)
  rw [Message.get]
  dsimp only
  split_ifs
  · exact hfields
  · rw [AList.lookup_insert_ne (by decide)]
    exact hfields

end Fix

end OrderbookFix
