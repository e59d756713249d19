import OrderbookFix.Fix.Helpers.Evolution
import OrderbookFix.Fix.Helpers.RoundTrip
/-!
# The type of a message on the wire

MsgType is the third field of a message, and what a session builds has it
there: the first field of the body.
-/

namespace OrderbookFix

namespace Fix

/-- What follows the first field. -/
def afterField (soh : UInt8) (w : Bytes) : Bytes := (w.dropWhile (· != soh)).drop 1

/-- The third field of a message, where MsgType stands. -/
def thirdField (soh : UInt8) (w : Bytes) : Bytes :=
  (afterField soh (afterField soh w)).takeWhile (· != soh)

/-- **A message of a type.** -/
def IsType (soh : Soh) (mt : Bytes) (w : WireOut) : Prop :=
  thirdField soh.byte w = ascii "35=" ++ mt

instance (soh : Soh) (mt : Bytes) (w : WireOut) : Decidable (IsType soh mt w) :=
  inferInstanceAs (Decidable (_ = _))

section Third

variable {soh : UInt8} {v rest : Bytes}

theorem bne_of_notMem (h : soh ∉ v) : ∀ c ∈ v, (c != soh) = true :=
  fun _ hc => bne_iff_ne.mpr fun he => h (he ▸ hc)

theorem afterField_append (h : soh ∉ v) : afterField soh (v ++ soh :: rest) = rest := by
  rw [afterField, List.dropWhile_append_of_pos (bne_of_notMem h),
    List.dropWhile_cons_of_neg (by simp), List.drop_one, List.tail_cons]

theorem takeWhile_field (h : soh ∉ v) : (v ++ soh :: rest).takeWhile (· != soh) = v := by
  rw [List.takeWhile_append_of_pos (bne_of_notMem h), List.takeWhile_cons_of_neg (by simp),
    List.append_nil]

end Third

/-- The third field of a message is the first of its body. -/
theorem thirdField_build (soh : Soh) (t : Int) (v : Bytes) (rest : Body) :
    ∃ u, thirdField soh.byte (build soh ((t, v) :: rest)) = decimalInt t ++ 0x3d :: u ∧
      (soh.byte ∉ v → u = v) := by
  obtain ⟨n, hn⟩ : ∃ n, (fieldBytes soh.byte ((t, v) :: rest)).length = n := ⟨_, rfl⟩
  obtain ⟨post, hbuild⟩ : ∃ post, build soh ((t, v) :: rest) =
      kBegin ++ soh.byte :: ((ascii "9=" ++ decimal n) ++ soh.byte ::
        ((decimalInt t ++ [0x3d]) ++ (v ++ soh.byte :: post))) := by
    rw [build, hn, header, fieldBytes, List.flatMap_cons, field]
    simp only [List.append_assoc, List.cons_append, List.nil_append]
    exact ⟨_, rfl⟩
  have h8 : soh.byte ∉ kBegin := by cases soh <;> decide
  have h9 : soh.byte ∉ ascii "9=" ++ decimal n := by
    rw [List.mem_append, not_or]
    exact ⟨by cases soh <;> decide, notMem_decimal (isDigit_soh soh)⟩
  have htag : soh.byte ∉ decimalInt t ++ [0x3d] := by
    rw [List.mem_append, not_or]
    exact ⟨Session.notMem_decimalInt t, by cases soh <;> decide⟩
  refine ⟨(v ++ soh.byte :: post).takeWhile (· != soh.byte), ?_, takeWhile_field⟩
  rw [thirdField, hbuild, afterField_append h8, afterField_append h9,
    List.takeWhile_append_of_pos (bne_of_notMem htag), List.append_assoc]
  rfl

/-- A built message of a type has MsgType first, and the type in it. -/
theorem isType_build {soh : Soh} {mt v : Bytes} {t : Int} {rest : Body} (hmt : 0x3d ∉ mt)
    (h : IsType soh mt (build soh ((t, v) :: rest))) :
    t = Tag.msgType ∧ (soh.byte ∉ v → v = mt) := by
  obtain ⟨u, hu, huv⟩ := thirdField_build soh t v rest
  have htag : ascii "35=" = decimalInt Tag.msgType ++ [0x3d] := by decide
  have hsplit : decimalInt Tag.msgType ++ 0x3d :: mt = decimalInt t ++ 0x3d :: u := by
    rw [← hu, h, htag, List.append_assoc]
    rfl
  obtain ⟨htag, -, hval⟩ := (List.append_cons_inj_of_notMem (by decide) hmt).mp hsplit
  exact ⟨(decimalInt_inj htag).symm, fun hv => by rw [← huv hv, ← hval]⟩

/-- A built message with MsgType first is of that type. -/
theorem isType_of_build {soh : Soh} {mt : Bytes} {rest : Body} (hmt : soh.byte ∉ mt) :
    IsType soh mt (build soh ((Tag.msgType, mt) :: rest)) := by
  obtain ⟨u, hu, huv⟩ := thirdField_build soh Tag.msgType mt rest
  have htag : ascii "35=" = decimalInt Tag.msgType ++ [0x3d] := by decide
  rw [IsType, hu, huv hmt, htag, List.append_assoc]
  rfl

/-- A field after another stands between separators. -/
theorem field_infix_build (soh : Soh) (body rest : Body) (t : Int) (v : Bytes)
    (kv : Int × Bytes) :
    soh.byte :: field soh.byte kv <:+: build soh (body ++ (t, v) :: kv :: rest) := by
  have hfields : soh.byte :: field soh.byte kv <:+:
      fieldBytes soh.byte (body ++ (t, v) :: kv :: rest) :=
    ⟨fieldBytes soh.byte body ++ decimalInt t ++ 0x3d :: v, fieldBytes soh.byte rest,
      by simp [fieldBytes, field]⟩
  have hbuild : fieldBytes soh.byte (body ++ (t, v) :: kv :: rest) <:+:
      build soh (body ++ (t, v) :: kv :: rest) := by
    rw [build]
    simp only [List.append_assoc]
    exact List.infix_append' _ _ _
  exact hfields.trans hbuild

end Fix

end OrderbookFix
