import OrderbookFix.Fix.Helpers.Written
/-!
# The field map

The map of a message that parses, against the fields its bytes hold. A
tag is read modulo the word size and cut down to an `int`, and the
checksum is stored with an `emplace` whose failure nobody looks at, so
the map is the message exactly if no tag before the trailer is `2^31` or
more, and none is 10.
-/

namespace OrderbookFix

namespace Fix

open Bytes

/-- **A map that says what the fields say**: an entry for each tag that
is written once, no tag written twice, and an entry to each field. -/
structure Faithful (ws : List Written) (m : Message) : Prop where
  entries : ∀ (t : Int) (v : Bytes), m.get t = some v ↔
    ∃ tag, ws.filter (fun w => (w.number : Int) = t) = [⟨tag, v⟩]
  distinct : (ws.map Written.number).Nodup
  apart : m.fields.entries.length = ws.length

/-- **The tags an `int` holds**, the checksum's own kept for the trailer. -/
def IntTags (ws : List Written) : Prop :=
  ∀ w ∈ ws, w.number < 2 ^ 31 ∧ w.number ≠ 10

instance (ws : List Written) : Decidable (IntTags ws) := inferInstanceAs (Decidable (∀ w ∈ ws, _))

/-- A tag that is written once is found. -/
theorem filter_number {ws : List Written} (h : (ws.map Written.number).Nodup) {w : Written}
    {t : Int} :
    ws.filter (fun x => (x.number : Int) = t) = [w] ↔ w ∈ ws ∧ (w.number : Int) = t := by
  induction ws with
  | nil => simp
  | cons x ws ih =>
    obtain ⟨hx, hws⟩ := List.nodup_cons.mp h
    by_cases hxt : (x.number : Int) = t
    · have hrest : ws.filter (fun x => (x.number : Int) = t) = [] := by
        rw [List.filter_eq_nil_iff]
        intro y hy he
        refine hx (List.mem_map.mpr ⟨y, hy, ?_⟩)
        have := of_decide_eq_true he
        omega
      rw [List.filter_cons_of_pos (by simpa using hxt), hrest, List.cons.injEq, List.mem_cons]
      constructor
      · rintro ⟨rfl, -⟩
        exact ⟨.inl rfl, hxt⟩
      · rintro ⟨rfl | hw, hwt⟩
        · exact ⟨rfl, rfl⟩
        · refine absurd (List.mem_map.mpr ⟨w, hw, ?_⟩) hx
          omega
    · rw [List.filter_cons_of_neg (by simpa using hxt), ih hws, List.mem_cons]
      constructor
      · exact fun h => ⟨.inr h.1, h.2⟩
      · rintro ⟨rfl | hw, hwt⟩
        · exact absurd hwt hxt
        · exact ⟨hw, hwt⟩

theorem toInt32_lt (v : UInt64) : toInt32 v < 2 ^ 31 := by
  have hm : v.toNat % 2 ^ 32 < 2 ^ 32 := Nat.mod_lt _ (by decide)
  rw [toInt32]
  split_ifs <;> omega

theorem stored_nodup {ws : List Written} (h : (ws.map Written.key).Nodup) :
    ((stored ws).map Prod.fst).Nodup := by
  rwa [stored, List.map_map]

/-- A stored key is an `int`. -/
theorem lt_of_mem_readFields {ws : List Written} {sum : Bytes} {t : Int}
    (h : t ∈ readFields ws sum) : t < 2 ^ 31 := by
  have hkeys : t ∈ addFields ∅ (stored ws) → t < 2 ^ 31 := by
    intro hmem
    rcases mem_addFields.mp hmem with hmem | hmem
    · exact absurd hmem (AList.notMem_empty _)
    · rw [stored, List.map_map] at hmem
      obtain ⟨w, -, rfl⟩ := List.mem_map.mp hmem
      exact toInt32_lt _
  rw [readFields] at h
  split_ifs at h
  · exact hkeys h
  · rcases AList.mem_insert _ |>.mp h with rfl | h
    · decide
    · exact hkeys h

namespace IntTags

variable {ws : List Written} {sum : Bytes}

theorem key_eq (h : IntTags ws) {w : Written} (hw : w ∈ ws) : w.key = w.number :=
  toInt32_of_lt (h w hw).1

theorem nodup (h : IntTags ws) (hkeys : (ws.map Written.key).Nodup) :
    (ws.map Written.number).Nodup := by
  have hmap : ws.map Written.key = (ws.map Written.number).map fun n : ℕ => (n : Int) := by
    rw [List.map_map]
    exact List.map_congr_left fun w hw => h.key_eq hw
  rw [hmap] at hkeys
  exact hkeys.of_map _

/-- IntTags tags and the checksum make one entry each. -/
theorem entries_readFields (h : IntTags ws) (hkeys : (ws.map Written.key).Nodup) :
    (readFields ws sum).entries = ⟨Tag.checkSum, sum⟩ ::
      (ws.map fun w => (⟨(w.number : Int), w.value⟩ : Sigma fun _ : Int => Bytes)).reverse := by
  have hten : Tag.checkSum ∉ addFields ∅ (stored ws) := by
    rw [mem_addFields, not_or]
    refine ⟨AList.notMem_empty _, fun hmem => ?_⟩
    rw [stored, List.map_map] at hmem
    obtain ⟨w, hw, he⟩ := List.mem_map.mp hmem
    have hnum : (w.number : Int) = 10 := (h.key_eq hw).symm.trans he
    exact (h w hw).2 (by omega)
  rw [readFields, if_neg hten, AList.entries_insert_of_notMem hten,
    entries_addFields (stored_nodup hkeys) fun kv _ => AList.notMem_empty kv.1,
    AList.empty_entries, List.append_nil, stored, List.map_map]
  congr 2
  exact List.map_congr_left fun w hw => by rw [Function.comp_apply, h.key_eq hw]

end IntTags

/-- IntTags tags are distinct, the trailer's among them. -/
theorem IntTags.nodup_trailer {f : Frame} {ws : List Written} (h : IntTags ws)
    (hkeys : (ws.map Written.key).Nodup) : ((ws ++ [f.trailer]).map Written.number).Nodup := by
  rw [List.map_append, List.nodup_append]
  refine ⟨h.nodup hkeys, List.nodup_singleton _, ?_⟩
  intro a ha b hb
  obtain ⟨w, hw, rfl⟩ := List.mem_map.mp ha
  obtain rfl := List.mem_singleton.mp hb
  exact (h w hw).2

/-- **The map is the message exactly if its tags are `int` values.** -/
theorem faithful_iff_intTags {f : Frame} {ws : List Written} (hkeys : (ws.map Written.key).Nodup) :
    Faithful (ws ++ [f.trailer]) ⟨readFields ws f.sum⟩ ↔ IntTags ws := by
  constructor
  · intro h w hw
    have hmem : w ∈ ws ++ [f.trailer] := List.mem_append_left _ hw
    constructor
    · -- the field has an entry of its own, and keys are `int` values
      have hget := (h.entries w.number w.value).mpr ⟨w.tag, (filter_number h.distinct).mpr
        ⟨hmem, rfl⟩⟩
      have hlt := lt_of_mem_readFields (AList.lookup_isSome.mp (by
        rw [Message.get] at hget
        rw [hget]
        rfl))
      omega
    · have hnodup := h.distinct
      rw [List.map_append, List.nodup_append] at hnodup
      exact hnodup.2.2 _ (List.mem_map_of_mem hw) 10 (List.mem_singleton_self _)
  · intro h
    have hnodup := @IntTags.nodup_trailer f ws h hkeys
    refine ⟨fun t v => ?_, hnodup, ?_⟩
    · have hentry : (readFields ws f.sum).lookup t = some v ↔
          ⟨t, v⟩ ∈ (readFields ws f.sum).entries := AList.mem_lookup_iff
      rw [Message.get, hentry, h.entries_readFields hkeys, List.mem_cons, List.mem_reverse,
        List.mem_map]
      simp only [filter_number hnodup, List.mem_append, List.mem_singleton]
      constructor
      · rintro (he | ⟨w, hw, he⟩)
        · obtain ⟨rfl, hv⟩ := Sigma.mk.inj he
          exact ⟨[0x31, 0x30], .inr (by rw [eq_of_heq hv]; rfl), rfl⟩
        · obtain ⟨rfl, hv⟩ := Sigma.mk.inj he
          exact ⟨w.tag, .inl (eq_of_heq hv ▸ hw), rfl⟩
      · rintro ⟨tag, hw | he, rfl⟩
        · exact .inr ⟨_, hw, rfl⟩
        · left
          rw [he, Frame.number_trailer]
          obtain ⟨-, hv⟩ := Written.mk.inj he
          rw [hv]
          rfl
    · dsimp only
      rw [h.entries_readFields hkeys]
      simp

/-- **The map of an accepted message says what its fields say** exactly
if the tags before its trailer are `int` values other than 10. -/
theorem fieldMap_faithful_iff {soh : Soh} {buf : Bytes} {r : ParseResult}
    (hbuf : buf.length < 2 ^ 63) (hp : parseOne soh buf = .ok r) (hr : r.err = .none) :
    Faithful (writtenFields soh.byte (buf.take r.consumed)) r.msg ↔
      IntTags (writtenFields soh.byte (buf.take r.consumed)).dropLast := by
  obtain ⟨f, rest, ws, rfl, hf, hfront, hok, hkeys, rfl⟩ := exists_written hbuf hp hr
  have hfields : writtenFields soh.byte ((f.bytes soh.byte ++ rest).take
      (f.bytes soh.byte).length) = ws ++ [f.trailer] := by
    rw [List.take_left, Frame.bytes_eq, hfront, ← writtenBytes_concat,
      writtenFields_writtenBytes (ok_concat hok (hf.trailer_ok (isDigit_soh soh)))]
  dsimp only
  rw [hfields, List.dropLast_concat]
  exact faithful_iff_intTags hkeys

/-- A Heartbeat: four fields, and a map of four entries. -/
theorem fieldMap_faithful_heartbeat :
    ∃ r, parseOne .text (ascii "8=FIX.4.4|9=5|35=0|10=020|") = .ok r ∧
      Faithful (writtenFields Soh.text.byte
        ((ascii "8=FIX.4.4|9=5|35=0|10=020|").take r.consumed)) r.msg := by
  obtain ⟨r, hp, hcheck⟩ := (passes_iff (p := fun r : ParseResult => decide (r.err = .none ∧
    IntTags (writtenFields Soh.text.byte
      ((ascii "8=FIX.4.4|9=5|35=0|10=020|").take r.consumed)).dropLast))
    (r := parseOne .text (ascii "8=FIX.4.4|9=5|35=0|10=020|"))).mp (by decide +kernel)
  obtain ⟨hr, htags⟩ := of_decide_eq_true hcheck
  exact ⟨r, hp, (fieldMap_faithful_iff (by decide) hp hr).mpr htags⟩

/-- The tag `2^32 + 35` passes for MsgType: no field 35 is written, and
the map has one. -/
theorem forged_msgType :
    ∃ r, parseOne .text (ascii "8=FIX.4.4|9=13|4294967331=D|10=255|") = .ok r ∧ r.err = .none ∧
      r.msg.get Tag.msgType = some (ascii "D") ∧
      ¬ Faithful (writtenFields Soh.text.byte
        ((ascii "8=FIX.4.4|9=13|4294967331=D|10=255|").take r.consumed)) r.msg := by
  obtain ⟨r, hp, hcheck⟩ := (passes_iff (p := fun r : ParseResult => decide (r.err = .none ∧
    r.msg.get Tag.msgType = some (ascii "D") ∧
    (writtenFields Soh.text.byte ((ascii "8=FIX.4.4|9=13|4294967331=D|10=255|").take
      r.consumed)).filter (fun w => (w.number : Int) = Tag.msgType) = []))
    (r := parseOne .text (ascii "8=FIX.4.4|9=13|4294967331=D|10=255|"))).mp (by decide +kernel)
  obtain ⟨hr, hget, hnone⟩ := of_decide_eq_true hcheck
  refine ⟨r, hp, hr, hget, fun h => ?_⟩
  obtain ⟨tag, hone⟩ := (h.entries _ _).mp hget
  rw [hnone] at hone
  cases hone

end Fix

end OrderbookFix
