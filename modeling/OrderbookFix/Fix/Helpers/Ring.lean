import OrderbookFix.Fix.Helpers.Evolution
import OrderbookFix.Fix.Helpers.RoundTrip
/-!
# The ring of sent messages

The ring holds the last messages sent, as many as fit, with consecutive
numbers up to `out_seq`; each was built from fields that parse back. The
moves of a call keep it so, as long as the number does not wrap.
-/

namespace OrderbookFix

namespace Fix

namespace Session

/-- **A message kept** parses back to the fields it was built from, among
them its number. -/
structure Kept (soh : Soh) (rec : OutboundRecord) : Prop where
  built : ∃ body, rec.bytes = build soh body ∧ Buildable soh.byte body ∧
    (Tag.msgSeqNum, dec rec.seq) ∈ body ∧ Tag.gapFillFlag ∉ body.map Prod.fst
  time : soh.byte ∉ rec.sendingTime

/-- **What a session writes of its own** is free of the separator. -/
structure Unbroken (s : Session) : Prop where
  sender : s.soh.byte ∉ s.cfg.senderCompId
  target : s.soh.byte ∉ s.cfg.targetCompId
  now : ∀ n, s.soh.byte ∉ s.providers.now n

/-- **The ring of a session.** -/
structure Ring (s : Session) : Prop where
  sender : s.soh.byte ∉ s.cfg.senderCompId
  target : s.soh.byte ∉ s.cfg.targetCompId
  now : ∀ n, s.soh.byte ∉ s.providers.now n
  length : s.history.length = min s.outSeq.toNat s.cfg.outboundHistorySize
  seqs : s.history.map (fun rec => rec.seq.toNat) =
    List.range' (s.outSeq.toNat + 1 - s.history.length) s.history.length
  kept : ∀ rec ∈ s.history, Kept s.soh rec

theorem Ring.unbroken {s : Session} (hr : s.Ring) : s.Unbroken := ⟨hr.sender, hr.target, hr.now⟩

/-! ## Ordinary messages -/

theorem seen_eq_false {body : Body} {t : Int} (h : t ∉ body.map Prod.fst) :
    seen body t = false := by
  rw [seen, List.any_eq_false]
  intro kv hkv he
  exact h (List.mem_map.mpr ⟨kv, hkv, of_decide_eq_true he⟩)

theorem msgTypePos_eq_none {body : Body} (h : Tag.msgType ∉ body.map Prod.fst) :
    msgTypePos body = none := by
  induction body with
  | nil => rfl
  | cons kv body ih =>
    rw [List.map_cons, List.mem_cons, not_or] at h
    rw [msgTypePos, ih h.2]
    exact if_neg fun he => h.1 he.symm

section Plain

variable {s : Session} {mt : Bytes} {rest : Body}

/-- The fields of an ordinary message on the wire. -/
def headed (s : Session) (mt : Bytes) (rest : Body) : Body :=
  [(Tag.msgType, mt), (Tag.senderCompID, s.cfg.senderCompId),
    (Tag.targetCompID, s.cfg.targetCompId), (Tag.msgSeqNum, dec (s.outSeq + 1)),
    (Tag.sendingTime, s.providers.now s.providers.nowCalls)] ++ rest

theorem notMem_of_plain (h : PlainTags (rest.map Prod.fst)) {t : Int} (ht : t ∈ standardTags) :
    t ∉ rest.map Prod.fst := fun hmem => (h.2 t hmem).2.2 ht

/-- An ordinary body has no field of the header but MsgType. -/
theorem seen_of_plain (h : PlainTags (rest.map Prod.fst)) {t : Int} (hne : t ≠ Tag.msgType)
    (ht : t ∈ standardTags) : seen ((Tag.msgType, mt) :: rest) t = false := by
  refine seen_eq_false fun hmem => ?_
  rcases List.mem_cons.mp hmem with he | hmem
  · exact hne he
  · exact notMem_of_plain h ht hmem

theorem wireBody_eq (h : PlainTags (rest.map Prod.fst)) :
    s.wireBody ((Tag.msgType, mt) :: rest) = s.headed mt rest := by
  have hpos : msgTypePos ((Tag.msgType, mt) :: rest) = some 0 := by
    rw [msgTypePos, msgTypePos_eq_none (notMem_of_plain h (by decide))]
    rfl
  rw [wireBody, hpos, seen_of_plain h (by decide) (by decide),
    seen_of_plain h (by decide) (by decide), seen_of_plain h (by decide) (by decide),
    seen_of_plain h (by decide) (by decide)]
  rfl

theorem wireTime_eq (h : PlainTags (rest.map Prod.fst)) :
    s.wireTime ((Tag.msgType, mt) :: rest) = s.providers.now s.providers.nowCalls := by
  rw [wireTime, wireBody_eq h, seen_of_plain h (by decide) (by decide)]
  change (if s.providers.now s.providers.nowCalls = [] then _ else s.providers.now _) = _
  exact ite_self _

theorem outSeq_sent (h : PlainTags (rest.map Prod.fst)) :
    (s.sent ((Tag.msgType, mt) :: rest)).outSeq = s.outSeq + 1 := by
  change (if seen ((Tag.msgType, mt) :: rest) Tag.msgSeqNum = true then _ else _) = _
  rw [seen_of_plain h (by decide) (by decide)]
  rfl

/-- The tags of the header. -/
def headTags : List Int :=
  [Tag.msgType, Tag.senderCompID, Tag.targetCompID, Tag.msgSeqNum, Tag.sendingTime]

theorem tag_headed {kv : Int × Bytes} (h : kv ∈ s.headed mt rest) : kv.1 ∈ headTags ∨ kv ∈ rest := by
  rcases List.mem_append.mp h with h | h
  · exact .inl (List.mem_map_of_mem (f := Prod.fst) h)
  · exact .inr h

/-- An ordinary message parses back. -/
theorem headed_buildable (hu : s.Unbroken) (h : PlainTags (rest.map Prod.fst))
    (hvalues : ∀ v ∈ mt :: rest.map Prod.snd, s.soh.byte ∉ v) :
    Buildable s.soh.byte (s.headed mt rest) where
  tags kv hkv := by
    rcases tag_headed hkv with hkv | hkv
    · exact (by decide : ∀ t ∈ headTags, 0 ≤ t ∧ t < 2 ^ 31) _ hkv
    · have := h.2 kv.1 (List.mem_map_of_mem hkv)
      exact ⟨this.1, this.2.1⟩
  nodup := by
    rw [headed, List.map_append]
    refine List.nodup_append'.mpr ⟨(by decide : headTags.Nodup), h.1, fun t ht hrest => ?_⟩
    exact notMem_of_plain h ((by decide : ∀ t ∈ headTags, t ∈ standardTags) t ht) hrest
  values kv hkv := by
    rcases List.mem_append.mp hkv with hkv | hkv
    · rcases List.mem_cons.mp hkv with rfl | hkv
      · exact hvalues mt (List.mem_cons_self ..)
      rcases List.mem_cons.mp hkv with rfl | hkv
      · exact hu.sender
      rcases List.mem_cons.mp hkv with rfl | hkv
      · exact hu.target
      rcases List.mem_cons.mp hkv with rfl | hkv
      · exact notMem_dec _
      obtain rfl := List.mem_singleton.mp hkv
      exact hu.now _
    · exact hvalues kv.2 (List.mem_cons_of_mem _ (List.mem_map_of_mem hkv))
  reserved kv hkv := by
    rcases tag_headed hkv with hkv | hkv
    · exact (by decide : ∀ t ∈ headTags, t ≠ Tag.beginString ∧ t ≠ Tag.bodyLength ∧
        t ≠ Tag.checkSum) _ hkv
    · have hmem := List.mem_map_of_mem (f := Prod.fst) hkv
      exact ⟨fun he => notMem_of_plain h (by decide) (he ▸ hmem),
        fun he => notMem_of_plain h (by decide) (he ▸ hmem),
        fun he => notMem_of_plain h (by decide) (he ▸ hmem)⟩

/-- **An ordinary message on the wire** parses back to its number and the
fields of its body. -/
theorem wireBody_spec {body : Body} (hr : s.Ring) (hb : Plain s.soh.byte body) :
    Buildable s.soh.byte (s.wireBody body) ∧
      (Tag.msgSeqNum, dec (s.outSeq + 1)) ∈ s.wireBody body ∧ ∀ kv ∈ body, kv ∈ s.wireBody body := by
  obtain ⟨mt, rest, rfl, htags, hvalues⟩ := hb
  rw [wireBody_eq htags]
  refine ⟨headed_buildable hr.unbroken htags hvalues, by simp [headed], fun kv hkv => ?_⟩
  rcases List.mem_cons.mp hkv with rfl | hkv
  · exact List.mem_cons_self ..
  · exact List.mem_append_right _ hkv

end Plain

/-! ## The moves -/

section Moves

variable {s s' : Session}

theorem Ring.of_sameRing (h : SameRing s s') (hr : s.Ring) : s'.Ring where
  sender := by rw [h.soh, h.cfg]; exact hr.sender
  target := by rw [h.soh, h.cfg]; exact hr.target
  now n := by rw [h.soh, h.now]; exact hr.now n
  length := by rw [h.history, h.outSeq, h.cfg]; exact hr.length
  seqs := by rw [h.history, h.outSeq]; exact hr.seqs
  kept rec hrec := by
    rw [h.history] at hrec
    rw [h.soh]
    exact hr.kept rec hrec

theorem Ring.clear (hr : s.Ring) : Ring { s with outSeq := 0, history := [] } where
  sender := hr.sender
  target := hr.target
  now := hr.now
  length := (Nat.zero_min _).symm
  seqs := rfl
  kept _ h := by cases h

theorem Ring.adopt (hr : s.Ring) {target : Bytes} (ht : s.soh.byte ∉ target) :
    Ring { s with cfg := { s.cfg with targetCompId := target } } where
  sender := hr.sender
  target := ht
  now := hr.now
  length := hr.length
  seqs := hr.seqs
  kept := hr.kept

theorem toNat_succ {q : SeqNum} (h : q.toNat + 1 < 2 ^ 64) : (q + 1).toNat = q.toNat + 1 := by
  rw [UInt64.toNat_add]
  exact Nat.mod_eq_of_lt h

/-- The record of an ordinary message. -/
def headedRecord (s : Session) (mt : Bytes) (rest : Body) : OutboundRecord where
  seq := s.outSeq + 1
  sendingTime := s.providers.now s.providers.nowCalls
  bytes := build s.soh (s.headed mt rest)

/-- An ordinary message can be kept. -/
theorem kept_headed (hr : s.Ring) {mt : Bytes} {rest : Body} (htags : PlainTags (rest.map Prod.fst))
    (hvalues : ∀ v ∈ mt :: rest.map Prod.snd, s.soh.byte ∉ v) :
    Kept s.soh (s.headedRecord mt rest) where
  built := by
    refine ⟨s.headed mt rest, rfl, headed_buildable hr.unbroken htags hvalues,
      by simp [headed, headedRecord], fun hmem => ?_⟩
    obtain ⟨kv, hkv, he⟩ := List.mem_map.mp hmem
    rcases tag_headed hkv with hkv | hkv
    · rw [he] at hkv
      exact absurd hkv (by decide)
    · have hrest := List.mem_map_of_mem (f := Prod.fst) hkv
      rw [he] at hrest
      exact notMem_of_plain htags (by decide) hrest
  time := hr.now _

theorem assignedSeq_headed {mt : Bytes} {rest : Body} (htags : PlainTags (rest.map Prod.fst)) :
    s.assignedSeq ((Tag.msgType, mt) :: rest) = s.outSeq + 1 := by
  rw [assignedSeq, seen_of_plain htags (by decide) (by decide)]
  rfl

/-- The ring after an ordinary message. -/
theorem history_sent {mt : Bytes} {rest : Body} (htags : PlainTags (rest.map Prod.fst))
    (hne : s.outSeq + 1 ≠ 0) :
    (s.sent ((Tag.msgType, mt) :: rest)).history =
      if s.cfg.outboundHistorySize > 0 then
        (s.history ++ [s.headedRecord mt rest]).drop
          (s.history.length + 1 - s.cfg.outboundHistorySize)
      else s.history := by
  change s.sentHistory _ = _
  rw [sentHistory, assignedSeq_headed htags, wireTime_eq htags, wireBody_eq htags]
  by_cases hsize : s.cfg.outboundHistorySize > 0
  · rw [if_pos ⟨hne, hsize⟩, if_pos hsize, retainOutbound]
    dsimp only
    rw [List.length_append]
    rfl
  · rw [if_neg fun h => hsize h.2, if_neg hsize]

/-- A message in the ring was there before, or is the one sent. -/
theorem mem_history_headed {mt : Bytes} {rest : Body} (htags : PlainTags (rest.map Prod.fst))
    {rec : OutboundRecord} (h : rec ∈ (s.sent ((Tag.msgType, mt) :: rest)).history) :
    rec ∈ s.history ∨ rec = s.headedRecord mt rest := by
  change rec ∈ s.sentHistory _ at h
  rw [sentHistory, assignedSeq_headed htags, wireTime_eq htags, wireBody_eq htags] at h
  split_ifs at h
  · rcases List.mem_append.mp (List.mem_of_mem_drop h) with hold | hnew
    · exact .inl hold
    · exact .inr (List.mem_singleton.mp hnew)
  · exact .inl h

theorem succ_ne_zero {q : SeqNum} (h : q.toNat + 1 < 2 ^ 64) : q + 1 ≠ 0 := by
  intro h0
  have hnext := toNat_succ h
  rw [h0] at hnext
  cases hnext

/-- **A message sent goes to the end of the ring**, and the oldest falls
out where the ring is full. -/
theorem Ring.sent (hr : s.Ring) {body : Body} (hb : Plain s.soh.byte body)
    (hseq : s.outSeq.toNat + 1 < 2 ^ 64) :
    (s.sent body).Ring ∧ (s.sent body).outSeq.toNat = s.outSeq.toNat + 1 := by
  obtain ⟨mt, rest, rfl, htags, hvalues⟩ := hb
  have hnext := toNat_succ hseq
  have hout := @outSeq_sent s mt rest htags
  have hne := succ_ne_zero hseq
  have hlen := hr.length
  have hhist := @history_sent s mt rest htags hne
  have hcfg : (s.sent ((Tag.msgType, mt) :: rest)).cfg = s.cfg := rfl
  refine ⟨⟨hr.sender, hr.target, hr.now, ?_, ?_, ?_⟩, by rw [hout, hnext]⟩
  · rw [hhist, hout, hnext, hcfg]
    split_ifs with hsize
    · rw [List.length_drop, List.length_append, List.length_singleton]
      omega
    · omega
  · rw [hhist, hout, hnext]
    split_ifs with hsize
    · -- the numbers run on to the new one before the oldest is dropped
      have hrun : List.range' (s.outSeq.toNat + 1 - s.history.length) s.history.length ++
          [s.outSeq.toNat + 1] =
            List.range' (s.outSeq.toNat + 1 - s.history.length) (s.history.length + 1) := by
        rw [List.range'_concat]
        congr 2
        omega
      rw [List.map_drop, List.map_append, hr.seqs, List.map_singleton, headedRecord, hnext, hrun,
        List.drop_range', List.length_drop, List.length_append, List.length_singleton]
      congr 1
      omega
    · have hzero : s.history.length = 0 := by omega
      rw [hr.seqs, hzero]
      rfl
  · intro rec hrec
    rcases mem_history_headed htags hrec with hold | rfl
    · exact hr.kept rec hold
    · exact kept_headed hr htags hvalues

/-- **The ring under a chain of moves.** -/
theorem Evolves.ring {X : Body → Prop} {n : ℕ} (he : Evolves X s n s') (hr : s.Ring)
    (hX : ∀ body, X body → Plain s.soh.byte body) (hseq : s.outSeq.toNat + n < 2 ^ 64) :
    s'.Ring ∧ s'.outSeq.toNat ≤ s.outSeq.toNat + n := by
  induction he with
  | refl => exact ⟨hr, Nat.le_refl _⟩
  | idle _ hs ih =>
    obtain ⟨hring, hle⟩ := ih hseq
    exact ⟨hring.of_sameRing hs, by rw [hs.outSeq]; exact hle⟩
  | send h hb ih =>
    obtain ⟨hring, hle⟩ := ih (by omega)
    have hplain := hb.elim Own.plain fun hx => h.soh_eq ▸ hX _ hx
    obtain ⟨hring', hnext⟩ := hring.sent hplain (by omega)
    exact ⟨hring', by omega⟩
  | clear _ ih =>
    obtain ⟨hring, -⟩ := ih hseq
    exact ⟨hring.clear, Nat.zero_le _⟩
  | adopt _ ht ih =>
    obtain ⟨hring, hle⟩ := ih hseq
    exact ⟨hring.adopt ht, hle⟩

end Moves

end Session

end Fix

end OrderbookFix
