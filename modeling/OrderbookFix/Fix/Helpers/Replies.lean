import OrderbookFix.Fix.Helpers.Ring
/-!
# What the peer reads in an answer

A reply to a ResendRequest is read as the peer would, by parsing it: a
GapFill stands for the numbers up to its NewSeqNo, a replay for its own.
The replay of a message kept is a message that parses, whatever order its
fields were visited in.
-/

namespace OrderbookFix

namespace Fix

/-- **What a reply stands for.** -/
inductive Reply where
  | gapFill (seq newSeqNo : ℕ)
  | replay (seq : ℕ)
  deriving DecidableEq

/-- The numbers a reply covers. -/
def Reply.covers : Reply → List ℕ
  | .gapFill seq newSeqNo => List.range' seq (newSeqNo - seq)
  | .replay seq => [seq]

/-- A number field as the peer reads it. -/
def Message.natField (m : Message) (t : Int) : Option ℕ :=
  (m.get t).bind fun v => (stoull v).toOption.map UInt64.toNat

/-- **Read a reply**: one whole message with PossDupFlag, and a GapFill
or a replay by its fields. -/
def readReply (soh : Soh) (w : WireOut) : Option Reply :=
  match parseOne soh w with
  | .error _ => none
  | .ok r =>
    if r.err = .none ∧ r.consumed = w.length ∧ r.msg.get Tag.possDupFlag = some (ascii "Y") then
      if r.msg.get Tag.gapFillFlag = some (ascii "Y") then
        if r.msg.msgType = MsgType.sequenceReset then
          match r.msg.natField Tag.msgSeqNum, r.msg.natField Tag.newSeqNo with
          | some seq, some newSeqNo => some (.gapFill seq newSeqNo)
          | _, _ => none
        else none
      else (r.msg.natField Tag.msgSeqNum).map .replay
    else none

/-! ## Reading built messages -/

section Built

variable {soh : Soh} {body : Body}

theorem get_of_mem (h : Buildable soh.byte body) {t : Int} {v : Bytes} (hmem : (t, v) ∈ body) :
    (⟨parsedFields soh.byte body⟩ : Message).get t = some v := by
  have hentry := (mem_parsedFields h).mpr
    (List.mem_cons_of_mem _ (List.mem_cons_of_mem _ (List.mem_cons_of_mem _ hmem)))
  exact AList.mem_lookup_iff.mpr hentry

theorem mem_of_get (h : Buildable soh.byte body) {t : Int} {v : Bytes}
    (ht : t ∉ [Tag.checkSum, Tag.beginString, Tag.bodyLength])
    (hget : (⟨parsedFields soh.byte body⟩ : Message).get t = some v) : (t, v) ∈ body := by
  have hentry := (mem_parsedFields h).mp (AList.mem_lookup_iff.mp hget)
  rcases List.mem_cons.mp hentry with he | hentry
  · exact absurd (by rw [(Prod.mk.inj he).1]; decide) ht
  rcases List.mem_cons.mp hentry with he | hentry
  · exact absurd (by rw [(Prod.mk.inj he).1]; decide) ht
  rcases List.mem_cons.mp hentry with he | hentry
  · exact absurd (by rw [(Prod.mk.inj he).1]; decide) ht
  exact hentry

theorem get_of_notMem (h : Buildable soh.byte body) {t : Int} (hmem : t ∉ body.map Prod.fst)
    (ht : t ∉ [Tag.checkSum, Tag.beginString, Tag.bodyLength]) :
    (⟨parsedFields soh.byte body⟩ : Message).get t = none := by
  rcases hget : (⟨parsedFields soh.byte body⟩ : Message).get t with _ | v
  · rfl
  · exact absurd (List.mem_map_of_mem (f := Prod.fst) (mem_of_get h ht hget)) hmem

theorem parsedFields_tags (h : Buildable soh.byte body) {t : Int} {v : Bytes}
    (hentry : ⟨t, v⟩ ∈ (parsedFields soh.byte body).entries) : 0 ≤ t ∧ t < 2 ^ 31 := by
  rcases List.mem_cons.mp ((mem_parsedFields h).mp hentry) with he | hmem
  · rw [(Prod.mk.inj he).1]
    decide
  · exact h.framed.tags (t, v) hmem

theorem parsedFields_values (h : Buildable soh.byte body) {t : Int} {v : Bytes}
    (hentry : ⟨t, v⟩ ∈ (parsedFields soh.byte body).entries) : soh.byte ∉ v := by
  rcases List.mem_cons.mp ((mem_parsedFields h).mp hentry) with he | hmem
  · rw [(Prod.mk.inj he).2]
    exact notMem_formatChecksum (isDigit_soh soh) _
  · exact h.framed.values (t, v) hmem

theorem natField_of_mem (h : Buildable soh.byte body) {t : Int} {n : SeqNum}
    (hmem : (t, dec n) ∈ body) :
    (⟨parsedFields soh.byte body⟩ : Message).natField t = some n.toNat := by
  rw [Message.natField, get_of_mem h hmem, Option.bind_some, stoull_dec]
  rfl

theorem number_of_mem (h : Buildable soh.byte body) {t : Int} {n : SeqNum}
    (hmem : (t, dec n) ∈ body) : Session.number ⟨parsedFields soh.byte body⟩ t = .ok n := by
  rw [Session.number, get_of_mem h hmem]
  exact stoull_dec n

theorem seq_of_mem (h : Buildable soh.byte body) {n : SeqNum}
    (hmem : (Tag.msgSeqNum, dec n) ∈ body) :
    (⟨parsedFields soh.byte body⟩ : Message).seq = .ok n := by
  rw [Message.seq, get_of_mem h hmem]
  exact stoull_dec n

theorem msgType_of_mem (h : Buildable soh.byte body) {mt : Bytes}
    (hmem : (Tag.msgType, mt) ∈ body) :
    (⟨parsedFields soh.byte body⟩ : Message).msgType = mt := by
  rw [Message.msgType, get_of_mem h hmem]
  rfl

theorem parseOne_whole (h : Buildable soh.byte body) (hlen : (build soh body).length < 2 ^ 64) :
    parseOne soh (build soh body) =
      .ok ⟨.none, (build soh body).length, ⟨parsedFields soh.byte body⟩⟩ := by
  have hp := parseOne_build h [] (by rwa [List.append_nil])
  rwa [List.append_nil] at hp

/-- A message built from fields that parse back parses. -/
theorem parses_of_built {w : WireOut} (h : Buildable soh.byte body) (hw : w = build soh body)
    (hlen : w.length < 2 ^ 64) : ∃ r, parseOne soh w = .ok r ∧ r.err = .none := by
  rw [hw] at hlen ⊢
  exact ⟨_, parseOne_whole h hlen, rfl⟩

theorem readReply_replay (h : Buildable soh.byte body) (hlen : (build soh body).length < 2 ^ 64)
    (hdup : (Tag.possDupFlag, ascii "Y") ∈ body) {n : SeqNum}
    (hseq : (Tag.msgSeqNum, dec n) ∈ body) (hgap : Tag.gapFillFlag ∉ body.map Prod.fst) :
    readReply soh (build soh body) = some (.replay n.toNat) := by
  rw [readReply, parseOne_whole h hlen]
  dsimp only
  rw [if_pos ⟨rfl, rfl, get_of_mem h hdup⟩, get_of_notMem h hgap (by decide),
    if_neg (fun he => by cases he), natField_of_mem h hseq]
  rfl

theorem readReply_gapFill (h : Buildable soh.byte body) (hlen : (build soh body).length < 2 ^ 64)
    (hmt : (Tag.msgType, MsgType.sequenceReset) ∈ body)
    (hdup : (Tag.possDupFlag, ascii "Y") ∈ body) (hgap : (Tag.gapFillFlag, ascii "Y") ∈ body)
    {seq newSeqNo : SeqNum} (hseq : (Tag.msgSeqNum, dec seq) ∈ body)
    (hnew : (Tag.newSeqNo, dec newSeqNo) ∈ body) :
    readReply soh (build soh body) = some (.gapFill seq.toNat newSeqNo.toNat) := by
  rw [readReply, parseOne_whole h hlen]
  dsimp only
  rw [if_pos ⟨rfl, rfl, get_of_mem h hdup⟩, if_pos (get_of_mem h hgap), if_pos (msgType_of_mem h hmt),
    natField_of_mem h hseq, natField_of_mem h hnew]

end Built

namespace Session

/-! ## Replays -/

/-- The fields of a replay. -/
def replayBody (s : Session) (rec : OutboundRecord) (m : Message) : Body :=
  (match m.get Tag.msgType with
    | some v => [(Tag.msgType, v)]
    | none => []) ++ ((s.order.visit m.fields).filter fun kv => !skipped kv.1) ++
    [(Tag.sendingTime, s.providers.now s.providers.nowCalls),
      (Tag.origSendingTime, rec.sendingTime), (Tag.possDupFlag, ascii "Y")]

theorem buildReplay_eq (s : Session) (rec : OutboundRecord) (m : Message) :
    s.buildReplay rec m =
      (s.asked (s.providers.nowCalls + 1), build s.soh (s.replayBody rec m)) := rfl

section Replay

variable {s : Session} {rec : OutboundRecord} {m : Message}

/-- The fields copied are those of the message that are not skipped. -/
theorem mem_copied {kv : Int × Bytes} :
    kv ∈ (s.order.visit m.fields).filter (fun kv => !skipped kv.1) ↔
      ⟨kv.1, kv.2⟩ ∈ m.fields.entries ∧ skipped kv.1 = false := by
  rw [List.mem_filter, (s.order.perm m.fields).mem_iff, List.mem_map, Bool.not_eq_true']
  refine and_congr_left fun _ => ⟨?_, fun h => ⟨_, h, rfl⟩⟩
  rintro ⟨e, he, rfl⟩
  exact he

theorem nodup_copied :
    (((s.order.visit m.fields).filter fun kv => !skipped kv.1).map Prod.fst).Nodup := by
  have hkeys : ((s.order.visit m.fields).map Prod.fst).Nodup := by
    rw [((s.order.perm m.fields).map Prod.fst).nodup_iff, List.map_map]
    exact m.fields.nodupKeys
  exact hkeys.sublist (List.filter_sublist.map Prod.fst)

theorem mem_replayBody {kv : Int × Bytes} (h : kv ∈ s.replayBody rec m) :
    (kv.1 = Tag.msgType ∧ ⟨kv.1, kv.2⟩ ∈ m.fields.entries) ∨
      (⟨kv.1, kv.2⟩ ∈ m.fields.entries ∧ skipped kv.1 = false) ∨
      kv ∈ [(Tag.sendingTime, s.providers.now s.providers.nowCalls),
        (Tag.origSendingTime, rec.sendingTime), (Tag.possDupFlag, ascii "Y")] := by
  rcases List.mem_append.mp h with h | h
  · rcases List.mem_append.mp h with h | h
    · refine .inl ?_
      rcases hv : m.get Tag.msgType with _ | v
      · rw [hv] at h
        cases h
      · rw [hv] at h
        obtain rfl := List.mem_singleton.mp h
        exact ⟨rfl, AList.mem_lookup_iff.mp hv⟩
    · exact .inr (.inl (mem_copied.mp h))
  · exact .inr (.inr h)

/-- The replay of a message that parses back is one that parses back. -/
theorem replayBody_buildable {body : Body} (hb : Buildable s.soh.byte body)
    (hnow : ∀ n, s.soh.byte ∉ s.providers.now n) (htime : s.soh.byte ∉ rec.sendingTime) :
    Buildable s.soh.byte (s.replayBody rec ⟨parsedFields s.soh.byte body⟩) where
  tags kv hkv := by
    rcases mem_replayBody hkv with ⟨he, -⟩ | ⟨hentry, -⟩ | hkv
    · rw [he]
      decide
    · exact parsedFields_tags hb hentry
    · exact (by decide : ∀ t ∈ [Tag.sendingTime, Tag.origSendingTime, Tag.possDupFlag],
        0 ≤ t ∧ t < 2 ^ 31) _ (List.mem_map_of_mem (f := Prod.fst) hkv)
  nodup := by
    rw [replayBody, List.append_assoc, List.map_append, List.map_append]
    refine List.nodup_append'.mpr ⟨?_, List.nodup_append'.mpr ⟨nodup_copied,
      (by decide : [Tag.sendingTime, Tag.origSendingTime, Tag.possDupFlag].Nodup), ?_⟩, ?_⟩
    · split <;> simp
    · intro t ht hlast
      obtain ⟨kv, hkv, rfl⟩ := List.mem_map.mp ht
      have hskip := (mem_copied.mp hkv).2
      rw [(by decide : ∀ t ∈ [Tag.sendingTime, Tag.origSendingTime, Tag.possDupFlag],
        skipped t = true) _ hlast] at hskip
      cases hskip
    · intro t ht hlast
      have h35 : t = Tag.msgType := by
        revert ht
        split
        · exact fun h => List.mem_singleton.mp h
        · exact fun h => by cases h
      rcases List.mem_append.mp hlast with hlast | hlast
      · obtain ⟨kv, hkv, he⟩ := List.mem_map.mp hlast
        have hskip := (mem_copied.mp hkv).2
        rw [he, h35] at hskip
        exact absurd hskip (by decide)
      · rw [h35] at hlast
        exact absurd hlast (by decide : Tag.msgType ∉
          [Tag.sendingTime, Tag.origSendingTime, Tag.possDupFlag])
  values kv hkv := by
    rcases mem_replayBody hkv with ⟨-, hentry⟩ | ⟨hentry, -⟩ | hkv
    · exact parsedFields_values hb hentry
    · exact parsedFields_values hb hentry
    · rcases List.mem_cons.mp hkv with rfl | hkv
      · exact hnow _
      rcases List.mem_cons.mp hkv with rfl | hkv
      · exact htime
      obtain rfl := List.mem_singleton.mp hkv
      cases s.soh <;> decide
  reserved kv hkv := by
    rcases mem_replayBody hkv with ⟨he, -⟩ | ⟨-, hskip⟩ | hkv
    · rw [he]
      decide
    · refine ⟨?_, ?_, ?_⟩ <;>
      · intro he
        rw [he] at hskip
        exact absurd hskip (by decide)
    · exact (by decide : ∀ t ∈ [Tag.sendingTime, Tag.origSendingTime, Tag.possDupFlag],
        t ≠ Tag.beginString ∧ t ≠ Tag.bodyLength ∧ t ≠ Tag.checkSum) _
        (List.mem_map_of_mem (f := Prod.fst) hkv)

theorem seq_mem_replayBody {body : Body} {v : Bytes} (hb : Buildable s.soh.byte body)
    (hseq : (Tag.msgSeqNum, v) ∈ body) :
    (Tag.msgSeqNum, v) ∈ s.replayBody rec ⟨parsedFields s.soh.byte body⟩ := by
  have hentry := (mem_parsedFields hb).mpr
    (List.mem_cons_of_mem _ (List.mem_cons_of_mem _ (List.mem_cons_of_mem _ hseq)))
  refine List.mem_append_left _ (List.mem_append_right _ (mem_copied.mpr ⟨hentry, ?_⟩))
  exact (by decide : skipped Tag.msgSeqNum = false)

/-- A replay of a message kept. -/
def ReplayOf (s : Session) (rec : OutboundRecord) (w : WireOut) : Prop :=
  ∃ pr n, parseOne s.soh rec.bytes = .ok pr ∧ pr.err = .none ∧
    w = ((s.asked n).buildReplay rec pr.msg).2

theorem Kept.parses {soh : Soh} (hk : Kept soh rec) (hfit : rec.bytes.length < 2 ^ 64) :
    ∃ r, parseOne soh rec.bytes = .ok r ∧ r.err = .none := by
  obtain ⟨⟨body, hbytes, hb, -⟩, -⟩ := hk
  exact parses_of_built hb hbytes hfit

/-- **The replay of a message kept** is read as a replay of its number. -/
theorem ReplayOf.reads {w : WireOut} (h : s.ReplayOf rec w) (hk : Kept s.soh rec)
    (hnow : ∀ n, s.soh.byte ∉ s.providers.now n) (hfit : rec.bytes.length < 2 ^ 64)
    (hlen : w.length < 2 ^ 64) : readReply s.soh w = some (.replay rec.seq.toNat) := by
  obtain ⟨pr, n, hp, -, rfl⟩ := h
  obtain ⟨⟨body, hbytes, hb, hseq, hgap⟩, htime⟩ := hk
  rw [hbytes] at hp hfit
  obtain rfl := Except.ok.inj (hp.symm.trans (parseOne_whole hb hfit))
  rw [buildReplay_eq] at hlen ⊢
  refine readReply_replay (replayBody_buildable (s := s.asked n) hb hnow htime) hlen ?_
    (seq_mem_replayBody (s := s.asked n) hb hseq) ?_
  · exact List.mem_append_right _ (by simp)
  · intro hmem
    obtain ⟨⟨t, v⟩, hkv, rfl⟩ := List.mem_map.mp hmem
    rcases mem_replayBody hkv with ⟨he, -⟩ | ⟨hentry, -⟩ | hlast
    · exact absurd he (by decide : ¬ Tag.gapFillFlag = Tag.msgType)
    · have hmem := mem_of_get (t := Tag.gapFillFlag) hb (by decide)
        (AList.mem_lookup_iff.mpr hentry)
      exact hgap (List.mem_map_of_mem (f := Prod.fst) hmem)
    · exact absurd (List.mem_map_of_mem (f := Prod.fst) hlast) (by decide : Tag.gapFillFlag ∉
        [Tag.sendingTime, Tag.origSendingTime, Tag.possDupFlag])

end Replay

/-- The messages a walk comes to: those in the range before the first
that is past it. -/
def inRange (cursor stop : SeqNum) (recs : List OutboundRecord) : List OutboundRecord :=
  (recs.takeWhile fun rec => rec.seq < cursor ∨ rec.seq ≤ stop).filter fun rec => cursor ≤ rec.seq

/-- Whether a message kept parses. -/
def readable (soh : Soh) (rec : OutboundRecord) : Bool :=
  passes (fun pr => decide (pr.err = .none)) (parseOne soh rec.bytes)

theorem readable_iff {soh : Soh} {rec : OutboundRecord} :
    readable soh rec = true ↔ ∃ pr, parseOne soh rec.bytes = .ok pr ∧ pr.err = .none := by
  simp only [readable, passes_iff, decide_eq_true_eq]

theorem inRange_sublist (cursor stop : SeqNum) (recs : List OutboundRecord) :
    (inRange cursor stop recs).Sublist recs :=
  List.filter_sublist.trans (List.takeWhile_sublist _)

theorem le_of_mem_inRange {cursor stop : SeqNum} {recs : List OutboundRecord}
    {rec : OutboundRecord} (h : rec ∈ inRange cursor stop recs) : cursor ≤ rec.seq :=
  of_decide_eq_true (List.mem_filter.mp h).2

/-- Where the numbers ascend, the walk comes to all that are in the
range. -/
theorem inRange_eq_filter {cursor stop : SeqNum} {recs : List OutboundRecord}
    (hasc : (recs.map fun rec => rec.seq.toNat).Pairwise (· < ·)) :
    inRange cursor stop recs =
      recs.filter fun rec => cursor.toNat ≤ rec.seq.toNat ∧ rec.seq.toNat ≤ stop.toNat := by
  induction recs with
  | nil => rfl
  | cons rec recs ih =>
    obtain ⟨hlater, hasc⟩ := List.pairwise_cons.mp hasc
    have hrest := ih hasc
    rw [inRange] at hrest
    rw [inRange, List.takeWhile_cons, List.filter_cons]
    by_cases hlow : rec.seq < cursor
    · have hlow' := UInt64.lt_iff_toNat_lt.mp hlow
      rw [if_pos (decide_eq_true (.inl hlow)), if_neg (by rw [decide_eq_true_eq]; omega),
        List.filter_cons_of_neg (by rw [decide_eq_true_eq]; exact UInt64.not_le.mpr hlow), hrest]
    have hlow' := UInt64.le_iff_toNat_le.mp (UInt64.not_lt.mp hlow)
    by_cases hhigh : rec.seq ≤ stop
    · have hhigh' := UInt64.le_iff_toNat_le.mp hhigh
      rw [if_pos (decide_eq_true (.inr hhigh)), if_pos (by rw [decide_eq_true_eq]; omega),
        List.filter_cons_of_pos (by rw [decide_eq_true_eq]; exact UInt64.not_lt.mp hlow), hrest]
    · have hhigh' := UInt64.lt_iff_toNat_lt.mp (UInt64.not_le.mp hhigh)
      rw [if_neg (by rw [decide_eq_true_eq]; tauto), if_neg (by rw [decide_eq_true_eq]; omega)]
      refine (List.filter_eq_nil_iff.mpr fun rec' hrec' => ?_).symm
      have hlt : rec.seq.toNat < rec'.seq.toNat := hlater _ (List.mem_map_of_mem hrec')
      rw [decide_eq_true_eq]
      omega

/-- **What the walk over the ring sends**: replays of the messages it
comes to that parse. -/
theorem replay_replays {cursor stop : SeqNum} {recs : List OutboundRecord} {s s' : Session}
    {ws : List WireOut} (h : replay cursor stop recs s = .ok (s', ws)) :
    List.Forall₂ (ReplayOf s) ((inRange cursor stop recs).filter (readable s.soh)) ws := by
  induction recs generalizing s ws with
  | nil =>
    obtain ⟨-, rfl⟩ := Prod.mk.inj (Except.ok.inj h)
    exact .nil
  | cons rec recs ih =>
    rw [replay] at h
    rw [inRange, List.takeWhile_cons]
    by_cases hlow : rec.seq < cursor
    · rw [if_pos hlow] at h
      rw [if_pos (decide_eq_true (.inl hlow)),
        List.filter_cons_of_neg (by rw [decide_eq_true_eq]; exact UInt64.not_le.mpr hlow)]
      exact ih h
    rw [if_neg hlow] at h
    -- The loop breaks here, so a record behind one past the range is never looked at.
    by_cases hhigh : rec.seq > stop
    · have hstop : ¬ (rec.seq < cursor ∨ rec.seq ≤ stop) :=
        not_or.mpr ⟨hlow, UInt64.not_le.mpr hhigh⟩
      rw [if_pos hhigh] at h
      obtain ⟨-, rfl⟩ := Prod.mk.inj (Except.ok.inj h)
      rw [if_neg (by rw [decide_eq_true_eq]; exact hstop)]
      exact .nil
    rw [if_neg hhigh] at h
    rw [if_pos (decide_eq_true (.inr (UInt64.not_lt.mp hhigh))),
      List.filter_cons_of_pos (by rw [decide_eq_true_eq]; exact UInt64.not_lt.mp hlow),
      List.filter_cons]
    rcases hp : parseOne s.soh rec.bytes with e | pr
    · rw [hp] at h
      cases h
    rw [hp] at h
    dsimp only at h
    by_cases herr : pr.err = .none
    · rw [if_neg (not_not.mpr herr)] at h
      rw [if_pos (readable_iff.mpr ⟨pr, hp, herr⟩)]
      rcases hr : replay cursor stop recs (s.buildReplay rec pr.msg).1 with e | ⟨s₁, ws₁⟩
      · rw [hr] at h
        cases h
      · rw [hr] at h
        obtain ⟨rfl, rfl⟩ := Prod.mk.inj (Except.ok.inj h)
        have hrest := ih hr
        exact .cons ⟨pr, s.providers.nowCalls, hp, herr, rfl⟩ hrest
    -- A record that no longer parses is passed over.
    · have hnot : ¬ readable s.soh rec = true := by
        intro hl
        obtain ⟨pr', hp', herr'⟩ := readable_iff.mp hl
        obtain rfl := Except.ok.inj (hp.symm.trans hp')
        exact herr herr'
      rw [if_pos herr] at h
      rw [if_neg hnot]
      exact ih h

/-- The walk returns where parsing the messages of the ring does. -/
theorem replay_returns {cursor stop : SeqNum} {recs : List OutboundRecord} {s : Session}
    (hparse : ∀ rec ∈ recs, ∃ pr, parseOne s.soh rec.bytes = .ok pr) :
    ∃ s' ws, replay cursor stop recs s = .ok (s', ws) := by
  induction recs generalizing s with
  | nil => exact ⟨s, [], rfl⟩
  | cons rec recs ih =>
    obtain ⟨⟨pr, hp⟩, hparse⟩ := List.forall_mem_cons.mp hparse
    rw [replay]
    split_ifs
    · exact ih hparse
    · exact ⟨s, [], rfl⟩
    · rw [hp]
      dsimp only
      split_ifs
      · exact ih hparse
      · obtain ⟨s', ws, hreplay⟩ := @ih (s.buildReplay rec pr.msg).1 hparse
        rw [hreplay]
        exact ⟨s', _, rfl⟩

theorem filter_readable {soh : Soh} {recs : List OutboundRecord}
    (h : ∀ rec ∈ recs, ∃ pr, parseOne soh rec.bytes = .ok pr ∧ pr.err = .none) :
    recs.filter (readable soh) = recs :=
  List.filter_eq_self.mpr fun rec hrec => readable_iff.mpr (h rec hrec)

/-- One relation between two lists from another, along the lists. -/
theorem forall₂_imp_mem {α β : Type*} {R S : α → β → Prop} {as : List α} {bs : List β}
    (h : List.Forall₂ R as bs) (himp : ∀ a ∈ as, ∀ b ∈ bs, R a b → S a b) :
    List.Forall₂ S as bs := by
  induction h with
  | nil => exact .nil
  | cons hab hrest ih =>
    exact .cons (himp _ (List.mem_cons_self ..) _ (List.mem_cons_self ..) hab)
      (ih fun a ha b hb => himp a (List.mem_cons_of_mem _ ha) b (List.mem_cons_of_mem _ hb))

/-- Messages that are each read as one of a list. -/
theorem map_eq_of_forall₂ {α β γ : Type*} {R : α → β → Prop} {f : β → γ} {g : α → γ}
    {as : List α} {bs : List β} (h : List.Forall₂ R as bs)
    (hfg : ∀ a ∈ as, ∀ b ∈ bs, R a b → f b = g a) : bs.map f = as.map g := by
  have heq : List.Forall₂ (fun a b => g a = f b) as bs :=
    forall₂_imp_mem h fun a ha b hb hab => (hfg a ha b hb hab).symm
  have hmap := List.forall₂_map_left_iff.mpr (List.forall₂_map_right_iff.mpr heq)
  rw [List.forall₂_eq_eq_eq] at hmap
  exact hmap.symm

end Session

end Fix

end OrderbookFix
