import OrderbookFix.Common.Run
import OrderbookFix.Fix.Helpers.Answer
import OrderbookFix.Fix.Helpers.Exchange
import OrderbookFix.Net.Helpers.Bodies
/-!
# Answers to ResendRequests

The reply to a ResendRequest for `[b, e]` tiles what was sent of it: one
GapFill for what the ring no longer holds, if anything, and then the
replays, every number once and in order. That takes a ring whose messages
parse back, so nothing the session writes may hold the separator: the
configured CompIDs, the text of a Logout, the fields of a report.
-/

namespace OrderbookFix

namespace Fix

/-- **Replies that tile `[b, e]`**: at most one GapFill, before the
replays, and every number covered once, in order. -/
structure Answers (b e : ℕ) (replies : List Reply) : Prop where
  shape : ∃ (gap : Option (ℕ × ℕ)) (seqs : List ℕ),
    replies = (gap.toList.map fun g => .gapFill g.1 g.2) ++ seqs.map .replay
  covers : replies.flatMap Reply.covers = List.range' b (e + 1 - b)

theorem flatMap_covers_replay (seqs : List ℕ) :
    (seqs.map Reply.replay).flatMap Reply.covers = seqs := by
  induction seqs with
  | nil => rfl
  | cons q seqs ih => rw [List.map_cons, List.flatMap_cons, ih]; rfl

theorem Answers.replays (b e : ℕ) : Answers b e ((List.range' b (e + 1 - b)).map .replay) where
  shape := ⟨none, _, rfl⟩
  covers := flatMap_covers_replay _

theorem Answers.gapFill {b k e : ℕ} (hb : b ≤ k) (hk : k ≤ e + 1) :
    Answers b e (.gapFill b k :: (List.range' k (e + 1 - k)).map .replay) where
  shape := ⟨some (b, k), _, rfl⟩
  covers := by
    rw [List.flatMap_cons, flatMap_covers_replay, Reply.covers]
    have hsum : e + 1 - b = (k - b) + (e + 1 - k) := by omega
    have hstart : k = b + (k - b) := by omega
    rw [hsum, ← List.range'_append_1, ← hstart]

/-- A range, cut to another. -/
theorem filter_range' (a n c e : ℕ) :
    (List.range' a n).filter (fun q => c ≤ q ∧ q ≤ e) =
      List.range' (max a c) (min (e + 1) (a + n) - max a c) := by
  induction n generalizing a with
  | zero =>
    have hzero : min (e + 1) (a + 0) - max a c = 0 := by omega
    rw [hzero]
    rfl
  | succ n ih =>
    rw [List.range'_succ, List.filter_cons, ih]
    by_cases hlow : a < c
    · rw [if_neg (by rw [decide_eq_true_eq]; omega)]
      congr 1 <;> omega
    by_cases hhigh : e < a
    · rw [if_neg (by rw [decide_eq_true_eq]; omega)]
      have h1 : min (e + 1) (a + 1 + n) - max (a + 1) c = 0 := by omega
      have h2 : min (e + 1) (a + (n + 1)) - max a c = 0 := by omega
      rw [h1, h2]
      rfl
    · rw [if_pos (by rw [decide_eq_true_eq]; omega)]
      have hmax : max a c = a := by omega
      have hmax' : max (a + 1) c = a + 1 := by omega
      have hcount : min (e + 1) (a + (n + 1)) - a = min (e + 1) (a + 1 + n) - (a + 1) + 1 := by
        omega
      rw [hmax, hmax', hcount, List.range'_succ]

namespace Session

section Answer

variable {s : Session}

/-- The first number the ring holds, or the next to be sent. -/
theorem Ring.oldest (hr : s.Ring) (hseq : s.outSeq.toNat + 1 < 2 ^ 64) :
    s.oldestRetained.toNat = s.outSeq.toNat + 1 - s.history.length := by
  have hseqs := hr.seqs
  rw [oldestRetained]
  rcases hh : s.history with _ | ⟨rec, recs⟩
  · exact toNat_succ hseq
  · rw [hh, List.length_cons, List.range'_succ, List.map_cons] at hseqs
    exact (List.cons.inj hseqs).1

theorem Ring.ascending (hr : s.Ring) : s.Ascending := by
  rw [Ascending, hr.seqs]
  exact List.pairwise_lt_range'

/-- **The numbers of the messages due**: those of the range, from the
first the ring holds. -/
theorem Ring.seqs_due (hr : s.Ring) (hseq : s.outSeq.toNat + 1 < 2 ^ 64) {start stop : SeqNum}
    (hasked : ¬ s.Unasked start stop) :
    (s.replaysDue start stop).map (fun rec => rec.seq.toNat) =
      List.range' (max s.oldestRetained.toNat start.toNat)
        (min (s.lastWanted stop).toNat s.outSeq.toNat + 1 -
          max s.oldestRetained.toNat start.toNat) := by
  have hlen := hr.length
  have hfilter := filter_range' (s.outSeq.toNat + 1 - s.history.length) s.history.length
    start.toNat (s.lastWanted stop).toNat
  rw [← hr.seqs, List.filter_map] at hfilter
  rw [replaysDue_eq_filter hr.ascending hasked, hr.oldest hseq]
  refine hfilter.trans ?_
  rw [← Nat.add_min_add_right, Nat.sub_add_cancel (by omega)]

/-- The fields of a GapFill. -/
def gapFillBody (s : Session) (start newSeqNo : SeqNum) : Body :=
  [(Tag.msgType, MsgType.sequenceReset), (Tag.senderCompID, s.cfg.senderCompId),
    (Tag.targetCompID, s.cfg.targetCompId), (Tag.msgSeqNum, dec start),
    (Tag.sendingTime, s.providers.now s.providers.nowCalls), (Tag.gapFillFlag, ascii "Y"),
    (Tag.possDupFlag, ascii "Y"), (Tag.newSeqNo, dec newSeqNo)]

theorem gapFillBody_buildable (hr : s.Ring) (start newSeqNo : SeqNum) :
    Buildable s.soh.byte (s.gapFillBody start newSeqNo) := by
  have hy : s.soh.byte ∉ ascii "Y" := by cases s.soh <;> decide
  refine buildable_of_tags (by decide : BuildableTags [Tag.msgType, Tag.senderCompID,
    Tag.targetCompID, Tag.msgSeqNum, Tag.sendingTime, Tag.gapFillFlag, Tag.possDupFlag,
    Tag.newSeqNo]) ?_
  simp only [gapFillBody, List.map_cons, List.map_nil, List.forall_mem_cons]
  exact ⟨by cases s.soh <;> decide, hr.sender, hr.target, notMem_dec _, hr.now _, hy, hy,
    notMem_dec _, fun _ h => (by cases h)⟩

/-- A GapFill is read as one. -/
theorem readReply_buildGapFill (hr : s.Ring) {start newSeqNo : SeqNum}
    (hlen : (s.buildGapFill start newSeqNo).2.length < 2 ^ 64) :
    readReply s.soh (s.buildGapFill start newSeqNo).2 =
      some (.gapFill start.toNat newSeqNo.toNat) := by
  refine readReply_gapFill (gapFillBody_buildable hr start newSeqNo) hlen ?_ ?_ ?_ ?_ ?_ <;>
    simp [gapFillBody]

/-- The last number a ResendRequest is answered for. -/
def answered (s : Session) (stop : SeqNum) : ℕ :=
  if stop = 0 then s.outSeq.toNat else min stop.toNat s.outSeq.toNat

theorem answered_eq (s : Session) (stop : SeqNum) :
    s.answered stop = min (s.lastWanted stop).toNat s.outSeq.toNat := by
  rw [answered, lastWanted]
  split_ifs
  · exact (Nat.min_self _).symm
  · rfl

/-- A range that is answered has numbers that were sent. -/
theorem unasked_iff {start stop : SeqNum} :
    s.Unasked start stop ↔ ¬ (1 ≤ start.toNat ∧ start.toNat ≤ s.answered stop) := by
  rw [Unasked, answered_eq, gt_iff_lt, gt_iff_lt, UInt64.lt_iff_toNat_lt, UInt64.lt_iff_toNat_lt,
    ← UInt64.toNat_inj]
  change start.toNat = 0 ∨ _ ↔ _
  omega

/-- The replays are read as their numbers. -/
theorem map_readReply_replays (hr : s.Ring) (hfit : ∀ rec ∈ s.history, rec.bytes.length < 2 ^ 64)
    {recs : List OutboundRecord} {ws : List WireOut} (hsub : ∀ rec ∈ recs, rec ∈ s.history)
    (h : List.Forall₂ (ReplayOf s) recs ws) (hlens : ∀ w ∈ ws, w.length < 2 ^ 64) :
    ws.map (readReply s.soh) =
      ((recs.map fun rec => rec.seq.toNat).map Reply.replay).map some := by
  rw [List.map_map, List.map_map]
  exact map_eq_of_forall₂ h fun rec hrec w hw hof =>
    hof.reads (hr.kept rec (hsub rec hrec)) hr.now (hfit rec (hsub rec hrec)) (hlens w hw)

/-- **A ResendRequest is answered in full**: replies that tile the range
where there is one, else nothing. -/
theorem handleResendRequest_answers (hr : s.Ring) (hseq : s.outSeq.toNat + 1 < 2 ^ 64)
    (hfit : ∀ rec ∈ s.history, rec.bytes.length < 2 ^ 64) {start stop : SeqNum}
    (hstop : stop.toNat + 1 < 2 ^ 64) :
    ∃ s' ws, s.handleResendRequest start stop = .ok (s', ws) ∧
      (¬ (1 ≤ start.toNat ∧ start.toNat ≤ s.answered stop) → ws = []) ∧
      (1 ≤ start.toNat ∧ start.toNat ≤ s.answered stop → (∀ w ∈ ws, w.length < 2 ^ 64) →
        ∃ replies, ws.map (readReply s.soh) = replies.map some ∧
          Answers start.toNat (s.answered stop) replies) := by
  have hlen := hr.length
  have hold := hr.oldest hseq
  have hanswered := s.answered_eq stop
  have hlast : (s.lastWanted stop).toNat + 1 < 2 ^ 64 := by
    rw [lastWanted]
    split_ifs
    · exact hseq
    · exact hstop
  have hnew := s.toNat_newSeqNo stop
  rw [Nat.mod_eq_of_lt hlast] at hnew
  obtain ⟨s', ws, h, hws⟩ := @handleResendRequest_due s start stop fun rec hrec =>
    (hr.kept rec hrec).parses (hfit rec hrec)
  refine ⟨s', _, h, fun hnone => ?_, fun hrange hlens => ?_⟩
  · have hnone := unasked_iff.mpr hnone
    rw [replaysDue, if_pos hnone, List.forall₂_nil_left_iff] at hws
    rw [gapDue, if_pos hnone, hws]
    rfl
  have hasked : ¬ s.Unasked start stop := fun hnone => unasked_iff.mp hnone hrange
  obtain ⟨hgaps, hlens⟩ := List.forall_mem_append.mp hlens
  have hread := map_readReply_replays hr hfit (fun _ h => replaysDue_sublist.subset h) hws hlens
  rw [hr.seqs_due hseq hasked, ← hanswered] at hread
  rw [gapDue, if_neg hasked] at hgaps ⊢
  by_cases hgap : start < s.oldestRetained
  · have hgap' := UInt64.lt_iff_toNat_lt.mp hgap
    rw [if_pos hgap] at hgaps ⊢
    have hfill := readReply_buildGapFill hr (hgaps _ (List.mem_singleton_self _))
    -- the replays start where the GapFill leads to, if there are any
    have hfrom : List.range' (max s.oldestRetained.toNat start.toNat)
        (s.answered stop + 1 - max s.oldestRetained.toNat start.toNat) =
        List.range' (min s.oldestRetained (s.lastWanted stop + 1)).toNat
          (s.answered stop + 1 - (min s.oldestRetained (s.lastWanted stop + 1)).toNat) := by
      rcases Nat.lt_or_ge (s.answered stop) s.oldestRetained.toNat with hall | hsome
      · rw [Nat.sub_eq_zero_of_le (by omega), Nat.sub_eq_zero_of_le (by omega)]
        rfl
      · exact congrArg₂ (fun a n => List.range' a n) (by omega) (by omega)
    rw [hfrom] at hread
    refine ⟨_, ?_, Answers.gapFill (b := start.toNat)
      (k := (min s.oldestRetained (s.lastWanted stop + 1)).toNat) (by omega) (by omega)⟩
    exact congrArg₂ List.cons hfill hread
  · have hgap' := UInt64.le_iff_toNat_le.mp (UInt64.not_lt.mp hgap)
    rw [if_neg hgap]
    rw [Nat.max_eq_right hgap'] at hread
    exact ⟨_, hread, Answers.replays _ _⟩

end Answer

/-! ## Runs -/

/-- **The calls that write no separator**: a report has fields of its own
only, and neither they nor the text of a Logout hold it. -/
def Allowed (soh : Soh) : Call → Prop
  | .sendExecutionReport body =>
    PlainTags (body.map Prod.fst) ∧ ∀ v ∈ body.map Prod.snd, soh.byte ∉ v
  | .sendLogout text => soh.byte ∉ text
  | _ => True

instance (soh : Soh) (c : Call) : Decidable (Allowed soh c) :=
  match c with
  | .sendExecutionReport _ => inferInstanceAs (Decidable (_ ∧ _))
  | .sendLogout _ => inferInstanceAs (Decidable (_ ∉ _))
  | .initiateLogon => inferInstanceAs (Decidable True)
  | .onBytes _ => inferInstanceAs (Decidable True)
  | .sendHeartbeat => inferInstanceAs (Decidable True)
  | .resetSeq => inferInstanceAs (Decidable True)
  | .tick _ => inferInstanceAs (Decidable True)

/-- The report a session is given by a call. -/
def Call.report : Call → Option Body
  | .sendExecutionReport body => some body
  | _ => none

theorem plain_report_values {soh : Soh} {body : Body}
    (h : Allowed soh (.sendExecutionReport body)) :
    ∀ v ∈ MsgType.executionReport :: body.map Prod.snd, soh.byte ∉ v :=
  List.forall_mem_cons.mpr ⟨by cases soh <;> decide, h.2⟩

/-- A report of such fields is an ordinary message. -/
theorem plain_report {soh : Soh} {body : Body} (h : Allowed soh (.sendExecutionReport body)) :
    Plain soh.byte ((Tag.msgType, MsgType.executionReport) :: body) :=
  ⟨_, _, rfl, h.1, plain_report_values h⟩

theorem makeSession_ring {cfg : SessionConfig} {soh : Soh} {order : FieldOrder} {now : ℕ → Bytes}
    {clock : ℕ → Int} (hsender : soh.byte ∉ cfg.senderCompId)
    (htarget : soh.byte ∉ cfg.targetCompId) (hnow : ∀ n, soh.byte ∉ now n) :
    (makeSession cfg soh order now clock).Ring where
  sender := hsender
  target := htarget
  now := hnow
  length := (Nat.zero_min _).symm
  seqs := rfl
  kept _ h := by cases h

/-- **An allowed call is a chain of moves**, unless it resets. -/
theorem Allowed.evolves {s s' : Session} {c : Call} {outs : List SessionStep}
    (hc : Allowed s.soh c) (hreset : c ≠ .resetSeq) (h : s.perform c = .ok (s', outs)) :
    ∃ n ≤ s.room c, Evolves (Plain s.soh.byte) s n s' := by
  refine perform_evolves h hreset (fun body he => ?_) fun text he => ?_
  · subst he
    exact plain_report hc
  · subst he
    exact (Own.logout hc).plain

/-- A call keeps the ring, and counts no further than it has room for. -/
theorem perform_ring {s s' : Session} {c : Call} {outs : List SessionStep} (hr : s.Ring)
    (hc : c ≠ .resetSeq ∧ Allowed s.soh c) (hroom : s.outSeq.toNat + s.room c < 2 ^ 64 - 1)
    (h : s.perform c = .ok (s', outs)) :
    s'.Ring ∧ s'.soh = s.soh ∧ s'.outSeq.toNat < 2 ^ 64 - 1 := by
  obtain ⟨n, hn, he⟩ := hc.2.evolves hc.1 h
  obtain ⟨hring, hle⟩ := he.ring hr (fun _ => id) (by omega)
  exact ⟨hring, he.soh_eq, by omega⟩

/-- **The ring after a run.** -/
theorem run_ring {s s' : Session} {calls : List Call} {outs : List SessionStep} (hr : s.Ring)
    (hseq : s.outSeq.toNat < 2 ^ 64 - 1)
    (hcalls : ∀ c ∈ calls, c ≠ .resetSeq ∧ Allowed s.soh c)
    (hroom : Guarded perform (fun s c => s.outSeq.toNat + s.room c < 2 ^ 64 - 1) s calls)
    (hrun : run perform s calls = .ok (s', outs)) :
    s'.Ring ∧ s'.soh = s.soh ∧ s'.outSeq.toNat < 2 ^ 64 - 1 := by
  refine (hroom.and_forall hcalls).preserves
    (J := fun s₁ => s₁.Ring ∧ s₁.soh = s.soh ∧ s₁.outSeq.toNat < 2 ^ 64 - 1)
    (fun s₁ c s₂ outs hJ hok hp => ?_) ⟨hr, rfl, hseq⟩ hrun
  obtain ⟨hring, hsoh, hlt⟩ := perform_ring hJ.1 (hJ.2.1 ▸ hok.2) hok.1 hp
  exact ⟨hring, hsoh.trans hJ.2.1, hlt⟩

/-- **A ResendRequest is answered in full**, in every session that calls
reach: what was sent of the range asked for is tiled by the replies, and
the session is left as it was. The strings fit strings. -/
theorem resendRequest_tiled (cfg : SessionConfig) (soh : Soh) (order : FieldOrder)
    (now : ℕ → Bytes) (clock : ℕ → Int) (calls : List Call) (s : Session)
    (outs : List SessionStep) (m : Message) (b e : SeqNum)
    (hsender : soh.byte ∉ cfg.senderCompId) (htarget : soh.byte ∉ cfg.targetCompId)
    (hnow : ∀ n, soh.byte ∉ now n) (hcalls : ∀ c ∈ calls, c ≠ .resetSeq ∧ Allowed soh c)
    (hroom : Guarded perform (fun s c => s.outSeq.toNat + s.room c < 2 ^ 64 - 1)
      (makeSession cfg soh order now clock) calls)
    (hrun : run perform (makeSession cfg soh order now clock) calls = .ok (s, outs))
    (hfit : ∀ rec ∈ s.history, rec.bytes.length < 2 ^ 64) (hstate : s.state ≠ .disconnected)
    (hmt : m.msgType = MsgType.resendRequest) (hseq : m.seq = .ok (s.inSeq + 1))
    (hb : number m Tag.beginSeqNo = .ok b) (he : number m Tag.endSeqNo = .ok e)
    (hend : e.toNat < 2 ^ 64 - 1) :
    ∃ s' ws, s.handleMessage m = .ok (s', { out := ws }) ∧
      (s'.outSeq = s.outSeq ∧ s'.history = s.history ∧ s'.state = s.state) ∧
      (¬ (1 ≤ b.toNat ∧ b.toNat ≤ s.answered e) → ws = []) ∧
      (1 ≤ b.toNat ∧ b.toNat ≤ s.answered e → (∀ w ∈ ws, w.length < 2 ^ 64) →
        ∃ replies, ws.map (readReply soh) = replies.map some ∧
          Answers b.toNat (s.answered e) replies) := by
  obtain ⟨hring, hsoh, hlt⟩ := run_ring (makeSession_ring hsender htarget hnow)
    (by decide : (0 : SeqNum).toNat < 2 ^ 64 - 1) hcalls hroom hrun
  -- the request itself is counted before it is answered
  have hring' : Ring { s with inSeq := s.inSeq + 1 } :=
    Ring.of_sameRing (s := s) ⟨rfl, rfl, rfl, rfl, rfl⟩ hring
  obtain ⟨s', ws, hres, hnone, hsome⟩ := @handleResendRequest_answers
    { s with inSeq := s.inSeq + 1 } hring' (by change s.outSeq.toNat + 1 < _; omega) hfit b e
    (by omega)
  obtain ⟨n, rfl⟩ := handleResendRequest_asked hres
  have hsoh' : s.soh = soh := hsoh
  refine ⟨asked { s with inSeq := s.inSeq + 1 } n, ws, ?_, ⟨rfl, rfl, rfl⟩, hnone,
    hsoh' ▸ hsome⟩
  rw [handleMessage_next hstate hseq]
  exact dispatch_resend hmt hb he hres

/-- A ResendRequest with number 2 for all from `b` on. -/
def testResend (b : String) : Message :=
  ⟨addFields ∅ [(Tag.msgType, MsgType.resendRequest), (Tag.msgSeqNum, ascii "2"),
    (Tag.beginSeqNo, ascii b), (Tag.endSeqNo, ascii "0")]⟩

/-- A ring of two after three messages: a GapFill for the first and the
other two replayed. -/
theorem resendRequest_tiled_ring_of_two :
    ∃ s outs s' ws replies,
      run perform (makeSession { testSession.cfg with outboundHistorySize := 2 } .text .stored
        testSession.providers.now testSession.providers.clock)
        [.onBytes logonBytes, .sendExecutionReport (Net.execReportForAck ⟨7, ⟨ascii "X"⟩⟩ 7),
          .sendHeartbeat] = .ok (s, outs) ∧
      s.handleMessage (testResend "1") = .ok (s', { out := ws }) ∧
      ws.map (readReply .text) = replies.map some ∧ Answers 1 3 replies := by
  obtain ⟨s, outs, hrun, hcheck⟩ := @exists_of_run_check _ _ _ _ perform
    (fun r => decide ((∀ rec ∈ r.1.history, rec.bytes.length < 2 ^ 64) ∧
      r.1.state = .loggedIn ∧ r.1.inSeq = 1 ∧ r.1.outSeq = 3 ∧
      passes (fun q : Session × SessionStep => q.2.out.all fun w => decide (w.length < 2 ^ 64))
        (r.1.handleMessage (testResend "1")) = true))
    (makeSession { testSession.cfg with outboundHistorySize := 2 } .text .stored
      testSession.providers.now testSession.providers.clock)
    [.onBytes logonBytes, .sendExecutionReport (Net.execReportForAck ⟨7, ⟨ascii "X"⟩⟩ 7),
      .sendHeartbeat] (by decide +kernel)
  obtain ⟨hfit, hstate, hin, hout, hlens⟩ := of_decide_eq_true hcheck
  obtain ⟨s', ws, hm, -, -, hsome⟩ := resendRequest_tiled _ _ _ _ _ _ s outs (testResend "1") 1 0
    (by decide) (by decide)
    (fun _ => (by decide : Soh.text.byte ∉ ascii "20260513-00:00:00.000"))
    (by decide +kernel) (by decide +kernel) hrun hfit (by rw [hstate]; decide) (by decide)
    (by rw [hin]; decide) (by decide) (by decide) (by decide)
  have hall : s.answered 0 = 3 := by
    rw [answered, if_pos rfl, hout]
    rfl
  rw [hm] at hlens
  rw [hall] at hsome
  obtain ⟨replies, hread, htile⟩ := hsome (by decide) fun w hw =>
    of_decide_eq_true (List.all_eq_true.mp hlens w hw)
  exact ⟨s, outs, s', ws, replies, hrun, hm, hread, htile⟩

/-- **A Logout whose text has the separator is lost**: it does not parse
back, and a request for its number is answered with nothing. -/
theorem separator_in_logout_lost :
    ∃ s outs, run perform testSession [.onBytes logonBytes, .sendLogout (ascii "bye|now")] =
        .ok (s, outs) ∧ s.state = .logoutSent ∧ s.inSeq = 1 ∧ s.outSeq = 2 ∧
      s.history.map (fun rec => rec.seq) = [1, 2] ∧
      (s.handleMessage (testResend "2")).map (fun r => r.2.out) = .ok [] := by
  obtain ⟨s, outs, hrun, hcheck⟩ := @exists_of_run_check _ _ _ _ perform
    (fun r => decide (r.1.state = .logoutSent ∧ r.1.inSeq = 1 ∧ r.1.outSeq = 2 ∧
      r.1.history.map (fun rec => rec.seq) = [1, 2] ∧
      passes (fun q : Session × SessionStep => decide (q.2.out = []))
        (r.1.handleMessage (testResend "2")) = true))
    testSession [.onBytes logonBytes, .sendLogout (ascii "bye|now")] (by decide +kernel)
  obtain ⟨hstate, hin, hout, hseqs, hnone⟩ := of_decide_eq_true hcheck
  refine ⟨s, outs, hrun, hstate, hin, hout, hseqs, ?_⟩
  obtain ⟨q, hm, hout⟩ := passes_iff.mp hnone
  rw [hm]
  exact congrArg Except.ok (of_decide_eq_true hout)

end Session

end Fix

end OrderbookFix
