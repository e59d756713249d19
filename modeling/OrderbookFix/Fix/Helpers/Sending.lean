import OrderbookFix.Fix.Model.Session
/-!
# What the session's functions do to it

Building a message is one update of the session and one list of fields;
everything the session sends on its own account goes through it. None of
the functions behind an inbound message looks at the bytes still to be
read, and answering a ResendRequest only asks for the time.
-/

namespace OrderbookFix

namespace Fix

/-- The number the session takes a message to have. -/
def Message.number (m : Message) : SeqNum := m.seq.toOption.getD 0

theorem Message.number_eq (m : Message) {seq : SeqNum} (h : m.seq = .ok seq) : m.number = seq := by
  rw [Message.number, h]
  rfl

namespace Session

/-- A ResendRequest the session takes, by its number or for want of one. -/
def TakesResend (s : Session) (m : Message) : Prop :=
  s.state ≠ .disconnected ∧ m.msgType = MsgType.resendRequest ∧
    (m.number = s.inSeq + 1 ∨ m.number = 0)

instance (s : Session) (m : Message) : Decidable (s.TakesResend m) :=
  inferInstanceAs (Decidable (_ ∧ _))

section Turn

variable {m : Message} {seq next : SeqNum}

/-- A number ahead of the next one is neither it nor 0. -/
theorem not_taken_of_gap (hseq : m.seq = .ok seq) (hgap : seq > next) :
    ¬ (m.number = next ∨ m.number = 0) := by
  rw [m.number_eq hseq]
  rintro (rfl | rfl)
  · exact UInt64.lt_irrefl _ hgap
  · exact UInt64.not_lt_zero hgap

/-- Nor is one behind it. -/
theorem not_taken_of_low (hseq : m.seq = .ok seq) (hlow : seq < next) (h0 : seq ≠ 0) :
    ¬ (m.number = next ∨ m.number = 0) := by
  rw [m.number_eq hseq]
  rintro (rfl | rfl)
  · exact UInt64.lt_irrefl _ hlow
  · exact h0 rfl

end Turn

/-! ## Building a message -/

/-- The number a message gets, 0 where the caller gave one. -/
def assignedSeq (s : Session) (body : Body) : SeqNum :=
  if seen body Tag.msgSeqNum then 0 else s.outSeq + 1

/-- The fields put on the wire. -/
def wireBody (s : Session) (body : Body) : Body :=
  ((msgTypePos body).bind (body[·]?)).toList ++
    (if seen body Tag.senderCompID then [] else [(Tag.senderCompID, s.cfg.senderCompId)]) ++
    (if seen body Tag.targetCompID then [] else [(Tag.targetCompID, s.cfg.targetCompId)]) ++
    (if seen body Tag.msgSeqNum then [] else [(Tag.msgSeqNum, dec (s.outSeq + 1))]) ++
    (if seen body Tag.sendingTime then []
      else [(Tag.sendingTime, s.providers.now s.providers.nowCalls)]) ++
    match msgTypePos body with
    | some i => body.eraseIdx i
    | none => body

/-- The SendingTime a record keeps. -/
def wireTime (s : Session) (body : Body) : Bytes :=
  let time := if seen body Tag.sendingTime then [] else s.providers.now s.providers.nowCalls
  if time = [] then
    (((s.wireBody body).find? fun kv => kv.1 = Tag.sendingTime).map Prod.snd).getD []
  else time

/-- The ring after a message. -/
def sentHistory (s : Session) (body : Body) : List OutboundRecord :=
  if s.assignedSeq body ≠ 0 ∧ s.cfg.outboundHistorySize > 0 then
    (s.retainOutbound (s.assignedSeq body) (s.wireTime body)
      (build s.soh (s.wireBody body))).history
  else s.history

/-- The session after a message. -/
def sent (s : Session) (body : Body) : Session :=
  { s with
    outSeq := if seen body Tag.msgSeqNum then s.outSeq else s.outSeq + 1
    providers := { s.providers with
      nowCalls := s.providers.nowCalls + if seen body Tag.sendingTime then 0 else 1
      clockCalls := s.providers.clockCalls + 1 }
    lastOutbound := s.providers.clock s.providers.clockCalls
    history := s.sentHistory body }

theorem ite_append (c : Bool) (b : Body) (kv : Int × Bytes) :
    (if c = true then b else b ++ [kv]) = b ++ if c = true then [] else [kv] := by
  cases c with
  | true => exact (List.append_nil b).symm
  | false => rfl

/-- **What building a message does.** -/
theorem buildMessage_eq (s : Session) (body : Body) :
    s.buildMessage body = (s.sent body, build s.soh (s.wireBody body)) := by
  unfold buildMessage sent sentHistory wireTime wireBody assignedSeq
  simp only [ite_append]
  cases hseq : seen body Tag.msgSeqNum <;> cases htime : seen body Tag.sendingTime <;>
    simp only [Bool.false_eq_true, if_true, if_false, ne_eq, not_true_eq_false, false_and,
      List.append_nil]
  · by_cases hret : s.outSeq + 1 ≠ 0 ∧ s.cfg.outboundHistorySize > 0
    · refine (if_pos hret).trans ?_
      rw [if_pos hret]
      rfl
    · refine (if_neg hret).trans ?_
      rw [if_neg hret]
      rfl
  · by_cases hret : s.outSeq + 1 ≠ 0 ∧ s.cfg.outboundHistorySize > 0
    · refine (if_pos hret).trans ?_
      rw [if_pos hret]
      rfl
    · refine (if_neg hret).trans ?_
      rw [if_neg hret]
      rfl
  · rfl
  · rfl

/-- A message in the ring was there before, or is the one sent. -/
theorem mem_history_sent {s : Session} {body : Body} {rec : OutboundRecord}
    (h : rec ∈ (s.sent body).history) :
    rec ∈ s.history ∨ rec.bytes = build s.soh (s.wireBody body) := by
  change rec ∈ s.sentHistory body at h
  rw [sentHistory] at h
  split_ifs at h
  · rcases List.mem_append.mp (List.mem_of_mem_drop h) with hold | hnew
    · exact .inl hold
    · obtain rfl := List.mem_singleton.mp hnew
      exact .inr rfl
  · exact .inl h

/-! ## Answering a ResendRequest -/

/-- The last message asked for. -/
def lastWanted (s : Session) (stop : SeqNum) : SeqNum := if stop = 0 then s.outSeq else stop

/-- The first message of the ring, or the next to be sent. -/
def oldestRetained (s : Session) : SeqNum :=
  match s.history with
  | [] => s.outSeq + 1
  | rec :: _ => rec.seq

/-- The end of an answer: the replays from a number on, after what is
built already. -/
def replayAfter (last : SeqNum) : Session × List WireOut × SeqNum →
    Except Fault (Session × List WireOut)
  | (s, gap, cursor) =>
    if cursor > last then .ok (s, gap)
    else
      match replay cursor last s.history s with
      | .error e => .error e
      | .ok (s, ws) => .ok (s, gap ++ ws)

theorem replayAfter_eq (last : SeqNum) (s : Session) (gap : List WireOut) (cursor : SeqNum) :
    replayAfter last (s, gap, cursor) =
      if cursor > last then .ok (s, gap)
      else (replay cursor last s.history s).map fun r => (r.1, gap ++ r.2) := by
  rw [replayAfter]
  rcases replay cursor last s.history s with e | ⟨s', ws⟩ <;> rfl

/-- What a ResendRequest asks for, sorted out: nothing, messages the ring
no longer holds and maybe some it does, or only such as it holds. -/
theorem handleResendRequest_eq (s : Session) (start stop : SeqNum) :
    s.handleResendRequest start stop =
      let last := s.lastWanted stop
      let newSeqNo := min s.oldestRetained (last + 1)
      let gap := s.buildGapFill start newSeqNo
      if start = 0 ∨ start > last ∨ start > s.outSeq then .ok (s, [])
      else if start < s.oldestRetained then
        if newSeqNo > last then .ok (gap.1, [gap.2])
        else (replay newSeqNo last s.history gap.1).map fun r => (r.1, gap.2 :: r.2)
      else replay start last s.history s := by
  dsimp only
  set last := s.lastWanted stop
  set newSeqNo := min s.oldestRetained (last + 1)
  set gap := s.buildGapFill start newSeqNo
  change (if start = 0 ∨ start > last ∨ start > s.outSeq then Except.ok (s, []) else
    replayAfter last
      (if start < s.oldestRetained then (gap.1, [gap.2], newSeqNo) else (s, [], start))) = _
  by_cases hnone : start = 0 ∨ start > last ∨ start > s.outSeq
  · rw [if_pos hnone, if_pos hnone]
  rw [if_neg hnone, if_neg hnone]
  by_cases hold : start < s.oldestRetained
  · rw [if_pos hold, if_pos hold]
    exact replayAfter_eq last gap.1 [gap.2] newSeqNo
  · rw [if_neg hold, if_neg hold, replayAfter_eq, if_neg fun h => hnone (.inr (.inl h))]
    rcases replay start last s.history s with e | ⟨s', ws⟩ <;> rfl

/-- The session after more calls of the time source. -/
def asked (s : Session) (nowCalls : ℕ) : Session :=
  { s with providers := { s.providers with nowCalls := nowCalls } }

/-- The walk over the ring only asks for the time. -/
theorem replay_asked {cursor stop : SeqNum} {recs : List OutboundRecord} {s s' : Session}
    {ws : List WireOut} (h : replay cursor stop recs s = .ok (s', ws)) : ∃ n, s' = s.asked n := by
  induction recs generalizing s ws with
  | nil =>
    obtain ⟨rfl, -⟩ := Prod.mk.inj (Except.ok.inj h)
    exact ⟨s.providers.nowCalls, rfl⟩
  | cons rec recs ih =>
    rw [replay] at h
    split_ifs at h with hlow hhigh
    · exact ih h
    · obtain ⟨rfl, -⟩ := Prod.mk.inj (Except.ok.inj h)
      exact ⟨s.providers.nowCalls, rfl⟩
    · rcases hp : parseOne s.soh rec.bytes with e | pr
      · rw [hp] at h
        cases h
      rw [hp] at h
      dsimp only at h
      split_ifs at h with herr
      · exact ih h
      · rcases hr : replay cursor stop recs (s.buildReplay rec pr.msg).1 with e | ⟨s₁, ws₁⟩
        · rw [hr] at h
          cases h
        · rw [hr] at h
          obtain ⟨rfl, -⟩ := Prod.mk.inj (Except.ok.inj h)
          obtain ⟨n, rfl⟩ := ih hr
          exact ⟨n, rfl⟩

/-- What the walk sends are replays of messages of the ring that parse. -/
theorem mem_replay {cursor stop : SeqNum} {recs : List OutboundRecord} {s s' : Session}
    {ws : List WireOut} (h : replay cursor stop recs s = .ok (s', ws)) {w : WireOut}
    (hw : w ∈ ws) :
    ∃ rec ∈ recs, ∃ pr, parseOne s.soh rec.bytes = .ok pr ∧ pr.err = .none ∧
      ∃ n, w = ((s.asked n).buildReplay rec pr.msg).2 := by
  induction recs generalizing s ws with
  | nil =>
    obtain ⟨-, rfl⟩ := Prod.mk.inj (Except.ok.inj h)
    cases hw
  | cons rec recs ih =>
    -- A record below the range and one that does not parse are both passed over.
    have hlater : ∀ {n : ℕ} {ws : List WireOut}, replay cursor stop recs (s.asked n) = .ok (s', ws) →
        w ∈ ws → ∃ rec' ∈ rec :: recs, ∃ pr, parseOne s.soh rec'.bytes = .ok pr ∧ pr.err = .none ∧
          ∃ n, w = ((s.asked n).buildReplay rec' pr.msg).2 := by
      intro n ws hr hmem
      obtain ⟨rec', hrec', pr, hp, hnone, k, hk⟩ := ih hr hmem
      exact ⟨rec', List.mem_cons_of_mem _ hrec', pr, hp, hnone, k, hk⟩
    rw [replay] at h
    split_ifs at h with hlow hhigh
    · exact @hlater s.providers.nowCalls ws h hw
    · obtain ⟨-, rfl⟩ := Prod.mk.inj (Except.ok.inj h)
      cases hw
    · rcases hp : parseOne s.soh rec.bytes with e | pr
      · rw [hp] at h
        cases h
      rw [hp] at h
      dsimp only at h
      split_ifs at h with herr
      · exact @hlater s.providers.nowCalls ws h hw
      · rcases hr : replay cursor stop recs (s.buildReplay rec pr.msg).1 with e | ⟨s₁, ws₁⟩
        · rw [hr] at h
          cases h
        · rw [hr] at h
          obtain ⟨rfl, rfl⟩ := Prod.mk.inj (Except.ok.inj h)
          rcases List.mem_cons.mp hw with rfl | hw
          · exact ⟨rec, List.mem_cons_self .., pr, hp, not_not.mp herr, s.providers.nowCalls, rfl⟩
          · exact @hlater (s.providers.nowCalls + 1) ws₁ hr hw

/-- **Answering a ResendRequest only asks for the time.** -/
theorem handleResendRequest_asked {start stop : SeqNum} {s s' : Session} {ws : List WireOut}
    (h : s.handleResendRequest start stop = .ok (s', ws)) : ∃ n, s' = s.asked n := by
  rw [handleResendRequest_eq] at h
  dsimp only at h
  split_ifs at h with hnone hold hgap
  · obtain ⟨rfl, -⟩ := Prod.mk.inj (Except.ok.inj h)
    exact ⟨s.providers.nowCalls, rfl⟩
  · obtain ⟨rfl, -⟩ := Prod.mk.inj (Except.ok.inj h)
    exact ⟨s.providers.nowCalls + 1, rfl⟩
  · rcases hr : replay _ _ _ (s.buildGapFill start _).1 with e | ⟨s₁, ws₁⟩
    · rw [hr] at h
      cases h
    · rw [hr] at h
      obtain ⟨rfl, -⟩ := Prod.mk.inj (Except.ok.inj h)
      obtain ⟨n, rfl⟩ := replay_asked hr
      exact ⟨n, rfl⟩
  · exact replay_asked h

/-- **What answers a ResendRequest**: a GapFill, or replays. -/
theorem mem_handleResendRequest {start stop : SeqNum} {s s' : Session} {ws : List WireOut}
    (h : s.handleResendRequest start stop = .ok (s', ws)) {w : WireOut} (hw : w ∈ ws) :
    (∃ newSeqNo, w = (s.buildGapFill start newSeqNo).2) ∨
      ∃ rec ∈ s.history, ∃ pr, parseOne s.soh rec.bytes = .ok pr ∧ pr.err = .none ∧
        ∃ n, w = ((s.asked n).buildReplay rec pr.msg).2 := by
  rw [handleResendRequest_eq] at h
  dsimp only at h
  split_ifs at h with hnone hold hgap
  · obtain ⟨-, rfl⟩ := Prod.mk.inj (Except.ok.inj h)
    cases hw
  · obtain ⟨-, rfl⟩ := Prod.mk.inj (Except.ok.inj h)
    exact .inl ⟨_, List.mem_singleton.mp hw⟩
  · rcases hr : replay _ _ _ (s.buildGapFill start _).1 with e | ⟨s₁, ws₁⟩
    · rw [hr] at h
      cases h
    · rw [hr] at h
      obtain ⟨rfl, rfl⟩ := Prod.mk.inj (Except.ok.inj h)
      rcases List.mem_cons.mp hw with rfl | hw
      · exact .inl ⟨_, rfl⟩
      · exact .inr (mem_replay hr hw)
  · exact .inr (mem_replay h hw)

/-! ## Logons -/

/-- The session with its timers started by a Logon. -/
def loggingOn (s : Session) : Session :=
  { s with
    inSeq := if s.cfg.resetOnLogon then 0 else s.inSeq
    outSeq := if s.cfg.resetOnLogon then 0 else s.outSeq
    history := if s.cfg.resetOnLogon then [] else s.history
    providers := { s.providers with clockCalls := s.providers.clockCalls + 2 }
    lastInbound := s.providers.clock s.providers.clockCalls
    lastOutbound := s.providers.clock (s.providers.clockCalls + 1)
    testRequestOutstanding := false
    timersArmed := true }

/-- The session that accepts a Logon. -/
def accepting (s : Session) (m : Message) (seq : SeqNum) : Session :=
  { s.loggingOn with
    cfg := { s.cfg with targetCompId := (m.get Tag.senderCompID).getD s.cfg.targetCompId }
    inSeq := seq
    state := .loggedIn }

/-- The fields of a Logon of our own. -/
def logonBody (s : Session) : Body :=
  [(Tag.msgType, MsgType.logon), (108, decimalInt s.cfg.heartbeatSecs)]

theorem admitLogon_eq (s : Session) (m : Message) (seq : SeqNum) :
    s.admitLogon m seq =
      if m.msgType ≠ MsgType.logon then (s, { disconnect := true })
      else if (m.get Tag.targetCompID).any (· ≠ s.cfg.senderCompId) then
        (s.loggingOn, { disconnect := true })
      else
        ((s.accepting m seq).sent s.logonBody,
          { out := [build s.soh ((s.accepting m seq).wireBody s.logonBody)] }) := by
  unfold admitLogon
  simp only [buildMessage_eq]
  by_cases hmt : m.msgType ≠ MsgType.logon
  · exact (if_pos hmt).trans (if_pos hmt).symm
  refine (if_neg hmt).trans (Eq.trans ?_ (if_neg hmt).symm)
  unfold accepting loggingOn
  by_cases htarget : (m.get Tag.targetCompID).any (· ≠ s.cfg.senderCompId) = true
  · refine Eq.trans ?_ (if_pos htarget).symm
    cases s.cfg.resetOnLogon <;> exact if_pos htarget
  · refine Eq.trans ?_ (if_neg htarget).symm
    cases s.cfg.resetOnLogon <;> rcases m.get Tag.senderCompID with _ | sender <;>
      exact if_neg htarget

/-! ## Inbound messages -/

/-- The Heartbeat that answers a TestRequest. -/
def heartbeatBody (m : Message) : Body :=
  [(Tag.msgType, MsgType.heartbeat), (Tag.testReqID, (m.get Tag.testReqID).getD [])]

/-- The Reject of a message of no known type. -/
def rejectBody (m : Message) (seq : SeqNum) : Body :=
  [(Tag.msgType, MsgType.reject), (Tag.refSeqNum, dec seq),
    (Tag.text, ascii "unsupported MsgType=" ++ m.msgType)]

def resendBody (start : SeqNum) : Body :=
  [(Tag.msgType, MsgType.resendRequest), (Tag.beginSeqNo, dec start), (Tag.endSeqNo, ascii "0")]

def logoutBody (text : Bytes) : Body := [(Tag.msgType, MsgType.logout), (Tag.text, text)]

/-- The session on its way out. -/
def leaving (s : Session) : Session := { s with state := .logoutSent }

/-- The types handed to the matcher. -/
def isApplication (mt : Bytes) : Bool :=
  mt = MsgType.newOrderSingle ∨ mt = MsgType.orderCancelRequest ∨ mt = MsgType.orderCancelReplace

/-- The types that change nothing. -/
def isQuiet (mt : Bytes) : Bool :=
  mt = MsgType.heartbeat ∨ mt = MsgType.reject ∨ mt = MsgType.sequenceReset

/-- The types the session acts on in sequence. -/
def knownTypes : List Bytes :=
  [MsgType.heartbeat, MsgType.testRequest, MsgType.resendRequest, MsgType.logout, MsgType.reject,
    MsgType.sequenceReset, MsgType.newOrderSingle, MsgType.orderCancelRequest,
    MsgType.orderCancelReplace]

/-- **What each type of message does** in sequence. -/
inductive Routes (s : Session) (m : Message) (seq : SeqNum) : Session → SessionStep → Prop
  | quiet (ht : isQuiet m.msgType = true) : Routes s m seq s {}
  | testRequest (ht : m.msgType = MsgType.testRequest) :
      Routes s m seq (s.sent (heartbeatBody m))
        { out := [build s.soh (s.wireBody (heartbeatBody m))] }
  | resend {start stop : SeqNum} {s' : Session} {ws : List WireOut}
      (ht : m.msgType = MsgType.resendRequest) (hstart : number m Tag.beginSeqNo = .ok start)
      (hstop : number m Tag.endSeqNo = .ok stop)
      (hr : s.handleResendRequest start stop = .ok (s', ws)) : Routes s m seq s' { out := ws }
  | acknowledge (ht : m.msgType = MsgType.logout) (hs : s.state ≠ .logoutSent) :
      Routes s m seq
        { s.leaving.sent (logoutBody (ascii "acknowledged")) with state := .disconnected }
        { out := [build s.soh (s.leaving.wireBody (logoutBody (ascii "acknowledged")))]
          disconnect := true }
  | acknowledged (ht : m.msgType = MsgType.logout) (hs : s.state = .logoutSent) :
      Routes s m seq { s with state := .disconnected } { disconnect := true }
  | app (ht : isApplication m.msgType = true) : Routes s m seq s { app := [m] }
  | unknown (ht : m.msgType ∉ knownTypes) :
      Routes s m seq (s.sent (rejectBody m seq))
        { out := [build s.soh (s.wireBody (rejectBody m seq))] }

theorem dispatch_routes {s s' : Session} {m : Message} {seq : SeqNum} {step : SessionStep}
    (h : s.dispatch m seq = .ok (s', step)) : Routes s m seq s' step := by
  unfold dispatch buildReject sendLogout at h
  simp only [buildMessage_eq] at h
  split_ifs at h with hhb htr hrr hlo hst hadm happ
  · obtain ⟨rfl, rfl⟩ := Prod.mk.inj (Except.ok.inj h)
    exact .quiet (decide_eq_true (.inl hhb))
  · obtain ⟨rfl, rfl⟩ := Prod.mk.inj (Except.ok.inj h)
    exact .testRequest htr
  · rcases hb : number m Tag.beginSeqNo with e | start
    · rw [hb] at h
      cases h
    rcases he : number m Tag.endSeqNo with e | stop
    · rw [hb, he] at h
      cases h
    rw [hb, he] at h
    dsimp only at h
    rcases hr : s.handleResendRequest start stop with e | ⟨s₁, ws⟩
    · rw [hr] at h
      cases h
    rw [hr] at h
    obtain ⟨rfl, rfl⟩ := Prod.mk.inj (Except.ok.inj h)
    exact .resend hrr hb he hr
  · obtain ⟨rfl, rfl⟩ := Prod.mk.inj (Except.ok.inj h)
    exact .acknowledge hlo hst
  · obtain ⟨rfl, rfl⟩ := Prod.mk.inj (Except.ok.inj h)
    exact .acknowledged hlo (not_not.mp hst)
  · obtain ⟨rfl, rfl⟩ := Prod.mk.inj (Except.ok.inj h)
    exact .quiet (decide_eq_true (.inr hadm))
  · obtain ⟨rfl, rfl⟩ := Prod.mk.inj (Except.ok.inj h)
    exact .app (decide_eq_true happ)
  · obtain ⟨rfl, rfl⟩ := Prod.mk.inj (Except.ok.inj h)
    refine .unknown ?_
    simp only [knownTypes, List.mem_cons, List.not_mem_nil, or_false]
    tauto

/-- **What a message in sequence can do.** -/
inductive Dispatches (s : Session) (m : Message) (seq : SeqNum) : Session → SessionStep → Prop
  | quiet : Dispatches s m seq s {}
  | reply (body : Body) (h : body = heartbeatBody m ∨ body = rejectBody m seq) :
      Dispatches s m seq (s.sent body) { out := [build s.soh (s.wireBody body)] }
  | resend (n : ℕ) (ws : List WireOut) : Dispatches s m seq (s.asked n) { out := ws }
  | acknowledge :
      Dispatches s m seq
        { s.leaving.sent (logoutBody (ascii "acknowledged")) with state := .disconnected }
        { out := [build s.soh (s.leaving.wireBody (logoutBody (ascii "acknowledged")))]
          disconnect := true }
  | acknowledged : Dispatches s m seq { s with state := .disconnected } { disconnect := true }
  | app : Dispatches s m seq s { app := [m] }

theorem Routes.dispatches {s s' : Session} {m : Message} {seq : SeqNum} {step : SessionStep}
    (h : Routes s m seq s' step) : Dispatches s m seq s' step := by
  cases h with
  | quiet ht => exact .quiet
  | testRequest ht => exact .reply _ (.inl rfl)
  | resend ht hstart hstop hr =>
    obtain ⟨n, rfl⟩ := handleResendRequest_asked hr
    exact .resend n _
  | acknowledge ht hs => exact .acknowledge
  | acknowledged ht hs => exact .acknowledged
  | app ht => exact .app
  | unknown ht => exact .reply _ (.inr rfl)

/-- **What an inbound message can do** to a session that is on: ask for a
resend, end it, or be taken. -/
inductive Handles (s : Session) (m : Message) (seq : SeqNum) : Session → SessionStep → Prop
  | gap (h : seq > s.inSeq + 1) :
      Handles s m seq (s.sent (resendBody (s.inSeq + 1)))
        { out := [build s.soh (s.wireBody (resendBody (s.inSeq + 1)))] }
  | low (h : seq < s.inSeq + 1) (h0 : seq ≠ 0) :
      Handles s m seq (s.leaving.sent (logoutBody (ascii "MsgSeqNum too low")))
        { out := [build s.soh (s.leaving.wireBody (logoutBody (ascii "MsgSeqNum too low")))]
          disconnect := true }
  | taken {s' : Session} {step : SessionStep} (h : seq = s.inSeq + 1 ∨ seq = 0)
      (hd : Dispatches { s with inSeq := seq } m seq s' step) : Handles s m seq s' step

/-- **What an inbound message does**: it is the first of its connection,
or it has a number to be taken by. -/
inductive Receives (s : Session) (m : Message) : Session → SessionStep → Prop
  | refused (hoff : s.state = .disconnected) (ht : m.msgType ≠ MsgType.logon) :
      Receives s m s { disconnect := true }
  | misdirected (hoff : s.state = .disconnected) (ht : m.msgType = MsgType.logon)
      (hf : (m.get Tag.targetCompID).any (· ≠ s.cfg.senderCompId) = true) :
      Receives s m s.loggingOn { disconnect := true }
  | admitted {seq : SeqNum} (hseq : m.seq = .ok seq) (hoff : s.state = .disconnected)
      (ht : m.msgType = MsgType.logon)
      (hf : (m.get Tag.targetCompID).any (· ≠ s.cfg.senderCompId) = false) :
      Receives s m ((s.accepting m seq).sent s.logonBody)
        { out := [build s.soh ((s.accepting m seq).wireBody s.logonBody)] }
  | gap {seq : SeqNum} (hseq : m.seq = .ok seq) (hon : s.state ≠ .disconnected)
      (h : seq > s.inSeq + 1) :
      Receives s m (s.sent (resendBody (s.inSeq + 1)))
        { out := [build s.soh (s.wireBody (resendBody (s.inSeq + 1)))] }
  | low {seq : SeqNum} (hseq : m.seq = .ok seq) (hon : s.state ≠ .disconnected)
      (h : seq < s.inSeq + 1) (h0 : seq ≠ 0) :
      Receives s m (s.leaving.sent (logoutBody (ascii "MsgSeqNum too low")))
        { out := [build s.soh (s.leaving.wireBody (logoutBody (ascii "MsgSeqNum too low")))]
          disconnect := true }
  | taken {seq : SeqNum} {s' : Session} {step : SessionStep} (hseq : m.seq = .ok seq)
      (hon : s.state ≠ .disconnected) (h : seq = s.inSeq + 1 ∨ seq = 0)
      (hd : Routes { s with inSeq := seq } m seq s' step) : Receives s m s' step

theorem handleMessage_receives {s s' : Session} {m : Message} {step : SessionStep}
    (h : s.handleMessage m = .ok (s', step)) : Receives s m s' step := by
  unfold handleMessage buildResendRequest sendLogout at h
  rcases hseq : m.seq with e | seq
  · rw [hseq] at h
    cases h
  rw [hseq] at h
  simp only [buildMessage_eq, admitLogon_eq] at h
  split_ifs at h with hoff ht hf hgap hlow
  · obtain ⟨rfl, rfl⟩ := Prod.mk.inj (Except.ok.inj h)
    exact .refused hoff ht
  · obtain ⟨rfl, rfl⟩ := Prod.mk.inj (Except.ok.inj h)
    exact .misdirected hoff (not_not.mp ht) hf
  · obtain ⟨rfl, rfl⟩ := Prod.mk.inj (Except.ok.inj h)
    exact .admitted hseq hoff (not_not.mp ht) (Bool.not_eq_true _ ▸ hf)
  · obtain ⟨rfl, rfl⟩ := Prod.mk.inj (Except.ok.inj h)
    exact .gap hseq hoff hgap
  · obtain ⟨rfl, rfl⟩ := Prod.mk.inj (Except.ok.inj h)
    exact .low hseq hoff hlow.1 hlow.2
  · refine .taken hseq hoff ?_ (dispatch_routes h)
    by_cases h0 : seq = 0
    · exact .inr h0
    · have hge : ¬ seq < s.inSeq + 1 := fun hlt => hlow ⟨hlt, h0⟩
      exact .inl (UInt64.le_antisymm (UInt64.not_lt.mp hgap) (UInt64.not_lt.mp hge))

/-- What is handed to the matcher is the message itself, and of one of
the three types. -/
theorem handleMessage_kind {s s' : Session} {m m' : Message} {step : SessionStep}
    (h : s.handleMessage m = .ok (s', step)) (hm : m' ∈ step.app) :
    m' = m ∧ (m.msgType = MsgType.newOrderSingle ∨ m.msgType = MsgType.orderCancelRequest ∨
      m.msgType = MsgType.orderCancelReplace) := by
  cases handleMessage_receives h with
  | refused => cases hm
  | misdirected => cases hm
  | admitted => cases hm
  | gap => cases hm
  | low => cases hm
  | taken hseq hon htaken hd =>
    cases hd with
    | app ht => exact ⟨List.mem_singleton.mp hm, of_decide_eq_true ht⟩
    | quiet => cases hm
    | testRequest => cases hm
    | resend => cases hm
    | acknowledge => cases hm
    | acknowledged => cases hm
    | unknown => cases hm

theorem handleMessage_cases {s s' : Session} {m : Message} {step : SessionStep}
    (hstate : s.state ≠ .disconnected) (h : s.handleMessage m = .ok (s', step)) :
    ∃ seq, m.seq = .ok seq ∧ Handles s m seq s' step := by
  cases handleMessage_receives h with
  | refused hoff ht => exact absurd hoff hstate
  | misdirected hoff ht hf => exact absurd hoff hstate
  | admitted hseq hoff ht hf => exact absurd hoff hstate
  | gap hseq hon hgap => exact ⟨_, hseq, .gap hgap⟩
  | low hseq hon hlow h0 => exact ⟨_, hseq, .low hlow h0⟩
  | taken hseq hon htaken hd => exact ⟨_, hseq, .taken htaken hd.dispatches⟩

/-! ## Ticks -/

/-- The TestRequest of the timer. -/
def testRequestBody (s : Session) : Body :=
  [(Tag.msgType, MsgType.testRequest), (Tag.testReqID, ascii "tr-" ++ dec (s.outSeq + 1))]

/-- **What a tick can do**: nothing, or one of three messages where the
session is logged on. -/
inductive Ticks (s : Session) (now : Int) : Session → SessionStep → Prop
  | idle : Ticks s now s {}
  | testRequest (hon : s.state = .loggedIn) :
      Ticks s now
        { s.sent s.testRequestBody with testRequestAt := now, testRequestOutstanding := true }
        { out := [build s.soh (s.wireBody s.testRequestBody)] }
  | timeout (hon : s.state = .loggedIn) (hout : s.testRequestOutstanding = true) :
      Ticks s now
        { s.leaving.sent (logoutBody (ascii "heartbeat timeout")) with
          testRequestOutstanding := false }
        { out := [build s.soh (s.leaving.wireBody (logoutBody (ascii "heartbeat timeout")))]
          disconnect := true }
  | heartbeat (hon : s.state = .loggedIn) :
      Ticks s now (s.sent [(Tag.msgType, MsgType.heartbeat)])
        { out := [build s.soh (s.wireBody [(Tag.msgType, MsgType.heartbeat)])] }

/-- The silence a tick allows the peer. -/
def window (s : Session) : Int := (s.cfg.heartbeatSecs + s.cfg.heartbeatSecs / 2) * second

theorem window_congr {s s' : Session} (h : s'.cfg.heartbeatSecs = s.cfg.heartbeatSecs) :
    s'.window = s.window := by
  rw [window, window, h]

/-- A session whose timers run. -/
structure Timed (s : Session) : Prop where
  on : s.state = .loggedIn
  secs : 0 < s.cfg.heartbeatSecs
  armed : s.timersArmed = true

/-- **What a tick does, and when.** -/
inductive TicksAt (s : Session) (now : Int) : Session → SessionStep → Prop
  | off (h : ¬ s.Timed) : TicksAt s now s {}
  | testRequest (h : s.Timed) (hout : s.testRequestOutstanding = false)
      (hlate : s.window ≤ now - s.lastInbound) :
      TicksAt s now
        { s.sent s.testRequestBody with testRequestAt := now, testRequestOutstanding := true }
        { out := [build s.soh (s.wireBody s.testRequestBody)] }
  | timeout (h : s.Timed) (hout : s.testRequestOutstanding = true)
      (hlate : s.window ≤ now - s.testRequestAt) :
      TicksAt s now
        { s.leaving.sent (logoutBody (ascii "heartbeat timeout")) with
          testRequestOutstanding := false }
        { out := [build s.soh (s.leaving.wireBody (logoutBody (ascii "heartbeat timeout")))]
          disconnect := true }
  | heartbeat (h : s.Timed)
      (hheard : s.testRequestOutstanding = false → now - s.lastInbound < s.window)
      (hlate : s.cfg.heartbeatSecs * second ≤ now - s.lastOutbound) :
      TicksAt s now (s.sent [(Tag.msgType, MsgType.heartbeat)])
        { out := [build s.soh (s.wireBody [(Tag.msgType, MsgType.heartbeat)])] }
  | idle (h : s.Timed)
      (hheard : s.testRequestOutstanding = false → now - s.lastInbound < s.window)
      (hrecent : now - s.lastOutbound < s.cfg.heartbeatSecs * second) : TicksAt s now s {}

theorem tick_ticksAt {s s' : Session} {now : Int} {step : SessionStep}
    (h : s.tick now = (s', step)) : TicksAt s now s' step := by
  unfold tick sendLogout sendHeartbeat at h
  simp only [buildMessage_eq] at h
  split_ifs at h with hon hhb harmed htest htimeout hbeat
  · obtain ⟨rfl, rfl⟩ := Prod.mk.inj h
    exact .off fun ht => hon ht.on
  · obtain ⟨rfl, rfl⟩ := Prod.mk.inj h
    exact .off fun ht => absurd ht.secs (Int.not_lt.mpr hhb)
  · obtain ⟨rfl, rfl⟩ := Prod.mk.inj h
    refine .off fun ht => ?_
    rw [ht.armed] at harmed
    cases harmed
  all_goals
    have ht : s.Timed := ⟨not_not.mp hon, Int.not_le.mp hhb, by simpa using harmed⟩
    obtain ⟨rfl, rfl⟩ := Prod.mk.inj h
  · exact .testRequest ht (by simpa using htest.1) htest.2
  · exact .timeout ht htimeout.1 htimeout.2
  all_goals
    have hheard : s.testRequestOutstanding = false → now - s.lastInbound < s.window :=
      fun hout => Int.not_le.mp fun hlate => htest ⟨by rw [hout]; rfl, hlate⟩
  · exact .heartbeat ht hheard hbeat
  · exact .idle ht hheard (Int.not_le.mp hbeat)

theorem tick_cases {s s' : Session} {now : Int} {step : SessionStep}
    (h : s.tick now = (s', step)) : Ticks s now s' step := by
  cases tick_ticksAt h with
  | off _ => exact .idle
  | testRequest ht _ _ => exact .testRequest ht.on
  | timeout ht hout _ => exact .timeout ht.on hout
  | heartbeat ht _ _ => exact .heartbeat ht.on
  | idle _ _ _ => exact .idle

/-! ## Calls -/

/-- **What a call does**: it reads bytes, ticks, resets the numbers, or
builds one message, the state changed first. -/
inductive Performs (s : Session) : Call → Session → List SessionStep → Prop
  | initiateLogon :
      Performs s .initiateLogon (sent { s with state := .logonSent } s.logonBody)
        [{ out := [build s.soh (wireBody { s with state := .logonSent } s.logonBody)] }]
  | onBytes {data : Bytes} {s' : Session} {step : SessionStep}
      (h : s.onBytes data = .ok (s', step)) : Performs s (.onBytes data) s' [step]
  | executionReport (body : Body) :
      Performs s (.sendExecutionReport body)
        (s.sent ((Tag.msgType, MsgType.executionReport) :: body))
        [{ out := [build s.soh (s.wireBody ((Tag.msgType, MsgType.executionReport) :: body))] }]
  | heartbeat :
      Performs s .sendHeartbeat (s.sent [(Tag.msgType, MsgType.heartbeat)])
        [{ out := [build s.soh (s.wireBody [(Tag.msgType, MsgType.heartbeat)])] }]
  | logout (text : Bytes) :
      Performs s (.sendLogout text) (s.leaving.sent (logoutBody text))
        [{ out := [build s.soh (s.leaving.wireBody (logoutBody text))] }]
  | resetSeq : Performs s .resetSeq s.resetSeq []
  | tick {now : Int} {s' : Session} {step : SessionStep} (h : s.tick now = (s', step)) :
      Performs s (.tick now) s' [step]

theorem perform_cases {s s' : Session} {c : Call} {outs : List SessionStep}
    (h : s.perform c = .ok (s', outs)) : Performs s c s' outs := by
  cases c with
  | initiateLogon =>
    rw [perform, initiateLogon, buildMessage_eq] at h
    obtain ⟨rfl, rfl⟩ := Prod.mk.inj (Except.ok.inj h)
    exact .initiateLogon
  | onBytes data =>
    rw [perform] at h
    rcases hb : s.onBytes data with e | ⟨s₁, step⟩
    · rw [hb] at h
      cases h
    · rw [hb] at h
      obtain ⟨rfl, rfl⟩ := Prod.mk.inj (Except.ok.inj h)
      exact .onBytes hb
  | sendExecutionReport body =>
    rw [perform, sendExecutionReport, buildMessage_eq] at h
    obtain ⟨rfl, rfl⟩ := Prod.mk.inj (Except.ok.inj h)
    exact .executionReport body
  | sendHeartbeat =>
    rw [perform, sendHeartbeat, buildMessage_eq] at h
    obtain ⟨rfl, rfl⟩ := Prod.mk.inj (Except.ok.inj h)
    exact .heartbeat
  | sendLogout text =>
    rw [perform, sendLogout, buildMessage_eq] at h
    obtain ⟨rfl, rfl⟩ := Prod.mk.inj (Except.ok.inj h)
    exact .logout text
  | resetSeq =>
    obtain ⟨rfl, rfl⟩ := Prod.mk.inj (Except.ok.inj h)
    exact .resetSeq
  | tick now =>
    obtain ⟨rfl, rfl⟩ := Prod.mk.inj (Except.ok.inj h)
    exact .tick rfl

/-! ## The bytes still to be read -/

/-- The session with other bytes to read. -/
def withBuf (s : Session) (buf : Bytes) : Session := { s with inBuf := buf }

section WithBuf

variable (s : Session) (buf : Bytes)

theorem withBuf_inBuf : s.withBuf s.inBuf = s := rfl

theorem buildMessage_withBuf (body : Body) :
    (s.withBuf buf).buildMessage body =
      ((s.buildMessage body).1.withBuf buf, (s.buildMessage body).2) := by
  rw [buildMessage_eq, buildMessage_eq]
  rfl

theorem sendLogout_withBuf (text : Bytes) :
    (s.withBuf buf).sendLogout text =
      ((s.sendLogout text).1.withBuf buf, (s.sendLogout text).2) :=
  buildMessage_withBuf { s with state := .logoutSent } buf _

theorem buildReplay_withBuf (rec : OutboundRecord) (m : Message) :
    (s.withBuf buf).buildReplay rec m =
      ((s.buildReplay rec m).1.withBuf buf, (s.buildReplay rec m).2) := rfl

theorem replay_withBuf (cursor stop : SeqNum) (recs : List OutboundRecord) :
    replay cursor stop recs (s.withBuf buf) =
      (replay cursor stop recs s).map fun r => (r.1.withBuf buf, r.2) := by
  induction recs generalizing s with
  | nil => rfl
  | cons rec recs ih =>
    have hsoh : (s.withBuf buf).soh = s.soh := rfl
    rw [replay, replay, hsoh]
    split_ifs with hlow hhigh
    · exact ih s
    · rfl
    · rcases parseOne s.soh rec.bytes with e | pr
      · rfl
      dsimp only
      split_ifs with herr
      · exact ih s
      · rw [buildReplay_withBuf, ih (s.buildReplay rec pr.msg).1]
        rcases replay cursor stop recs (s.buildReplay rec pr.msg).1 with e | ⟨s', ws⟩ <;> rfl

theorem handleResendRequest_withBuf (start stop : SeqNum) :
    (s.withBuf buf).handleResendRequest start stop =
      (s.handleResendRequest start stop).map fun r => (r.1.withBuf buf, r.2) := by
  have hlast : (s.withBuf buf).lastWanted stop = s.lastWanted stop := rfl
  have hold : (s.withBuf buf).oldestRetained = s.oldestRetained := rfl
  have hhist : (s.withBuf buf).history = s.history := rfl
  have hout : (s.withBuf buf).outSeq = s.outSeq := rfl
  have hgap : ∀ cursor n, (s.withBuf buf).buildGapFill cursor n =
    ((s.buildGapFill cursor n).1.withBuf buf, (s.buildGapFill cursor n).2) := fun _ _ => rfl
  simp only [handleResendRequest_eq, hlast, hold, hhist, hout, hgap, replay_withBuf]
  split_ifs
  · rfl
  · rfl
  · rcases replay _ _ _ (s.buildGapFill start _).1 with e | ⟨s', ws⟩ <;> rfl
  · rfl

theorem admitLogon_withBuf (m : Message) (seq : SeqNum) :
    (s.withBuf buf).admitLogon m seq =
      ((s.admitLogon m seq).1.withBuf buf, (s.admitLogon m seq).2) := by
  have hcfg : (s.withBuf buf).cfg = s.cfg := rfl
  rw [admitLogon_eq, admitLogon_eq, hcfg]
  split_ifs <;> rfl

theorem dispatch_withBuf (m : Message) (seq : SeqNum) :
    (s.withBuf buf).dispatch m seq =
      (s.dispatch m seq).map fun r => (r.1.withBuf buf, r.2) := by
  have hstate : (s.withBuf buf).state = s.state := rfl
  unfold dispatch buildReject sendLogout
  simp only [buildMessage_eq, handleResendRequest_withBuf, hstate]
  split_ifs
  · rfl
  · rfl
  · rcases number m Tag.beginSeqNo with e | start
    · rfl
    rcases number m Tag.endSeqNo with e | stop
    · rfl
    dsimp only
    rcases s.handleResendRequest start stop with e | ⟨s', ws⟩ <;> rfl
  · rfl
  · rfl
  · rfl
  · rfl
  · rfl

theorem handleMessage_withBuf (m : Message) :
    (s.withBuf buf).handleMessage m =
      (s.handleMessage m).map fun r => (r.1.withBuf buf, r.2) := by
  have hstate : (s.withBuf buf).state = s.state := rfl
  have hin : (s.withBuf buf).inSeq = s.inSeq := rfl
  unfold handleMessage buildResendRequest sendLogout
  rcases m.seq with e | seq
  · rfl
  simp only [buildMessage_eq, admitLogon_withBuf, hstate, hin]
  split_ifs
  · rfl
  · rfl
  · rfl
  · exact dispatch_withBuf { s with inSeq := seq } buf m seq

end WithBuf

end Session

end Fix

end OrderbookFix
