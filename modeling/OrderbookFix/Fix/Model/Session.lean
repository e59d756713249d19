import OrderbookFix.Fix.Model.Codec
/-!
# The session

`fix/session.{h,cpp}`: the state machine behind one connection. It does
no input or output of its own; a call takes the session to its next state
and returns what to send and what to hand to the matcher. The time
sources are functions the caller sets, so the n-th call of one may answer
anything; and the fields of a parsed message come out of an unordered map
in an order of its own.
-/

namespace OrderbookFix

namespace Fix

inductive SessionState where
  | disconnected
  | logonSent
  | loggedIn
  | logoutSent
  deriving DecidableEq

structure SessionConfig where
  senderCompId : Bytes
  targetCompId : Bytes
  heartbeatSecs : Int := 30
  resetOnLogon : Bool := true
  outboundHistorySize : ℕ := 10000

abbrev WireOut := Bytes

abbrev AppMessage := Message

structure SessionStep where
  out : List WireOut := []
  app : List AppMessage := []
  disconnect : Bool := false
  deriving DecidableEq

structure OutboundRecord where
  seq : SeqNum
  sendingTime : Bytes
  bytes : Bytes
  deriving DecidableEq

/-- The order in which the fields of a map are visited. -/
structure FieldOrder where
  visit : Fields → Body
  perm : ∀ fields, (visit fields).Perm (fields.entries.map fun e => (e.1, e.2))

/-- One such order. -/
def FieldOrder.stored : FieldOrder where
  visit fields := fields.entries.map fun e => (e.1, e.2)
  perm _ := .refl _

/-- The time sources: what their n-th call answers, and how often each
was called. Times are nanoseconds of the steady clock. -/
structure Providers where
  now : ℕ → Bytes
  clock : ℕ → Int
  nowCalls : ℕ := 0
  clockCalls : ℕ := 0

structure Session where
  cfg : SessionConfig
  soh : Soh
  order : FieldOrder
  providers : Providers
  state : SessionState := .disconnected
  inSeq : SeqNum := 0
  outSeq : SeqNum := 0
  inBuf : Bytes := []
  history : List OutboundRecord := []
  lastInbound : Int := 0
  lastOutbound : Int := 0
  testRequestAt : Int := 0
  timersArmed : Bool := false
  testRequestOutstanding : Bool := false

/-- A new session. -/
def makeSession (cfg : SessionConfig) (soh : Soh) (order : FieldOrder) (now : ℕ → Bytes)
    (clock : ℕ → Int) : Session where
  cfg := cfg
  soh := soh
  order := order
  providers := { now := now, clock := clock }

/-- The session of the unit tests. -/
def testSession : Session :=
  makeSession { senderCompId := ascii "OBFIX", targetCompId := ascii "CLIENT" } .text .stored
    (fun _ => ascii "20260513-00:00:00.000") fun _ => 0

/-- The bytes of a Logon to it. -/
def logonBytes : Bytes :=
  build .text [(Tag.msgType, MsgType.logon), (Tag.senderCompID, ascii "C"),
    (Tag.targetCompID, ascii "OBFIX"), (Tag.msgSeqNum, ascii "1"), (108, ascii "30")]

/-- The bytes of a TestRequest. -/
def testRequestBytes (seq : String) : Bytes :=
  build .text [(Tag.msgType, MsgType.testRequest), (Tag.msgSeqNum, ascii seq),
    (Tag.testReqID, ascii "ping")]

/-- `std::to_string` of a 64-bit word. -/
def dec (n : UInt64) : Bytes := decimal n.toNat

namespace Session

/-- `default_now()`. -/
def defaultNow (s : Session) : Session × Bytes :=
  ({ s with providers := { s.providers with nowCalls := s.providers.nowCalls + 1 } },
    s.providers.now s.providers.nowCalls)

/-- `steady_now_from(clock_)`. -/
def steadyNow (s : Session) : Session × Int :=
  ({ s with providers := { s.providers with clockCalls := s.providers.clockCalls + 1 } },
    s.providers.clock s.providers.clockCalls)

/-! ## Building messages -/

/-- The last place of the MsgType field. -/
def msgTypePos : Body → Option ℕ
  | [] => none
  | kv :: rest =>
    match msgTypePos rest with
    | some i => some (i + 1)
    | none => if kv.1 = Tag.msgType then some 0 else none

/-- Whether a body already has a field. -/
def seen (body : Body) (t : Int) : Bool := body.any fun kv => kv.1 = t

/-- Keep a message for resending, the oldest falling out of the ring. -/
def retainOutbound (s : Session) (seq : SeqNum) (sendingTime bytes : Bytes) : Session :=
  let history := s.history ++ [⟨seq, sendingTime, bytes⟩]
  { s with history := history.drop (history.length - s.cfg.outboundHistorySize) }

/-- **Build a message** around the caller's fields: MsgType first, then
the standard header where the caller gave none, then the rest. -/
def buildMessage (s : Session) (body : Body) : Session × WireOut :=
  let pos := msgTypePos body
  let b : Body := (pos.bind (body[·]?)).toList
  let b := if seen body Tag.senderCompID then b else b ++ [(Tag.senderCompID, s.cfg.senderCompId)]
  let b := if seen body Tag.targetCompID then b else b ++ [(Tag.targetCompID, s.cfg.targetCompId)]
  let (s, assignedSeq, b) :=
    if seen body Tag.msgSeqNum then (s, 0, b)
    else
      let s := { s with outSeq := s.outSeq + 1 }
      (s, s.outSeq, b ++ [(Tag.msgSeqNum, dec s.outSeq)])
  let (s, sendingTime, b) :=
    if seen body Tag.sendingTime then (s, [], b)
    else
      let (s, t) := s.defaultNow
      (s, t, b ++ [(Tag.sendingTime, t)])
  let b := b ++
    match pos with
    | some i => body.eraseIdx i
    | none => body
  let bytes := build s.soh b
  let (s, t) := s.steadyNow
  let s := { s with lastOutbound := t }
  if assignedSeq ≠ 0 ∧ s.cfg.outboundHistorySize > 0 then
    let st :=
      if sendingTime = [] then ((b.find? fun kv => kv.1 = Tag.sendingTime).map Prod.snd).getD []
      else sendingTime
    (s.retainOutbound assignedSeq st bytes, bytes)
  else (s, bytes)

def initiateLogon (s : Session) : Session × WireOut :=
  { s with state := .logonSent }.buildMessage
    [(Tag.msgType, MsgType.logon), (108, decimalInt s.cfg.heartbeatSecs)]

def buildResendRequest (s : Session) (start : SeqNum) : Session × WireOut :=
  s.buildMessage
    [(Tag.msgType, MsgType.resendRequest), (Tag.beginSeqNo, dec start),
      (Tag.endSeqNo, ascii "0")]

def buildReject (s : Session) (ref : SeqNum) (reason : Bytes) : Session × WireOut :=
  s.buildMessage
    [(Tag.msgType, MsgType.reject), (Tag.refSeqNum, dec ref), (Tag.text, reason)]

def sendHeartbeat (s : Session) : Session × WireOut :=
  s.buildMessage [(Tag.msgType, MsgType.heartbeat)]

def sendLogout (s : Session) (text : Bytes) : Session × WireOut :=
  { s with state := .logoutSent }.buildMessage
    [(Tag.msgType, MsgType.logout), (Tag.text, text)]

def sendExecutionReport (s : Session) (body : Body) : Session × WireOut :=
  s.buildMessage ((Tag.msgType, MsgType.executionReport) :: body)

/-! ## Resending -/

/-- The GapFill that stands for `[cursor, newSeqNo)`. -/
def buildGapFill (s : Session) (cursor newSeqNo : SeqNum) : Session × WireOut :=
  let (s, t) := s.defaultNow
  (s, build s.soh
    [(Tag.msgType, MsgType.sequenceReset), (Tag.senderCompID, s.cfg.senderCompId),
      (Tag.targetCompID, s.cfg.targetCompId), (Tag.msgSeqNum, dec cursor), (Tag.sendingTime, t),
      (Tag.gapFillFlag, ascii "Y"), (Tag.possDupFlag, ascii "Y"), (Tag.newSeqNo, dec newSeqNo)])

/-- The fields a replay does not copy. -/
def skipped (t : Int) : Bool :=
  t = Tag.beginString ∨ t = Tag.bodyLength ∨ t = Tag.checkSum ∨ t = Tag.msgType ∨
    t = Tag.possDupFlag ∨ t = Tag.origSendingTime ∨ t = Tag.sendingTime

/-- The replay of a retained message, from its parse. -/
def buildReplay (s : Session) (rec : OutboundRecord) (m : Message) : Session × WireOut :=
  let mt : Body :=
    match m.get Tag.msgType with
    | some v => [(Tag.msgType, v)]
    | none => []
  let copied := (s.order.visit m.fields).filter fun kv => !skipped kv.1
  let (s, t) := s.defaultNow
  (s, build s.soh (mt ++ copied ++
    [(Tag.sendingTime, t), (Tag.origSendingTime, rec.sendingTime), (Tag.possDupFlag, ascii "Y")]))

/-- The walk over the ring. A message that does not parse is passed
over. -/
def replay (cursor stop : SeqNum) :
    List OutboundRecord → Session → Except Fault (Session × List WireOut)
  | [], s => .ok (s, [])
  | rec :: rest, s =>
    if rec.seq < cursor then replay cursor stop rest s
    else if rec.seq > stop then .ok (s, [])
    else
      match parseOne s.soh rec.bytes with
      | .error e => .error e
      | .ok pr =>
        if pr.err ≠ .none then replay cursor stop rest s
        else
          let (s, w) := s.buildReplay rec pr.msg
          match replay cursor stop rest s with
          | .error e => .error e
          | .ok (s, ws) => .ok (s, w :: ws)

/-- **Answer a ResendRequest** for `[start, stop]`. -/
def handleResendRequest (s : Session) (start stop : SeqNum) :
    Except Fault (Session × List WireOut) :=
  let stop := if stop = 0 then s.outSeq else stop
  if start = 0 ∨ start > stop ∨ start > s.outSeq then .ok (s, [])
  else
    let oldestRetained :=
      match s.history with
      | [] => s.outSeq + 1
      | rec :: _ => rec.seq
    let (s, gap, cursor) :=
      if start < oldestRetained then
        let newSeqNo := min oldestRetained (stop + 1)
        let (s, w) := s.buildGapFill start newSeqNo
        (s, [w], newSeqNo)
      else (s, [], start)
    if cursor > stop then .ok (s, gap)
    else
      match replay cursor stop s.history s with
      | .error e => .error e
      | .ok (s, ws) => .ok (s, gap ++ ws)

/-! ## Inbound messages -/

/-- The first message of a connection. -/
def admitLogon (s : Session) (m : Message) (seq : SeqNum) : Session × SessionStep :=
  if m.msgType ≠ MsgType.logon then (s, { disconnect := true })
  else
    let s :=
      if s.cfg.resetOnLogon then { s with inSeq := 0, outSeq := 0, history := [] } else s
    let (s, t) := s.steadyNow
    let s := { s with lastInbound := t }
    let (s, t) := s.steadyNow
    let s := { s with lastOutbound := t, testRequestOutstanding := false, timersArmed := true }
    if (m.get Tag.targetCompID).any (· ≠ s.cfg.senderCompId) then (s, { disconnect := true })
    else
      let s :=
        match m.get Tag.senderCompID with
        | some sender => { s with cfg := { s.cfg with targetCompId := sender } }
        | none => s
      let s := { s with inSeq := seq, state := .loggedIn }
      let (s, w) := s.buildMessage
        [(Tag.msgType, MsgType.logon), (108, decimalInt s.cfg.heartbeatSecs)]
      (s, { out := [w] })

/-- A number field of a message, 0 where there is none. -/
def number (m : Message) (t : Int) : Except Fault SeqNum :=
  match m.get t with
  | none => .ok 0
  | some v => stoull v

/-- A message in sequence. -/
def dispatch (s : Session) (m : Message) (seq : SeqNum) : Except Fault (Session × SessionStep) :=
  let mt := m.msgType
  if mt = MsgType.heartbeat then .ok (s, {})
  else if mt = MsgType.testRequest then
    let (s, w) := s.buildMessage
      [(Tag.msgType, MsgType.heartbeat), (Tag.testReqID, (m.get Tag.testReqID).getD [])]
    .ok (s, { out := [w] })
  else if mt = MsgType.resendRequest then
    match number m Tag.beginSeqNo with
    | .error e => .error e
    | .ok start =>
      match number m Tag.endSeqNo with
      | .error e => .error e
      | .ok stop =>
        match s.handleResendRequest start stop with
        | .error e => .error e
        | .ok (s, ws) => .ok (s, { out := ws })
  else if mt = MsgType.logout then
    let (s, out) :=
      if s.state ≠ .logoutSent then
        let (s, w) := s.sendLogout (ascii "acknowledged")
        (s, [w])
      else (s, [])
    .ok ({ s with state := .disconnected }, { out := out, disconnect := true })
  else if mt = MsgType.reject ∨ mt = MsgType.sequenceReset then .ok (s, {})
  else if mt = MsgType.newOrderSingle ∨ mt = MsgType.orderCancelRequest ∨
      mt = MsgType.orderCancelReplace then .ok (s, { app := [m] })
  else
    let (s, w) := s.buildReject seq (ascii "unsupported MsgType=" ++ mt)
    .ok (s, { out := [w] })

/-- **One inbound message.** -/
def handleMessage (s : Session) (m : Message) : Except Fault (Session × SessionStep) :=
  match m.seq with
  | .error e => .error e
  | .ok seq =>
    if s.state = .disconnected then .ok (s.admitLogon m seq)
    else
      let expected := s.inSeq + 1
      if seq > expected then
        let (s, w) := s.buildResendRequest expected
        .ok (s, { out := [w] })
      else if seq < expected ∧ seq ≠ 0 then
        let (s, w) := s.sendLogout (ascii "MsgSeqNum too low")
        .ok (s, { out := [w], disconnect := true })
      else { s with inSeq := seq }.dispatch m seq

/-- The loop of `on_bytes`. A message takes bytes off the buffer, so as
many rounds as it has bytes are enough. -/
def drain : ℕ → Session → SessionStep → Except Fault (Session × SessionStep)
  | 0, s, total => .ok (s, total)
  | fuel + 1, s, total =>
    if s.inBuf = [] then .ok (s, total)
    else
      match parseOne s.soh s.inBuf with
      | .error e => .error e
      | .ok pr =>
        if pr.err = .incomplete then .ok (s, total)
        else if pr.err ≠ .none then
          let (s, w) := s.sendLogout (ascii "malformed message")
          .ok ({ s with inBuf := [] }, { total with out := total.out ++ [w], disconnect := true })
        else
          let s := { s with inBuf := s.inBuf.drop pr.consumed }
          let (s, t) := s.steadyNow
          let s := { s with lastInbound := t, testRequestOutstanding := false }
          match s.handleMessage pr.msg with
          | .error e => .error e
          | .ok (s, step) =>
            let total := { total with out := total.out ++ step.out, app := total.app ++ step.app }
            if step.disconnect then .ok (s, { total with disconnect := true })
            else drain fuel s total

/-- **Inbound bytes.** -/
def onBytes (s : Session) (data : Bytes) : Except Fault (Session × SessionStep) :=
  let s := { s with inBuf := s.inBuf ++ data }
  drain s.inBuf.length s {}

/-! ## Timers -/

/-- A second of the steady clock. -/
def second : Int := 1000000000

/-- **A tick of the transport's timer.** -/
def tick (s : Session) (now : Int) : Session × SessionStep :=
  if s.state ≠ .loggedIn then (s, {})
  else if s.cfg.heartbeatSecs ≤ 0 then (s, {})
  else if !s.timersArmed then (s, {})
  else
    let hb := s.cfg.heartbeatSecs
    let testWindow := hb + hb / 2
    if !s.testRequestOutstanding ∧ now - s.lastInbound ≥ testWindow * second then
      let (s, w) := s.buildMessage
        [(Tag.msgType, MsgType.testRequest), (Tag.testReqID, ascii "tr-" ++ dec (s.outSeq + 1))]
      ({ s with testRequestAt := now, testRequestOutstanding := true }, { out := [w] })
    else if s.testRequestOutstanding ∧ now - s.testRequestAt ≥ testWindow * second then
      let (s, w) := s.sendLogout (ascii "heartbeat timeout")
      ({ s with testRequestOutstanding := false }, { out := [w], disconnect := true })
    else if now - s.lastOutbound ≥ hb * second then
      let (s, w) := s.sendHeartbeat
      (s, { out := [w] })
    else (s, {})

/-! ## Calls -/

/-- `reset_seq()`. The ring stays. -/
def resetSeq (s : Session) : Session := { s with inSeq := 0, outSeq := 0 }

/-- What a caller can ask of a session. -/
inductive Call where
  | initiateLogon
  | onBytes (data : Bytes)
  | sendExecutionReport (body : Body)
  | sendHeartbeat
  | sendLogout (text : Bytes)
  | resetSeq
  | tick (now : Int)
  deriving DecidableEq

/-- The step of a call that sends one message. -/
def sending (r : Session × WireOut) : Session × List SessionStep := (r.1, [{ out := [r.2] }])

/-- **One call.** -/
def perform (s : Session) : Call → Except Fault (Session × List SessionStep)
  | .initiateLogon => .ok (sending s.initiateLogon)
  | .onBytes data => (s.onBytes data).map fun r => (r.1, [r.2])
  | .sendExecutionReport body => .ok (sending (s.sendExecutionReport body))
  | .sendHeartbeat => .ok (sending s.sendHeartbeat)
  | .sendLogout text => .ok (sending (s.sendLogout text))
  | .resetSeq => .ok (s.resetSeq, [])
  | .tick now => .ok ((s.tick now).1, [(s.tick now).2])

end Session

end Fix

end OrderbookFix
