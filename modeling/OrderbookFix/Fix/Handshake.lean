import OrderbookFix.Common.Run
import OrderbookFix.Fix.Helpers.Exchange
/-!
# The Logon handshake

Two sessions joined by a channel of bytes each way. The initiator sends
its Logon and the acceptor answers with one of its own; but a session
that is waiting for that answer handles it as any message in sequence, and
a Logon is of no type it knows there. It sends a Reject, the acceptor
takes it, and the exchange is over: the numbers agree, and the initiator
is left waiting.
-/

namespace OrderbookFix

namespace Fix

/-! ## Two sessions -/

/-- **Two sessions and the bytes in flight between them.** -/
structure Pair where
  initiator : Session
  acceptor : Session
  toAcceptor : Bytes
  toInitiator : Bytes

/-- Some of the bytes in flight arrive. -/
inductive Delivery where
  | toAcceptor (n : ℕ)
  | toInitiator (n : ℕ)

namespace Pair

/-- **One delivery**: the session reads the bytes, and what it sends goes
to the end of the other channel. -/
def deliver (p : Pair) : Delivery → Except Fault (Pair × List SessionStep)
  | .toAcceptor n =>
    match p.acceptor.onBytes (p.toAcceptor.take n) with
    | .error e => .error e
    | .ok (s, step) =>
      .ok ({ p with
        acceptor := s
        toAcceptor := p.toAcceptor.drop n
        toInitiator := p.toInitiator ++ step.out.flatten }, [step])
  | .toInitiator n =>
    match p.initiator.onBytes (p.toInitiator.take n) with
    | .error e => .error e
    | .ok (s, step) =>
      .ok ({ p with
        initiator := s
        toInitiator := p.toInitiator.drop n
        toAcceptor := p.toAcceptor ++ step.out.flatten }, [step])

/-- Two sessions of which one has sent its Logon. -/
def opened (i a : Session) : Pair where
  initiator := i.initiateLogon.1
  acceptor := a
  toAcceptor := i.initiateLogon.2
  toInitiator := []

/-- Nothing is in flight. -/
def Quiet (p : Pair) : Prop := p.toAcceptor = [] ∧ p.toInitiator = []

/-- **The law of the handshake.** -/
structure Agreed (p : Pair) : Prop where
  initiator : p.initiator.state = .loggedIn
  acceptor : p.acceptor.state = .loggedIn
  inbound : p.initiator.inSeq = p.acceptor.outSeq
  outbound : p.acceptor.inSeq = p.initiator.outSeq

end Pair

/-! ## The three messages -/

/-- The fields of a first Logon. -/
def logonFields (sender target time : Bytes) (heartbeatSecs : Int) : Body :=
  [(Tag.msgType, MsgType.logon), (Tag.senderCompID, sender), (Tag.targetCompID, target),
    (Tag.msgSeqNum, dec 1), (Tag.sendingTime, time), (108, decimalInt heartbeatSecs)]

/-- The fields of the Reject of one. -/
def logonRejectFields (sender target time : Bytes) : Body :=
  [(Tag.msgType, MsgType.reject), (Tag.senderCompID, sender), (Tag.targetCompID, target),
    (Tag.msgSeqNum, dec 2), (Tag.sendingTime, time), (Tag.refSeqNum, dec 1),
    (Tag.text, ascii "unsupported MsgType=" ++ MsgType.logon)]

section Bodies

variable {soh : Soh} {sender target time : Bytes}

theorem logonFields_buildable {heartbeatSecs : Int} (hsender : soh.byte ∉ sender)
    (htarget : soh.byte ∉ target) (htime : soh.byte ∉ time) :
    Buildable soh.byte (logonFields sender target time heartbeatSecs) := by
  refine buildable_of_tags (by decide : BuildableTags [Tag.msgType, Tag.senderCompID,
    Tag.targetCompID, Tag.msgSeqNum, Tag.sendingTime, 108]) ?_
  simp only [logonFields, List.map_cons, List.map_nil, List.forall_mem_cons]
  exact ⟨by cases soh <;> decide, hsender, htarget, Session.notMem_dec _, htime,
    Session.notMem_decimalInt _, fun _ h => (by cases h)⟩

theorem logonRejectFields_buildable (hsender : soh.byte ∉ sender) (htarget : soh.byte ∉ target)
    (htime : soh.byte ∉ time) : Buildable soh.byte (logonRejectFields sender target time) := by
  refine buildable_of_tags (by decide : BuildableTags [Tag.msgType, Tag.senderCompID,
    Tag.targetCompID, Tag.msgSeqNum, Tag.sendingTime, Tag.refSeqNum, Tag.text]) ?_
  simp only [logonRejectFields, List.map_cons, List.map_nil, List.forall_mem_cons]
  exact ⟨by cases soh <;> decide, hsender, htarget, Session.notMem_dec _, htime,
    Session.notMem_dec _, by cases soh <;> decide, fun _ h => (by cases h)⟩

end Bodies

/-! ## An exchange of three messages -/

/-- **Three messages, each the answer to the one before.** -/
structure Exchange (i₁ i₂ a₀ a₁ a₂ : Session) (w₁ w₂ w₃ : Bytes) : Prop where
  first : Session.next a₀ w₁ = .take w₁.length a₁ { out := [w₂] }
  second : Session.next i₁ w₂ = .take w₂.length i₂ { out := [w₃] }
  third : Session.next a₁ w₃ = .take w₃.length a₂ {}
  fits : ∀ w ∈ [w₁, w₂, w₃], w ≠ [] ∧ w.length < 2 ^ 63

namespace Pair

variable {i₁ i₂ a₀ a₁ a₂ : Session} {w₁ w₂ w₃ : Bytes}

/-- **How far an exchange is**: one of the messages is on its way, part of
it read, or all are done. -/
inductive Phase (i₁ i₂ a₀ a₁ a₂ : Session) (w₁ w₂ w₃ : Bytes) (p : Pair) : Prop
  | first (buf : Bytes) (hi : p.initiator = i₁.withBuf []) (ha : p.acceptor = a₀.withBuf buf)
      (hw : buf ++ p.toAcceptor = w₁) (hopen : p.toAcceptor ≠ []) (hback : p.toInitiator = [])
  | second (buf : Bytes) (hi : p.initiator = i₁.withBuf buf) (ha : p.acceptor = a₁.withBuf [])
      (hw : buf ++ p.toInitiator = w₂) (hopen : p.toInitiator ≠ []) (hback : p.toAcceptor = [])
  | third (buf : Bytes) (hi : p.initiator = i₂.withBuf []) (ha : p.acceptor = a₁.withBuf buf)
      (hw : buf ++ p.toAcceptor = w₃) (hopen : p.toAcceptor ≠ []) (hback : p.toInitiator = [])
  | settled (hi : p.initiator = i₂.withBuf []) (ha : p.acceptor = a₂.withBuf [])
      (hto : p.toAcceptor = []) (hback : p.toInitiator = [])

section Deliver

variable {p : Pair} {n : ℕ}

/-- Nothing is in flight to the acceptor, and nothing is half read. -/
theorem deliver_toAcceptor_idle {s : Session} (ha : p.acceptor = s.withBuf [])
    (hto : p.toAcceptor = []) : p.deliver (.toAcceptor n) = .ok (p, [{}]) := by
  obtain ⟨i, a, out, back⟩ := p
  subst ha hto
  rw [deliver, List.take_nil]
  change Except.ok (_, _) = _
  rw [List.drop_nil]
  exact congrArg (fun b => Except.ok (Pair.mk i (s.withBuf []) [] b, [({} : SessionStep)]))
    (List.append_nil back)

theorem deliver_toInitiator_idle {s : Session} (hi : p.initiator = s.withBuf [])
    (hback : p.toInitiator = []) : p.deliver (.toInitiator n) = .ok (p, [{}]) := by
  obtain ⟨i, a, out, back⟩ := p
  subst hi hback
  rw [deliver, List.take_nil]
  change Except.ok (_, _) = _
  rw [List.drop_nil]
  exact congrArg (fun b => Except.ok (Pair.mk (s.withBuf []) a b [], [({} : SessionStep)]))
    (List.append_nil out)

/-- Bytes of a message to the acceptor. -/
theorem deliver_toAcceptor {s s' : Session} {w buf : Bytes} {step : SessionStep}
    (ha : p.acceptor = s.withBuf buf) (hw : buf ++ p.toAcceptor = w) (hlen : w.length < 2 ^ 63)
    (hn : Session.next s w = .take w.length s' step) :
    p.deliver (.toAcceptor n) =
      if p.toAcceptor.drop n = [] then
        .ok ({ p with
          acceptor := s'.withBuf []
          toAcceptor := []
          toInitiator := p.toInitiator ++ step.out.flatten }, [step])
      else
        .ok ({ p with
          acceptor := s.withBuf (buf ++ p.toAcceptor.take n)
          toAcceptor := p.toAcceptor.drop n }, [{}]) := by
  rw [deliver, ha, Session.onBytes_piece hw hlen hn]
  split_ifs with hrest
  · rw [hrest]
  · dsimp only
    rw [List.flatten_nil, List.append_nil]

theorem deliver_toInitiator {s s' : Session} {w buf : Bytes} {step : SessionStep}
    (hi : p.initiator = s.withBuf buf) (hw : buf ++ p.toInitiator = w) (hlen : w.length < 2 ^ 63)
    (hn : Session.next s w = .take w.length s' step) :
    p.deliver (.toInitiator n) =
      if p.toInitiator.drop n = [] then
        .ok ({ p with
          initiator := s'.withBuf []
          toInitiator := []
          toAcceptor := p.toAcceptor ++ step.out.flatten }, [step])
      else
        .ok ({ p with
          initiator := s.withBuf (buf ++ p.toInitiator.take n)
          toInitiator := p.toInitiator.drop n }, [{}]) := by
  rw [deliver, hi, Session.onBytes_piece hw hlen hn]
  split_ifs with hrest
  · rw [hrest]
  · dsimp only
    rw [List.flatten_nil, List.append_nil]

/-- The bytes read and those still in flight. -/
theorem append_take_drop {buf chan w : Bytes} (hw : buf ++ chan = w) (n : ℕ) :
    (buf ++ chan.take n) ++ chan.drop n = w := by
  rw [List.append_assoc, List.take_append_drop, hw]

/-- **A delivery keeps the exchange going.** -/
theorem Phase.deliver (hx : Exchange i₁ i₂ a₀ a₁ a₂ w₁ w₂ w₃)
    (h : Phase i₁ i₂ a₀ a₁ a₂ w₁ w₂ w₃ p) (d : Delivery) :
    ∃ p' steps, p.deliver d = .ok (p', steps) ∧ Phase i₁ i₂ a₀ a₁ a₂ w₁ w₂ w₃ p' := by
  have hfits := hx.fits
  simp only [List.forall_mem_cons] at hfits
  obtain ⟨⟨-, hlen₁⟩, ⟨hne₂, hlen₂⟩, ⟨hne₃, hlen₃⟩, -⟩ := hfits
  have hone : ∀ w : Bytes, [w].flatten = w := fun w => by
    rw [List.flatten_cons, List.flatten_nil, List.append_nil]
  -- A party moves on with the last byte of the message it awaits; until then it only buffers.
  cases h with
  | first buf hi ha hw hopen hback =>
    cases d with
    | toInitiator n =>
      exact ⟨p, _, deliver_toInitiator_idle hi hback, .first buf hi ha hw hopen hback⟩
    | toAcceptor n =>
      rw [deliver_toAcceptor ha hw hlen₁ hx.first]
      split_ifs with hrest
      · refine ⟨_, _, rfl, .second [] hi rfl ?_ ?_ rfl⟩
        · rw [hback]
          exact hone w₂
        · rw [hback]
          exact (hone w₂).symm ▸ hne₂
      · exact ⟨_, _, rfl, .first _ hi rfl (append_take_drop hw n) hrest hback⟩
  | second buf hi ha hw hopen hback =>
    cases d with
    | toAcceptor n =>
      exact ⟨p, _, deliver_toAcceptor_idle ha hback, .second buf hi ha hw hopen hback⟩
    | toInitiator n =>
      rw [deliver_toInitiator hi hw hlen₂ hx.second]
      split_ifs with hrest
      · refine ⟨_, _, rfl, .third [] rfl ha ?_ ?_ rfl⟩
        · rw [hback]
          exact hone w₃
        · rw [hback]
          exact (hone w₃).symm ▸ hne₃
      · exact ⟨_, _, rfl, .second _ rfl ha (append_take_drop hw n) hrest hback⟩
  | third buf hi ha hw hopen hback =>
    cases d with
    | toInitiator n =>
      exact ⟨p, _, deliver_toInitiator_idle hi hback, .third buf hi ha hw hopen hback⟩
    | toAcceptor n =>
      rw [deliver_toAcceptor ha hw hlen₃ hx.third]
      split_ifs with hrest
      · refine ⟨_, _, rfl, .settled hi rfl rfl ?_⟩
        rw [hback]
        rfl
      · exact ⟨_, _, rfl, .third _ hi rfl (append_take_drop hw n) hrest hback⟩
  | settled hi ha hto hback =>
    cases d with
    | toAcceptor n => exact ⟨p, _, deliver_toAcceptor_idle ha hto, .settled hi ha hto hback⟩
    | toInitiator n => exact ⟨p, _, deliver_toInitiator_idle hi hback, .settled hi ha hto hback⟩

/-- Each message delivered at once. -/
theorem exists_quiet (hx : Exchange i₁ i₂ a₀ a₁ a₂ w₁ w₂ w₃) :
    ∃ ds p steps, run deliver ⟨i₁.withBuf [], a₀.withBuf [], w₁, []⟩ ds = .ok (p, steps) ∧
      p.Quiet := by
  have hfits := hx.fits
  simp only [List.forall_mem_cons] at hfits
  obtain ⟨⟨-, hlen₁⟩, ⟨-, hlen₂⟩, ⟨-, hlen₃⟩, -⟩ := hfits
  have h₁ := @deliver_toAcceptor ⟨i₁.withBuf [], a₀.withBuf [], w₁, []⟩ w₁.length a₀ a₁ w₁ [] _ rfl
    rfl hlen₁ hx.first
  have h₂ := @deliver_toInitiator ⟨i₁.withBuf [], a₁.withBuf [], [], w₂⟩ w₂.length i₁ i₂ w₂ [] _ rfl
    rfl hlen₂ hx.second
  have h₃ := @deliver_toAcceptor ⟨i₂.withBuf [], a₁.withBuf [], w₃, []⟩ w₃.length a₁ a₂ w₃ [] _ rfl
    rfl hlen₃ hx.third
  rw [if_pos List.drop_length] at h₁ h₂ h₃
  dsimp only at h₁ h₂ h₃
  rw [List.flatten_cons, List.flatten_nil, List.append_nil, List.nil_append] at h₁ h₂
  refine ⟨[.toAcceptor w₁.length, .toInitiator w₂.length, .toAcceptor w₃.length],
    ⟨i₂.withBuf [], a₂.withBuf [], [], []⟩, [{ out := [w₂] }, { out := [w₃] }, {}], ?_, rfl, rfl⟩
  rw [run_cons_of_ok h₁, run_cons_of_ok h₂, run_cons_of_ok h₃]
  rfl

/-- Where nothing is in flight, the exchange is over. -/
theorem Phase.of_quiet (h : Phase i₁ i₂ a₀ a₁ a₂ w₁ w₂ w₃ p) (hq : p.Quiet) :
    p.initiator = i₂.withBuf [] ∧ p.acceptor = a₂.withBuf [] := by
  cases h with
  | first buf hi ha hw hopen hback => exact absurd hq.1 hopen
  | second buf hi ha hw hopen hback => exact absurd hq.2 hopen
  | third buf hi ha hw hopen hback => exact absurd hq.1 hopen
  | settled hi ha hto hback => exact ⟨hi, ha⟩

end Deliver

end Pair

namespace Session

/-! ## The sessions of a handshake -/

section Handshake

variable {s : Session} {peer time : Bytes} {heartbeatSecs : Int}

theorem logonTags_plain :
    PlainTags (([(108, decimalInt heartbeatSecs)] : Body).map Prod.fst) :=
  (by decide : PlainTags [108])

/-- The first message of a session, if it is a Logon. -/
theorem wireBody_logon (hout : s.outSeq = 0) :
    s.wireBody [(Tag.msgType, MsgType.logon), (108, decimalInt heartbeatSecs)] =
      logonFields s.cfg.senderCompId s.cfg.targetCompId
        (s.providers.now s.providers.nowCalls) heartbeatSecs := by
  rw [wireBody_eq logonTags_plain, headed, hout]
  rfl

/-- **The initiator sends its Logon** and waits. -/
theorem initiateLogon_spec (hout : s.outSeq = 0) :
    ∃ s', s.initiateLogon = (s', build s.soh (logonFields s.cfg.senderCompId s.cfg.targetCompId
        (s.providers.now s.providers.nowCalls) s.cfg.heartbeatSecs)) ∧
      s'.state = .logonSent ∧ s'.inSeq = s.inSeq ∧ s'.outSeq = 1 ∧ s'.inBuf = s.inBuf ∧
      s'.soh = s.soh ∧ s'.cfg = s.cfg ∧ s'.providers.now = s.providers.now ∧
      s'.providers.nowCalls = s.providers.nowCalls + 1 := by
  have hwire := @wireBody_logon { s with state := .logonSent } s.cfg.heartbeatSecs hout
  have hone : (sent { s with state := .logonSent } s.logonBody).outSeq = 1 := by
    rw [logonBody, outSeq_sent logonTags_plain, hout]
    rfl
  refine ⟨sent { s with state := .logonSent } s.logonBody, ?_, rfl, rfl, hone, rfl, rfl, rfl, rfl, rfl⟩
  rw [initiateLogon, buildMessage_eq, hwire]
  rfl

/-- **The acceptor answers the Logon** with its own. -/
theorem next_logon (hoff : s.state = .disconnected) (hout : s.outSeq = 0)
    (hb : Buildable s.soh.byte (logonFields peer s.cfg.senderCompId time heartbeatSecs))
    (hlen : (build s.soh (logonFields peer s.cfg.senderCompId time heartbeatSecs)).length <
      2 ^ 63) :
    ∃ s', next s (build s.soh (logonFields peer s.cfg.senderCompId time heartbeatSecs)) =
        .take (build s.soh (logonFields peer s.cfg.senderCompId time heartbeatSecs)).length s'
          { out := [build s.soh (logonFields s.cfg.senderCompId peer
              (s.providers.now s.providers.nowCalls) s.cfg.heartbeatSecs)] } ∧
      s'.state = .loggedIn ∧ s'.inSeq = 1 ∧ s'.outSeq = 1 ∧ s'.soh = s.soh := by
  set m := readBack s.soh (logonFields peer s.cfg.senderCompId time heartbeatSecs) with hm
  have hseq : m.seq = .ok 1 := seq_of_mem hb (by simp [logonFields])
  have htype : m.msgType = MsgType.logon := msgType_of_mem hb (by simp [logonFields])
  have hto : m.get Tag.targetCompID = some s.cfg.senderCompId :=
    get_of_mem hb (by simp [logonFields])
  have hfrom : m.get Tag.senderCompID = some peer := get_of_mem hb (by simp [logonFields])
  have hzero : (s.heard.accepting m 1).outSeq = 0 := by
    change (if s.cfg.resetOnLogon = true then 0 else s.outSeq) = 0
    rw [hout, ite_self]
  have htarget : (s.heard.accepting m 1).cfg.targetCompId = peer := by
    change (m.get Tag.senderCompID).getD s.cfg.targetCompId = peer
    rw [hfrom]
    rfl
  have hreply : (s.heard.accepting m 1).wireBody s.heard.logonBody =
      logonFields s.cfg.senderCompId peer (s.providers.now s.providers.nowCalls)
        s.cfg.heartbeatSecs := by
    rw [logonBody, wireBody_logon hzero, htarget]
    rfl
  have hh := handleMessage_logon_eq (s := s.heard) hoff hseq htype hto
  rw [hreply] at hh
  refine ⟨_, next_whole hb hlen hh rfl, rfl, rfl, ?_, rfl⟩
  rw [logonBody, outSeq_sent logonTags_plain, hzero]
  rfl

/-- **The initiator rejects the answer**: it is in sequence, and a Logon
is no message it knows. -/
theorem next_logon_reply {target : Bytes} (hstate : s.state = .logonSent) (hin : s.inSeq = 0)
    (hout : s.outSeq = 1)
    (hb : Buildable s.soh.byte (logonFields peer target time heartbeatSecs))
    (hlen : (build s.soh (logonFields peer target time heartbeatSecs)).length < 2 ^ 63) :
    ∃ s', next s (build s.soh (logonFields peer target time heartbeatSecs)) =
        .take (build s.soh (logonFields peer target time heartbeatSecs)).length s'
          { out := [build s.soh (logonRejectFields s.cfg.senderCompId s.cfg.targetCompId
              (s.providers.now s.providers.nowCalls))] } ∧
      s'.state = .logonSent ∧ s'.inSeq = 1 ∧ s'.outSeq = 2 := by
  set m := readBack s.soh (logonFields peer target time heartbeatSecs) with hm
  have hseq : m.seq = .ok (s.heard.inSeq + 1) := by
    rw [show s.heard.inSeq = 0 from hin]
    exact seq_of_mem hb (by simp [logonFields])
  have htype : m.msgType = MsgType.logon := msgType_of_mem hb (by simp [logonFields])
  have hon : s.heard.state ≠ .disconnected := fun h => by
    rw [show s.heard.state = .logonSent from hstate] at h
    cases h
  have hh := handleMessage_next hon hseq
  rw [dispatch_logon htype, show s.heard.inSeq = 0 from hin] at hh
  have htags : PlainTags (([(Tag.refSeqNum, dec 1),
      (Tag.text, ascii "unsupported MsgType=" ++ MsgType.logon)] : Body).map Prod.fst) :=
    (by decide : PlainTags [Tag.refSeqNum, Tag.text])
  have hreject : wireBody { s.heard with inSeq := 0 + 1 } (rejectBody m (0 + 1)) =
      logonRejectFields s.cfg.senderCompId s.cfg.targetCompId
        (s.providers.now s.providers.nowCalls) := by
    rw [rejectBody, htype]
    refine (wireBody_eq htags).trans ?_
    rw [headed]
    change _ :: _ :: _ :: (_, dec (s.outSeq + 1)) :: _ = _
    rw [hout]
    rfl
  rw [hreject] at hh
  refine ⟨_, next_whole hb hlen hh rfl, hstate, rfl, ?_⟩
  rw [rejectBody, htype]
  refine (outSeq_sent htags).trans ?_
  change s.outSeq + 1 = 2
  rw [hout]
  rfl

/-- The acceptor takes the Reject. -/
theorem next_logon_reject {target : Bytes} (hstate : s.state = .loggedIn) (hin : s.inSeq = 1)
    (hb : Buildable s.soh.byte (logonRejectFields peer target time))
    (hlen : (build s.soh (logonRejectFields peer target time)).length < 2 ^ 63) :
    ∃ s', next s (build s.soh (logonRejectFields peer target time)) =
        .take (build s.soh (logonRejectFields peer target time)).length s' {} ∧
      s'.state = .loggedIn ∧ s'.inSeq = 2 ∧ s'.outSeq = s.outSeq := by
  set m := readBack s.soh (logonRejectFields peer target time) with hm
  have hseq : m.seq = .ok (s.heard.inSeq + 1) := by
    rw [show s.heard.inSeq = 1 from hin]
    exact seq_of_mem hb (by simp [logonRejectFields])
  have htype : m.msgType = MsgType.reject := msgType_of_mem hb (by simp [logonRejectFields])
  have hon : s.heard.state ≠ .disconnected := fun h => by
    rw [show s.heard.state = .loggedIn from hstate] at h
    cases h
  have hh := handleMessage_next hon hseq
  rw [dispatch_reject htype, show s.heard.inSeq = 1 from hin] at hh
  exact ⟨_, next_whole hb hlen hh rfl, hstate, rfl, rfl⟩

end Handshake

end Session

/-! ## Every schedule -/

/-- **The exchange between two sessions with matching CompIDs**: the
Logon, its answer, and the Reject of that; and the sessions at its end. -/
theorem exists_exchange {cfgI cfgA : SessionConfig} {soh : Soh} {orderI orderA : FieldOrder}
    {nowI nowA : ℕ → Bytes} {clockI clockA : ℕ → Int}
    (hmatch : cfgI.targetCompId = cfgA.senderCompId) (hi : soh.byte ∉ cfgI.senderCompId)
    (ha : soh.byte ∉ cfgA.senderCompId) (hnowI : ∀ n, soh.byte ∉ nowI n)
    (hnowA : ∀ n, soh.byte ∉ nowA n)
    (hfits : ∀ body ∈ [logonFields cfgI.senderCompId cfgI.targetCompId (nowI 0) cfgI.heartbeatSecs,
        logonFields cfgA.senderCompId cfgI.senderCompId (nowA 0) cfgA.heartbeatSecs,
        logonRejectFields cfgI.senderCompId cfgI.targetCompId (nowI 1)],
      (build soh body).length < 2 ^ 63) :
    ∃ i₁ i₂ a₁ a₂ w₁ w₂ w₃,
      Exchange i₁ i₂ (makeSession cfgA soh orderA nowA clockA) a₁ a₂ w₁ w₂ w₃ ∧
      Pair.opened (makeSession cfgI soh orderI nowI clockI)
        (makeSession cfgA soh orderA nowA clockA) =
          ⟨i₁.withBuf [], (makeSession cfgA soh orderA nowA clockA).withBuf [], w₁, []⟩ ∧
      i₂.state = .logonSent ∧ a₂.state = .loggedIn ∧ i₂.inSeq = a₂.outSeq ∧
      a₂.inSeq = i₂.outSeq := by
  simp only [List.forall_mem_cons] at hfits
  obtain ⟨hlen₁, hlen₂, hlen₃, -⟩ := hfits
  rw [hmatch] at hlen₁ hlen₃
  have hb₁ := @logonFields_buildable soh _ _ _ cfgI.heartbeatSecs hi ha (hnowI 0)
  have hb₂ := @logonFields_buildable soh _ _ _ cfgA.heartbeatSecs ha hi (hnowA 0)
  have hb₃ := logonRejectFields_buildable hi ha (hnowI 1)
  set i₀ := makeSession cfgI soh orderI nowI clockI with hi₀
  set a₀ := makeSession cfgA soh orderA nowA clockA with ha₀
  obtain ⟨i₁, hopen, histate, hiin, hiout, hibuf, hisoh, hicfg, hinow, hicalls⟩ :=
    @Session.initiateLogon_spec i₀ rfl
  obtain ⟨a₁, hfirst, hastate, hain, haout, hasoh⟩ :=
    @Session.next_logon a₀ _ _ _ rfl rfl hb₁ hlen₁
  have hisoh' : i₁.soh = soh := hisoh
  have hasoh' : a₁.soh = soh := hasoh
  obtain ⟨i₂, hsecond, histate₂, hiin₂, hiout₂⟩ := @Session.next_logon_reply i₁ _ _ _ _ histate hiin
    hiout (hisoh'.symm ▸ hb₂) (hisoh'.symm ▸ hlen₂)
  obtain ⟨a₂, hthird, hastate₂, hain₂, haout₂⟩ := @Session.next_logon_reject a₁ _ _ _ hastate hain
    (hasoh'.symm ▸ hb₃) (hasoh'.symm ▸ hlen₃)
  rw [hisoh', hicfg, hinow, hicalls] at hsecond
  rw [hasoh'] at hthird
  have hne : ∀ body, build soh body ≠ [] := fun body hnil => by
    have := length_build soh body
    rw [hnil, List.length_nil] at this
    omega
  refine ⟨i₁, i₂, a₁, a₂,
    build soh (logonFields cfgI.senderCompId cfgA.senderCompId (nowI 0) cfgI.heartbeatSecs),
    build soh (logonFields cfgA.senderCompId cfgI.senderCompId (nowA 0) cfgA.heartbeatSecs),
    build soh (logonRejectFields cfgI.senderCompId cfgA.senderCompId (nowI 1)),
    ⟨hfirst, ?_, hthird, ?_⟩, ?_, histate₂, hastate₂, hiin₂.trans (haout₂.trans haout).symm,
    hain₂.trans hiout₂.symm⟩
  · rw [hsecond, ← hmatch]
    rfl
  · simp only [List.forall_mem_cons]
    exact ⟨⟨hne _, hlen₁⟩, ⟨hne _, hlen₂⟩, ⟨hne _, hlen₃⟩, fun _ h => (by cases h)⟩
  · have hbuf : i₁.withBuf [] = i₁ := by
      rw [← show i₁.inBuf = [] from hibuf]
      rfl
    rw [Pair.opened, hopen, hbuf, ← hmatch]
    rfl

/-- **The handshake never completes.** For every two new sessions with
matching CompIDs and every way to deliver the bytes in flight, the
deliveries can be made, some of them empty both channels, and whenever
both are empty the numbers agree and the acceptor is logged on, but the
initiator still waits for its Logon to be answered. The messages fit
strings. -/
theorem handshake_never_agreed (cfgI cfgA : SessionConfig) (soh : Soh) (orderI orderA : FieldOrder)
    (nowI nowA : ℕ → Bytes) (clockI clockA : ℕ → Int)
    (hmatch : cfgI.targetCompId = cfgA.senderCompId) (hi : soh.byte ∉ cfgI.senderCompId)
    (ha : soh.byte ∉ cfgA.senderCompId) (hnowI : ∀ n, soh.byte ∉ nowI n)
    (hnowA : ∀ n, soh.byte ∉ nowA n)
    (hfits : ∀ body ∈ [logonFields cfgI.senderCompId cfgI.targetCompId (nowI 0) cfgI.heartbeatSecs,
        logonFields cfgA.senderCompId cfgI.senderCompId (nowA 0) cfgA.heartbeatSecs,
        logonRejectFields cfgI.senderCompId cfgI.targetCompId (nowI 1)],
      (build soh body).length < 2 ^ 63) :
    (∃ ds p steps, run Pair.deliver (Pair.opened (makeSession cfgI soh orderI nowI clockI)
        (makeSession cfgA soh orderA nowA clockA)) ds = .ok (p, steps) ∧ p.Quiet) ∧
      ∀ ds, ∃ p steps, run Pair.deliver (Pair.opened (makeSession cfgI soh orderI nowI clockI)
          (makeSession cfgA soh orderA nowA clockA)) ds = .ok (p, steps) ∧
        (p.Quiet → ¬ p.Agreed ∧ p.initiator.state = .logonSent ∧ p.acceptor.state = .loggedIn ∧
          p.initiator.inSeq = p.acceptor.outSeq ∧ p.acceptor.inSeq = p.initiator.outSeq) := by
  obtain ⟨i₁, i₂, a₁, a₂, w₁, w₂, w₃, hx, hstart, hstateI, hstateA, hin, hout⟩ :=
    @exists_exchange cfgI cfgA soh orderI orderA nowI nowA clockI clockA hmatch hi ha hnowI hnowA
      hfits
  rw [hstart]
  refine ⟨Pair.exists_quiet hx, fun ds => ?_⟩
  have hne : w₁ ≠ [] := (hx.fits w₁ (List.mem_cons_self ..)).1
  obtain ⟨p, steps, hrun, hphase⟩ := run_returns (fun p d h => Pair.Phase.deliver hx h d)
    (Pair.Phase.first (p := ⟨i₁.withBuf [], _, w₁, []⟩) [] rfl rfl rfl hne rfl) ds
  refine ⟨p, steps, hrun, fun hquiet => ?_⟩
  obtain ⟨hp, hq⟩ := hphase.of_quiet hquiet
  have hwait : p.initiator.state = .logonSent := by
    rw [hp]
    exact hstateI
  refine ⟨fun hagreed => ?_, hwait, ?_, ?_, ?_⟩
  · rw [hagreed.initiator] at hwait
    cases hwait
  · rw [hq]
    exact hstateA
  · rw [hp, hq]
    exact hin
  · rw [hp, hq]
    exact hout

/-- The settings of a client of the test session. -/
def testClient : SessionConfig where
  senderCompId := ascii "CLIENT"
  targetCompId := ascii "OBFIX"

/-- The test session and its client. -/
theorem handshake_never_agreed_test_session :
    (∃ ds p steps, run Pair.deliver (Pair.opened
        (makeSession testClient .text .stored (fun _ => ascii "20260513-00:00:00.000") fun _ => 0)
        testSession) ds = .ok (p, steps) ∧ p.Quiet) ∧
      ∀ ds, ∃ p steps, run Pair.deliver (Pair.opened
          (makeSession testClient .text .stored (fun _ => ascii "20260513-00:00:00.000") fun _ => 0)
          testSession) ds = .ok (p, steps) ∧
        (p.Quiet → ¬ p.Agreed ∧ p.initiator.state = .logonSent ∧ p.acceptor.state = .loggedIn ∧
          p.initiator.inSeq = p.acceptor.outSeq ∧ p.acceptor.inSeq = p.initiator.outSeq) :=
  handshake_never_agreed testClient _ .text .stored .stored _ _ _ _ rfl (by decide) (by decide)
    (fun _ => (by decide)) (fun _ => (by decide)) (by decide +kernel)

/-- **An initiator left waiting.** The Logon arrives in two pieces, its
answer and the Reject of that in one each; nothing is in flight any
more. -/
theorem initiator_left_waiting :
    ∃ p steps, run Pair.deliver (Pair.opened
        (makeSession testClient .text .stored (fun _ => ascii "20260513-00:00:00.000") fun _ => 0)
        testSession)
        [.toAcceptor 30, .toAcceptor 1000, .toInitiator 1000, .toAcceptor 1000] = .ok (p, steps) ∧
      p.Quiet ∧ p.initiator.state = .logonSent ∧ ¬ p.Agreed := by
  have hcheck : passes (fun r => decide (r.1.toAcceptor = [] ∧ r.1.toInitiator = [] ∧
      r.1.initiator.state = .logonSent))
      (run Pair.deliver (Pair.opened
        (makeSession testClient .text .stored (fun _ => ascii "20260513-00:00:00.000") fun _ => 0)
        testSession)
        [.toAcceptor 30, .toAcceptor 1000, .toInitiator 1000, .toAcceptor 1000]) = true := by
    decide +kernel
  obtain ⟨p, steps, hrun, hp⟩ := exists_of_run_check hcheck
  obtain ⟨hto, hback, hstate⟩ := of_decide_eq_true hp
  refine ⟨p, steps, hrun, ⟨hto, hback⟩, hstate, fun hagreed => ?_⟩
  rw [hagreed.initiator] at hstate
  cases hstate

end Fix

end OrderbookFix
