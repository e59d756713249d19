import OrderbookFix.Fix.Helpers.Speech
import OrderbookFix.Fix.Model.Conversation
/-!
# Two sessions stay in step

From the first Logon to the last Logout, whatever the owners send, however
the timers go and in whatever pieces the bytes arrive: each end has taken
the first messages of the other, whole and in order, and the rest is in
flight. Neither ever asks for a resend, and an end closes only for a
Logout, which closes the other as well.
-/

namespace OrderbookFix

namespace Fix

theorem End.other_ne (e : End) : e.other ≠ e := by cases e <;> decide

theorem End.other_other (e : End) : e.other.other = e := by cases e <;> rfl

theorem End.eq_or_other (e e' : End) : e' = e ∨ e' = e.other := by cases e <;> cases e' <;> decide

/-! ## What an owner may do -/

/-- **The calls of an owner**: nothing is sent before the session is on, a
report has fields of its own only, and no text holds the separator. -/
def Session.MayCall (s : Session) : Session.Call → Prop
  | .sendExecutionReport body =>
    s.state ≠ .disconnected ∧ PlainTags (body.map Prod.fst) ∧
      ∀ v ∈ body.map Prod.snd, s.soh.byte ∉ v
  | .sendHeartbeat => s.state ≠ .disconnected
  | .sendLogout text => s.state ≠ .disconnected ∧ s.soh.byte ∉ text
  | .tick _ => True
  | .initiateLogon | .onBytes _ | .resetSeq => False

instance (s : Session) (call : Session.Call) : Decidable (s.MayCall call) :=
  match call with
  | .sendExecutionReport _ => inferInstanceAs (Decidable (_ ∧ _ ∧ _))
  | .sendHeartbeat => inferInstanceAs (Decidable (_ ≠ _))
  | .sendLogout _ => inferInstanceAs (Decidable (_ ∧ _))
  | .tick _ => inferInstanceAs (Decidable True)
  | .initiateLogon => inferInstanceAs (Decidable False)
  | .onBytes _ => inferInstanceAs (Decidable False)
  | .resetSeq => inferInstanceAs (Decidable False)

namespace Conversation

/-- Fewer bytes are on their way to an end than an offset can count. -/
def Fits (c : Conversation) (e : End) : Prop :=
  ((c.session e).inBuf ++ c.inFlight e).length < 2 ^ 63

instance (c : Conversation) (e : End) : Decidable (c.Fits e) := inferInstanceAs (Decidable (_ < _))

/-- The moves that are open to owners and the network. -/
def Proper (c : Conversation) (m : Move) : Prop :=
  c.Fits .initiator ∧ c.Fits .acceptor ∧
    match m with
    | .deliver _ _ => True
    | .call e call => (c.session e).MayCall call

instance (c : Conversation) (m : Move) : Decidable (c.Proper m) :=
  match m with
  | .deliver _ _ => inferInstanceAs (Decidable (_ ∧ _ ∧ True))
  | .call e call => inferInstanceAs (Decidable (_ ∧ _ ∧ (c.session e).MayCall call))

theorem calls_of_ok {c : Conversation} {e : End} {call : Session.Call} {s : Session}
    {steps : List SessionStep} (h : (c.session e).perform call = .ok (s, steps)) :
    c.calls e call =
      .ok ({ party := Function.update c.party e ⟨s, steps.any SessionStep.disconnect⟩
             inFlight := Function.update c.inFlight e.other
               (c.inFlight e.other ++ (steps.flatMap SessionStep.out).flatten) },
        steps.map fun step => (e, step)) := by
  rw [calls, h]

end Conversation

namespace Session

/-- What a call of an owner does to a session. -/
structure Calls (peer : Bytes) (s s' : Session) (steps : List SessionStep) (ms : List Bytes) :
    Prop where
  sends : Sends peer s s' ms (steps.flatMap SessionStep.out)
  inSeq : s'.inSeq = s.inSeq
  inBuf : s'.inBuf = s.inBuf
  peer : s'.cfg.targetCompId = s.cfg.targetCompId
  off : s.state = .disconnected → s' = s
  on : s.state ≠ .disconnected → s'.state ≠ .disconnected
  parting : s'.state = .logoutSent → s.state = .logoutSent ∨ MsgType.logout ∈ ms
  goes : steps.any SessionStep.disconnect = true → MsgType.logout ∈ ms

section Calls

variable {peer : Bytes} {s : Session}

/-- A message that leaves the session on. -/
theorem calls_sent {mt : Bytes} {rest : Body} {s' : Session} (hu : s.Unbroken)
    (hpeer : s.cfg.targetCompId = peer) (hon : s.state ≠ .disconnected) (hmt : mt ∈ spokenTypes)
    (htags : PlainTags (rest.map Prod.fst))
    (hvalues : ∀ v ∈ mt :: rest.map Prod.snd, s.soh.byte ∉ v)
    (hs' : ∃ at' out', s' = { s.sent ((Tag.msgType, mt) :: rest) with
      testRequestAt := at', testRequestOutstanding := out' }) :
    Calls peer s s' [{ out := [build s.soh (s.wireBody ((Tag.msgType, mt) :: rest))] }] [mt] := by
  obtain ⟨at', out', rfl⟩ := hs'
  have hsends := Sends.sent hu hmt htags hvalues
  rw [hpeer] at hsends
  exact {
    sends := ⟨hsends.soh, hsends.sender, ⟨hu.sender, hu.target, hu.now⟩, hsends.row⟩
    inSeq := rfl
    inBuf := rfl
    peer := rfl
    off := fun h => absurd h hon
    on := fun _ => hon
    parting := .inl
    goes := fun h => by cases h }

/-- A Logout. -/
theorem calls_logout {text : Bytes} {s' : Session} {bye : Bool} (hu : s.Unbroken)
    (hpeer : s.cfg.targetCompId = peer) (hon : s.state ≠ .disconnected) (htext : s.soh.byte ∉ text)
    (hs' : ∃ out', s' = { s.leaving.sent (logoutBody text) with testRequestOutstanding := out' }) :
    Calls peer s s'
      [{ out := [build s.soh (s.leaving.wireBody (logoutBody text))]
         disconnect := bye }] [MsgType.logout] := by
  obtain ⟨out', rfl⟩ := hs'
  have hu' : s.leaving.Unbroken := ⟨hu.sender, hu.target, hu.now⟩
  obtain ⟨mt, rest, hbody, hsends⟩ := Sends.own (s := s.leaving) hu'
    (@Own.logout s.soh _ htext) fun mt rest he => by
      rw [← (Prod.mk.inj (List.cons.inj he).1).2]
      decide
  obtain rfl := (Prod.mk.inj (List.cons.inj hbody).1).2
  have hpeer' : s.leaving.cfg.targetCompId = peer := hpeer
  rw [hpeer'] at hsends
  exact {
    sends := ⟨rfl, rfl, ⟨hu.sender, hu.target, hu.now⟩, hsends.row⟩
    inSeq := rfl
    inBuf := rfl
    peer := rfl
    off := fun h => absurd h hon
    on := fun _ h => by cases h
    parting := fun _ => .inr (List.mem_singleton_self _)
    goes := fun _ => List.mem_singleton_self _ }

/-- A call that does nothing. -/
theorem calls_idle (hu : s.Unbroken) : Calls peer s s [{}] [] where
  sends := .silent hu rfl rfl rfl
  inSeq := rfl
  inBuf := rfl
  peer := rfl
  off _ := rfl
  on := id
  parting := .inl
  goes h := by cases h

/-- **The timers**: nothing, a TestRequest, a Heartbeat, or a Logout that
closes the connection. -/
theorem tick_calls (hu : s.Unbroken) (hpeer : s.state ≠ .disconnected → s.cfg.targetCompId = peer)
    (now : Int) : ∃ ms, Calls peer s (s.tick now).1 [(s.tick now).2] ms := by
  obtain ⟨s', step, heq⟩ : ∃ s' step, s.tick now = (s', step) := ⟨_, _, rfl⟩
  rw [heq]
  have hon : s.Timed → s.state ≠ .disconnected := fun h he => by
    have := h.on
    rw [he] at this
    cases this
  cases tick_ticksAt heq with
  | off h => exact ⟨[], calls_idle hu⟩
  | idle h => exact ⟨[], calls_idle hu⟩
  | testRequest h =>
    obtain ⟨mt, rest, hbody, htags, hvalues⟩ :=
      (@Own.testRequest s.soh (s.outSeq + 1)).plain
    obtain ⟨hmt, rfl⟩ := List.cons.inj hbody
    obtain rfl := (Prod.mk.inj hmt).2
    exact ⟨_, calls_sent hu (hpeer (hon h)) (hon h) (by decide) htags hvalues ⟨_, _, rfl⟩⟩
  | heartbeat h =>
    obtain ⟨mt, rest, hbody, htags, hvalues⟩ := (@Own.heartbeat s.soh).plain
    obtain ⟨hmt, rfl⟩ := List.cons.inj hbody
    obtain rfl := (Prod.mk.inj hmt).2
    exact ⟨_, calls_sent hu (hpeer (hon h)) (hon h) (by decide) htags hvalues ⟨_, _, rfl⟩⟩
  | timeout h =>
    exact ⟨_, calls_logout hu (hpeer (hon h)) (hon h) (by cases s.soh <;> decide) ⟨_, rfl⟩⟩

/-- **Any call of an owner.** -/
theorem perform_calls {call : Session.Call} (hu : s.Unbroken)
    (hpeer : s.state ≠ .disconnected → s.cfg.targetCompId = peer) (hmay : s.MayCall call) :
    ∃ s' steps ms, s.perform call = .ok (s', steps) ∧ Calls peer s s' steps ms := by
  cases call with
  | sendExecutionReport body =>
    obtain ⟨hon, htags, hvalues⟩ := hmay
    have heq : s.sendExecutionReport body = _ := buildMessage_eq s _
    refine ⟨_, _, _, by rw [perform, heq]; rfl, calls_sent hu (hpeer hon) hon
      (by decide : MsgType.executionReport ∈ spokenTypes) htags ?_ ⟨_, _, rfl⟩⟩
    rw [List.forall_mem_cons]
    exact ⟨by cases s.soh <;> decide, hvalues⟩
  | sendHeartbeat =>
    have heq : s.sendHeartbeat = _ := buildMessage_eq s _
    refine ⟨_, _, _, by rw [perform, heq]; rfl, calls_sent hu (hpeer hmay) hmay
      (by decide : MsgType.heartbeat ∈ spokenTypes) (by decide) ?_ ⟨_, _, rfl⟩⟩
    rw [List.forall_mem_cons]
    exact ⟨by cases s.soh <;> decide, fun _ h => by cases h⟩
  | sendLogout text =>
    have heq : s.sendLogout text = _ := buildMessage_eq s.leaving _
    exact ⟨_, _, _, by rw [perform, heq]; rfl,
      calls_logout hu (hpeer hmay.1) hmay.1 hmay.2 ⟨_, rfl⟩⟩
  | tick now =>
    obtain ⟨ms, h⟩ := tick_calls hu hpeer now
    exact ⟨_, _, ms, rfl, h⟩
  | initiateLogon => exact hmay.elim
  | onBytes data => exact hmay.elim
  | resetSeq => exact hmay.elim

end Calls

end Session

open Session

/-! ## The invariant -/

/-- **What has arrived and what is in flight** to a session, of the
messages the other end has sent: `said` are their types, and `flying`
those of the messages not yet taken. `parting` says that the other end has
left or is about to; then its Logout is in flight. -/
def Receiving (soh : Soh) (sender me : Bytes) (s : Session) (inFlight : Bytes) (n : SeqNum)
    (said flying : List Bytes) (sent : List WireOut) (parting : Prop) : Prop :=
  ∃ ms₁ ws₁ ws₂, said = ms₁ ++ flying ∧ sent = ws₁ ++ ws₂ ∧
    Row soh sender me 0 ms₁ ws₁ s.inSeq ∧ Row soh sender me s.inSeq flying ws₂ n ∧
    Listens sender s flying ∧ s.inBuf ++ inFlight = ws₂.flatten ∧ (inFlight = [] → ws₂ = []) ∧
    (parting → MsgType.logout ∈ flying)

/-- **Two sessions in step.** -/
structure Conversing (soh : Soh) (name : End → Bytes) (c : Conversation)
    (said flying : End → List Bytes) (sent : End → List WireOut) : Prop where
  separator : ∀ e, (c.session e).soh = soh
  sender : ∀ e, (c.session e).cfg.senderCompId = name e
  unbroken : ∀ e, (c.session e).Unbroken
  row : ∀ e, Row soh (name e) (name e.other) 0 (said e) (sent e) (c.session e).outSeq
  receiving : ∀ e, c.closed e = false →
    Receiving soh (name e.other) (name e) (c.session e) (c.inFlight e) (c.session e.other).outSeq
      (said e.other) (flying e) (sent e.other)
      (c.closed e.other = true ∨ (c.session e.other).state = .logoutSent)
  /-- the end that dialled is on from the start -/
  dialler : c.closed .initiator = false → (c.session .initiator).state ≠ .disconnected
  cause : ∀ e, c.closed e = true → ∃ e', MsgType.logout ∈ said e'

namespace Conversing

variable {soh : Soh} {name : End → Bytes} {c : Conversation} {said flying : End → List Bytes}
  {sent : End → List WireOut} {e : End}

/-- **An end acts**: it sends a row, and what it had still to receive is
as `hin` says unless it closes. -/
theorem acts (h : Conversing soh name c said flying sent) (hopen : c.closed e = false)
    (bye : Bool) (inFlight : Bytes) (ms₂ : List Bytes) {s' : Session} {ms : List Bytes}
    {ws : List WireOut} (hsends : Sends (name e.other) (c.session e) s' ms ws)
    (hpart : bye = true ∨ s'.state = .logoutSent →
      (c.session e).state = .logoutSent ∨ MsgType.logout ∈ ms)
    (hcause : bye = true → MsgType.logout ∈ ms ∨ MsgType.logout ∈ said e.other)
    (hon : bye = false → (c.session e).state ≠ .disconnected → s'.state ≠ .disconnected)
    (hin : bye = false → Receiving soh (name e.other) (name e) s' inFlight
      (c.session e.other).outSeq (said e.other) ms₂ (sent e.other)
      (c.closed e.other = true ∨ (c.session e.other).state = .logoutSent)) :
    Conversing soh name
      { party := Function.update c.party e ⟨s', bye⟩
        inFlight := Function.update (Function.update c.inFlight e inFlight) e.other
          (c.inFlight e.other ++ ws.flatten) }
      (Function.update said e (said e ++ ms))
      (Function.update (Function.update flying e ms₂) e.other (flying e.other ++ ms))
      (Function.update sent e (sent e ++ ws)) := by
  have hne := e.other_ne
  have hrow := hsends.row
  rw [h.separator, h.sender] at hrow
  -- every fact is about this end, which has moved on, or the other, which has not
  refine ⟨fun e' => ?_, fun e' => ?_, fun e' => ?_, fun e' => ?_, fun e' hopen' => ?_,
    fun hopen' => ?_, fun e' hclosed => ?_⟩
  · rcases e.eq_or_other e' with rfl | rfl
    · simpa [Conversation.session] using hsends.soh.trans (h.separator e')
    · simpa [Conversation.session, hne] using h.separator e.other
  · rcases e.eq_or_other e' with rfl | rfl
    · simpa [Conversation.session] using hsends.sender.trans (h.sender e')
    · simpa [Conversation.session, hne] using h.sender e.other
  · rcases e.eq_or_other e' with rfl | rfl
    · simpa [Conversation.session] using hsends.unbroken
    · simpa [Conversation.session, hne] using h.unbroken e.other
  · rcases e.eq_or_other e' with rfl | rfl
    · simpa [Conversation.session] using (h.row e').append hrow
    · simpa [Conversation.session, hne] using h.row e.other
  · rcases e.eq_or_other e' with rfl | rfl
    · have hbye : bye = false := by simpa [Conversation.closed] using hopen'
      simpa [Conversation.session, Conversation.closed, hne, hne.symm] using hin hbye
    · have hopen₀ : c.closed e.other = false := by
        simpa [Conversation.closed, hne] using hopen'
      obtain ⟨ms₁, ws₁, ws₂, hsaid, hsent, hrow₁, hrow₂, hl, hbuf, hnil, hlogout⟩ :=
        h.receiving e.other hopen₀
      rw [e.other_other] at *
      have : Receiving soh (name e) (name e.other) (c.session e.other)
          (c.inFlight e.other ++ ws.flatten) s'.outSeq (said e ++ ms) (flying e.other ++ ms)
          (sent e ++ ws) (bye = true ∨ s'.state = .logoutSent) := by
        refine ⟨ms₁, ws₁, ws₂ ++ ws, ?_, ?_, hrow₁, hrow₂.append hrow, ?_, ?_, ?_, ?_⟩
        · rw [hsaid, List.append_assoc]
        · rw [hsent, List.append_assoc]
        · refine hl.imp id fun ⟨hoff, hout, hhead⟩ => ⟨hoff, hout, ?_⟩
          rw [List.head?_append, hhead]
          rfl
        · rw [List.flatten_append, ← List.append_assoc, hbuf]
        · intro hboth
          obtain ⟨hold, hnew⟩ := List.append_eq_nil_iff.mp hboth
          rw [hnil hold, hrow.eq_nil_of_flatten hnew]
          rfl
        · intro hp
          rcases hpart hp with hstate | hms
          · exact List.mem_append_left _ (hlogout (.inr hstate))
          · exact List.mem_append_right _ hms
      simpa [Conversation.session, Conversation.closed, hne, hne.symm] using this
  · rcases e.eq_or_other .initiator with rfl | he
    · have hbye : bye = false := by simpa [Conversation.closed] using hopen'
      simpa [Conversation.session] using hon hbye (h.dialler hopen)
    · rw [he] at hopen' ⊢
      have hopen₀ : c.closed e.other = false := by
        simpa [Conversation.closed, hne] using hopen'
      have hstate := h.dialler (he ▸ hopen₀)
      rw [he] at hstate
      simpa [Conversation.session, hne] using hstate
  · rcases e.eq_or_other e' with rfl | rfl
    · have hbye : bye = true := by simpa [Conversation.closed] using hclosed
      rcases hcause hbye with hms | hsaid
      · exact ⟨e', by simp [hms]⟩
      · exact ⟨e'.other, by simpa [hne] using hsaid⟩
    · have hclosed₀ : c.closed e.other = true := by
        simpa [Conversation.closed, hne] using hclosed
      obtain ⟨e', he'⟩ := h.cause e.other hclosed₀
      refine ⟨e', ?_⟩
      by_cases hee : e' = e
      · subst hee
        simp [he']
      · simpa [hee] using he'

/-- The peer of a session that is on. -/
theorem peer (h : Conversing soh name c said flying sent) (hopen : c.closed e = false)
    (hon : (c.session e).state ≠ .disconnected) :
    (c.session e).cfg.targetCompId = name e.other := by
  obtain ⟨-, -, -, -, -, -, -, hl, -⟩ := h.receiving e hopen
  rcases hl with ⟨-, hpeer⟩ | ⟨hoff, -⟩
  · exact hpeer
  · exact absurd hoff hon

/-- **An owner calls.** -/
theorem calls (h : Conversing soh name c said flying sent) (hopen : c.closed e = false)
    {call : Session.Call} (hmay : (c.session e).MayCall call) :
    ∃ c' ms, ∃ steps : List SessionStep,
      c.calls e call = .ok (c', steps.map fun step => (e, step)) ∧
      Conversing soh name c' (Function.update said e (said e ++ ms))
        (Function.update flying e.other (flying e.other ++ ms))
        (Function.update sent e (sent e ++ steps.flatMap SessionStep.out)) := by
  obtain ⟨s', steps, ms, hperform, hcalls⟩ :=
    perform_calls (h.unbroken e) (h.peer hopen) hmay
  have hacts := h.acts hopen (steps.any SessionStep.disconnect) (c.inFlight e) (flying e)
    hcalls.sends
    (fun hp => hp.elim (fun hbye => .inr (hcalls.goes hbye)) hcalls.parting)
    (fun hbye => .inl (hcalls.goes hbye)) (fun _ => hcalls.on) fun _ => by
      -- nothing was read, so what was to be received still is
      obtain ⟨ms₁, ws₁, ws₂, hsaid, hsent, hrow₁, hrow₂, hl, hbuf, hrest⟩ :=
        h.receiving e hopen
      rw [← hcalls.inSeq] at hrow₁ hrow₂
      rw [← hcalls.inBuf] at hbuf
      refine ⟨ms₁, ws₁, ws₂, hsaid, hsent, hrow₁, hrow₂, ?_, hbuf, hrest⟩
      rcases hl with ⟨hon, hpeer⟩ | hwaits
      · exact .inl ⟨hcalls.on hon, hcalls.peer.trans hpeer⟩
      · rw [hcalls.off hwaits.1]
        exact .inr hwaits
  rw [Function.update_eq_self, Function.update_eq_self] at hacts
  exact ⟨_, ms, steps, Conversation.calls_of_ok hperform, hacts⟩

/-- What a delivery to an end leaves in flight to it, of the types `ms₂`,
and what it sends, of the types `ms`. -/
structure Delivered (c c' : Conversation) (e : End) (n : ℕ) (flying ms₂ ms : List Bytes) :
    Prop where
  other : c'.party e.other = c.party e.other
  stays : c'.closed e = false → (c.inFlight e).length ≤ n → ms₂ = []
  answer : (c.session e).state ≠ .disconnected → ∀ m ∈ ms, m ∈ finalTypes
  quiet : (c.session e).state ≠ .disconnected → c'.closed e = false →
    (∀ m ∈ flying, m ∈ finalTypes) → ms = []
  left : c'.closed e = true → MsgType.logout ∈ flying

/-- **Bytes arrive.** -/
theorem delivers (h : Conversing soh name c said flying sent) (hopen : c.closed e = false) (n : ℕ)
    (hfits : c.Fits e) :
    ∃ c' step ms ms₂, c.move (.deliver e n) = .ok (c', [(e, step)]) ∧
      Conversing soh name c' (Function.update said e (said e ++ ms))
        (Function.update (Function.update flying e ms₂) e.other (flying e.other ++ ms))
        (Function.update sent e (sent e ++ step.out)) ∧
      Delivered c c' e n (flying e) ms₂ ms := by
  obtain ⟨ms₁, ws₁, ws₂, hsaid, hsent, hrow₁, hrow₂, hl, hbuf, hnil, hlogout⟩ :=
    h.receiving e hopen
  have hsplit : ((c.session e).inBuf ++ (c.inFlight e).take n) ++ (c.inFlight e).drop n =
      ws₂.flatten := by rw [List.append_assoc, List.take_append_drop, hbuf]
  have hrow := hrow₂
  rw [← h.separator e, ← h.sender e] at hrow
  obtain ⟨s', step, ms', hbytes, hstep⟩ :=
    onBytes_row (h.unbroken e) hrow hl hsplit (by rw [← hbuf]; exact hfits)
  have hmove : c.move (.deliver e n) = .ok
      ({ party := Function.update c.party e ⟨s', step.disconnect⟩
         inFlight := Function.update (Function.update c.inFlight e ((c.inFlight e).drop n)) e.other
           (c.inFlight e.other ++ step.out.flatten) }, [(e, step)]) := by
    have hperform :
        (c.session e).perform (.onBytes ((c.inFlight e).take n)) = .ok (s', [step]) := by
      rw [perform, hbytes]
      rfl
    have hcalls := @Conversation.calls_of_ok
      { c with inFlight := Function.update c.inFlight e ((c.inFlight e).drop n) } e _ _ _ hperform
    rw [Conversation.move, if_neg (by rw [hopen]; decide), hcalls]
    simp [e.other_ne]
  rcases hstep with ⟨hstays, ms₂, ws', hmid, hleft, hdone⟩ |
    ⟨hgoes, hread, hsends, hparted, hanswer⟩
  · refine ⟨_, step, ms', ms₂, hmove, h.acts hopen _ _ _ hmid.sends ?_ ?_ (fun _ => hmid.on)
      fun _ => ?_, ?_, fun _ hall => ?_, fun hon => (hmid.answers hon).1,
      fun hon _ => (hmid.answers hon).2, fun hbye => ?_⟩
    · rw [hstays]
      rintro (hbye | hs')
      · cases hbye
      · exact .inl (hmid.state hs')
    · rw [hstays]
      exact fun hbye => by cases hbye
    · obtain ⟨ms₃, ws₃, hflying, rfl, hkeep, hrow₃⟩ := hmid.taken
      have hrow₄ := hmid.row
      rw [h.separator, h.sender] at hrow₃ hrow₄
      refine ⟨ms₁ ++ ms₃, ws₁ ++ ws₃, ws', ?_, ?_, hrow₁.append hrow₃, hrow₄, hmid.listens, hleft,
        hdone, fun hp => ?_⟩
      · rw [hsaid, hflying, List.append_assoc]
      · rw [hsent, List.append_assoc]
      · have hmem := hlogout hp
        rw [hflying] at hmem
        exact (List.mem_append.mp hmem).resolve_left hkeep
    · exact Function.update_of_ne e.other_ne ..
    · have hnone := hdone (List.drop_eq_nil_iff.mpr hall)
      subst hnone
      exact hmid.row.of_nil.1
    · simp [Conversation.closed, hstays] at hbye
  · refine ⟨_, step, ms', [], hmove, h.acts hopen _ _ _ hsends (fun _ => hparted) (fun _ => .inr ?_)
      ?_ ?_, ?_, fun _ _ => rfl, hanswer, ?_, fun _ => hread⟩
    · rw [hsaid]
      exact List.mem_append_right _ hread
    · rw [hgoes]
      exact fun hbye => by cases hbye
    · rw [hgoes]
      exact fun hbye => by cases hbye
    · exact Function.update_of_ne e.other_ne ..
    · intro _ hopen'
      simp [Conversation.closed, hgoes] at hopen'

end Conversing

/-! ## Runs -/

namespace Conversation

/-- **What an end has sent**: `first` before the run, then what its steps
put out. -/
def sentBy (first : End → List WireOut) (outs : List (End × SessionStep)) (e : End) :
    List WireOut :=
  first e ++ (outs.filter fun r => r.1 = e).flatMap fun r => r.2.out

theorem sentBy_append {first : End → List WireOut} {outs : List (End × SessionStep)} {e : End}
    {steps : List SessionStep} :
    sentBy first (outs ++ steps.map fun step => (e, step)) =
      Function.update (sentBy first outs) e
        (sentBy first outs e ++ steps.flatMap SessionStep.out) := by
  funext e'
  have hown : (steps.map fun step => (e, step)).filter (fun r => r.1 = e') =
      if e' = e then steps.map fun step => (e, step) else [] := by
    split_ifs with he
    · exact List.filter_eq_self.mpr fun r hr => by
        obtain ⟨step, -, rfl⟩ := List.mem_map.mp hr
        exact decide_eq_true he.symm
    · exact List.filter_eq_nil_iff.mpr fun r hr => by
        obtain ⟨step, -, rfl⟩ := List.mem_map.mp hr
        simpa using fun h => he h.symm
  rw [sentBy, List.filter_append, hown, List.flatMap_append, ← List.append_assoc]
  by_cases he : e' = e
  · subst he
    rw [if_pos rfl, Function.update_self, sentBy, List.flatMap_map]
  · rw [if_neg he, Function.update_of_ne he, List.flatMap_nil, List.append_nil, sentBy]

end Conversation

/-- **A move keeps two sessions in step.** -/
theorem Conversing.move {soh : Soh} {name : End → Bytes} {c : Conversation}
    {said flying : End → List Bytes} {first : End → List WireOut}
    {outs : List (End × SessionStep)}
    (h : Conversing soh name c said flying (Conversation.sentBy first outs)) {m : Move}
    (hm : c.Proper m) :
    ∃ c' out said' flying', c.move m = .ok (c', out) ∧
      Conversing soh name c' said' flying' (Conversation.sentBy first (outs ++ out)) := by
  obtain ⟨hfits, hfits', hmay⟩ := hm
  cases m with
  | deliver e n =>
    cases hc : c.closed e with
    | true =>
      exact ⟨c, [], said, flying, by rw [Conversation.move, if_pos hc], by rwa [List.append_nil]⟩
    | false =>
      obtain ⟨c', step, ms, ms₂, hmove, hc', -⟩ := h.delivers hc n (by cases e <;> assumption)
      have hsent := @Conversation.sentBy_append first outs e [step]
      rw [List.map_singleton, List.flatMap_singleton] at hsent
      rw [← hsent] at hc'
      exact ⟨c', [(e, step)], _, _, hmove, hc'⟩
  | call e call =>
    cases hc : c.closed e with
    | true =>
      exact ⟨c, [], said, flying, by rw [Conversation.move, if_pos hc], by rwa [List.append_nil]⟩
    | false =>
      obtain ⟨c', ms, steps, hcalls, hc'⟩ := h.calls hc hmay
      rw [← Conversation.sentBy_append] at hc'
      refine ⟨c', steps.map fun step => (e, step), _, _, ?_, hc'⟩
      rw [Conversation.move, if_neg (by rw [hc]; decide)]
      exact hcalls

/-- The name of an end. -/
def nameOf (i a : SessionConfig) : End → Bytes
  | .initiator => i.senderCompId
  | .acceptor => a.senderCompId

/-- What is sent before a run. -/
def firstOf (i : Session) : End → List WireOut
  | .initiator => [i.initiateLogon.2]
  | .acceptor => []

/-- The type of that, by the end that sent it. -/
def greeting : End → List Bytes
  | .initiator => [MsgType.logon]
  | .acceptor => []

section Start

variable {soh : Soh} {i a : SessionConfig} {orderI orderA : FieldOrder} {nowI nowA : ℕ → Bytes}
  {clockI clockA : ℕ → Int}

/-- **The first Logon is on its way.** -/
theorem conversing_dialled (hi : soh.byte ∉ i.senderCompId) (ha : soh.byte ∉ a.senderCompId)
    (hta : soh.byte ∉ a.targetCompId) (hname : i.targetCompId = a.senderCompId)
    (hnowI : ∀ n, soh.byte ∉ nowI n) (hnowA : ∀ n, soh.byte ∉ nowA n) :
    Conversing soh (nameOf i a)
      (.dialled (makeSession i soh orderI nowI clockI) (makeSession a soh orderA nowA clockA))
      greeting (fun e => greeting e.other)
      (Conversation.sentBy (firstOf (makeSession i soh orderI nowI clockI)) []) := by
  have hu : ({ makeSession i soh orderI nowI clockI with
      state := .logonSent } : Session).Unbroken := ⟨hi, hname ▸ ha, hnowI⟩
  obtain ⟨mt, rest, hbody, hsends⟩ := Sends.own hu (@Own.logon soh i.heartbeatSecs)
    fun mt rest he => by
      rw [← (Prod.mk.inj (List.cons.inj he).1).2]
      decide
  obtain rfl := (Prod.mk.inj (List.cons.inj hbody).1).2
  -- the Logon that `initiateLogon` builds, as a row of one message
  have hrow : Row soh i.senderCompId a.senderCompId 0 [MsgType.logon]
      [(makeSession i soh orderI nowI clockI).initiateLogon.2]
      (makeSession i soh orderI nowI clockI).initiateLogon.1.outSeq := by
    rw [initiateLogon, buildMessage_eq]
    have hrow := hsends.row
    rwa [show ({ makeSession i soh orderI nowI clockI with state := .logonSent } :
      Session).cfg.targetCompId = a.senderCompId from hname] at hrow
  obtain ⟨hsoh, hcfg, hui, hin, hbuf, hstate⟩ :
      (makeSession i soh orderI nowI clockI).initiateLogon.1.soh = soh ∧
      (makeSession i soh orderI nowI clockI).initiateLogon.1.cfg = i ∧
      (makeSession i soh orderI nowI clockI).initiateLogon.1.Unbroken ∧
      (makeSession i soh orderI nowI clockI).initiateLogon.1.inSeq = 0 ∧
      (makeSession i soh orderI nowI clockI).initiateLogon.1.inBuf = [] ∧
      (makeSession i soh orderI nowI clockI).initiateLogon.1.state = .logonSent := by
    rw [initiateLogon, buildMessage_eq]
    exact ⟨rfl, rfl, ⟨hu.sender, hu.target, hu.now⟩, rfl, rfl, rfl⟩
  refine ⟨fun e => ?_, fun e => ?_, fun e => ?_, fun e => ?_, fun e _ => ?_, fun _ => ?_,
    fun e hclosed => ?_⟩
  · cases e with
    | initiator => exact hsoh
    | acceptor => rfl
  · cases e with
    | initiator => exact congrArg SessionConfig.senderCompId hcfg
    | acceptor => rfl
  · cases e with
    | initiator => exact hui
    | acceptor => exact ⟨ha, hta, hnowA⟩
  · cases e with
    | initiator => exact hrow
    | acceptor => exact .nil _
  · cases e with
    | initiator =>
      refine ⟨[], [], [], rfl, rfl, ?_, ?_, .inl ⟨?_, ?_⟩, ?_, fun _ => rfl, ?_⟩
      · exact hin ▸ .nil _
      · exact hin ▸ .nil _
      · exact fun he => by cases hstate.symm.trans he
      · exact (congrArg SessionConfig.targetCompId hcfg).trans hname
      · exact congrArg (· ++ ([] : Bytes)) hbuf
      · rintro (h | h) <;> cases h
    | acceptor =>
      refine ⟨[], [], _, rfl, rfl, .nil _, hrow, .inr ⟨rfl, rfl, rfl⟩, ?_, ?_, ?_⟩
      · exact (List.append_nil _).symm
      · exact fun hnil => hrow.eq_nil_of_flatten ((List.append_nil _).trans hnil)
      · rintro (h | h)
        · cases h
        · cases hstate.symm.trans h
  · exact fun he => by cases hstate.symm.trans he
  · cases e <;> cases hclosed

end Start

/-- **Two ends in step.** -/
structure InStep (soh : Soh) (name : End → Bytes) (c : Conversation) (sent : End → List WireOut) :
    Prop where
  /-- an end numbers what it sends from 1 on, and sends no ResendRequest -/
  numbered : ∀ e, ∃ ms, Row soh (name e) (name e.other) 0 ms (sent e) (c.session e).outSeq
  /-- an open end has taken the first messages of the other, whole and in order -/
  taken : ∀ e, c.closed e = false → ∃ taken rest, sent e.other = taken ++ rest ∧
    (∃ ms, Row soh (name e.other) (name e) 0 ms taken (c.session e).inSeq) ∧
    (c.session e).inBuf ++ c.inFlight e = rest.flatten
  /-- once nothing is in flight to it, all of them -/
  caughtUp : ∀ e, c.closed e = false → c.inFlight e = [] →
    (c.session e).inBuf = [] ∧ (c.session e).inSeq = (c.session e.other).outSeq
  /-- ends close together -/
  together : ∀ e, c.closed e = true → c.inFlight e.other = [] → c.closed e.other = true
  /-- and for a Logout only -/
  cause : (∀ e, ∀ w ∈ sent e, ¬ IsType soh MsgType.logout w) → ∀ e, c.closed e = false

theorem Conversing.inStep {soh : Soh} {name : End → Bytes} {c : Conversation}
    {said flying : End → List Bytes} {sent : End → List WireOut}
    (h : Conversing soh name c said flying sent) : InStep soh name c sent where
  numbered e := ⟨said e, h.row e⟩
  taken e hopen := by
    obtain ⟨ms₁, ws₁, ws₂, -, hsent, hrow, -, -, hbuf, -⟩ := h.receiving e hopen
    exact ⟨ws₁, ws₂, hsent, ⟨ms₁, hrow⟩, hbuf⟩
  caughtUp e hopen hquiet := by
    obtain ⟨ms₁, ws₁, ws₂, -, -, -, hrow, -, hbuf, hnil, -⟩ := h.receiving e hopen
    obtain rfl := hnil hquiet
    rw [hquiet, List.append_nil] at hbuf
    exact ⟨hbuf, hrow.of_nil.2.symm⟩
  together e hclosed hquiet := by
    by_contra hopen
    have hopen : c.closed e.other = false := by simpa using hopen
    obtain ⟨ms₁, ws₁, ws₂, -, -, -, hrow, -, -, hnil, hlogout⟩ := h.receiving e.other hopen
    obtain rfl := hnil hquiet
    rw [e.other_other, hrow.of_nil.1] at hlogout
    cases hlogout (.inl hclosed)
  cause hnone e := by
    by_contra hclosed
    obtain ⟨e', hlogout⟩ := h.cause e (by simpa using hclosed)
    obtain ⟨w, hw, htype⟩ := (h.row e').exists_isType hlogout
    exact hnone e' w hw htype

section Runs

variable {soh : Soh} {i a : SessionConfig} {orderI orderA : FieldOrder} {nowI nowA : ℕ → Bytes}
  {clockI clockA : ℕ → Int} {moves : List Move}

/-- Every proper run returns, and the two ends are still conversing. -/
theorem run_conversing (hi : soh.byte ∉ i.senderCompId) (ha : soh.byte ∉ a.senderCompId)
    (hta : soh.byte ∉ a.targetCompId) (hname : i.targetCompId = a.senderCompId)
    (hnowI : ∀ n, soh.byte ∉ nowI n) (hnowA : ∀ n, soh.byte ∉ nowA n)
    (hproper : Guarded Conversation.move Conversation.Proper
      (.dialled (makeSession i soh orderI nowI clockI) (makeSession a soh orderA nowA clockA))
      moves) :
    ∃ c outs, run Conversation.move
        (.dialled (makeSession i soh orderI nowI clockI) (makeSession a soh orderA nowA clockA))
        moves = .ok (c, outs) ∧
      ∃ said flying, Conversing soh (nameOf i a) c said flying
        (Conversation.sentBy (firstOf (makeSession i soh orderI nowI clockI)) outs) :=
  run_inv_ok (H := fun _ : List Move => True)
    (J := fun _ outs c => ∃ said flying, Conversing soh (nameOf i a) c said flying
      (Conversation.sentBy (firstOf (makeSession i soh orderI nowI clockI)) outs))
    (fun _ _ _ => trivial)
    (fun _ outs c m ⟨said, flying, h⟩ hm _ => by
      obtain ⟨c', out, said', flying', hmove, h'⟩ := h.move hm
      exact ⟨c', out, hmove, said', flying', h'⟩)
    ⟨_, _, conversing_dialled hi ha hta hname hnowI hnowA⟩ hproper trivial

end Runs

/-- **Two sessions stay in step**, from the first Logon on and whatever
happens: no call or delivery raises, each end has taken what the other
sent first, whole, once and in order, and they close together. -/
theorem run_inStep (soh : Soh) (i a : SessionConfig) (orderI orderA : FieldOrder)
    (nowI nowA : ℕ → Bytes) (clockI clockA : ℕ → Int) (moves : List Move)
    (hi : soh.byte ∉ i.senderCompId) (ha : soh.byte ∉ a.senderCompId)
    (hta : soh.byte ∉ a.targetCompId) (hname : i.targetCompId = a.senderCompId)
    (hnowI : ∀ n, soh.byte ∉ nowI n) (hnowA : ∀ n, soh.byte ∉ nowA n)
    (hproper : Guarded Conversation.move Conversation.Proper
      (.dialled (makeSession i soh orderI nowI clockI) (makeSession a soh orderA nowA clockA))
      moves) :
    ∃ c outs, run Conversation.move
        (.dialled (makeSession i soh orderI nowI clockI) (makeSession a soh orderA nowA clockA))
        moves = .ok (c, outs) ∧
      InStep soh (nameOf i a) c
        (Conversation.sentBy (firstOf (makeSession i soh orderI nowI clockI)) outs) := by
  obtain ⟨c, outs, hr, said, flying, hc⟩ := run_conversing hi ha hta hname hnowI hnowA hproper
  exact ⟨c, outs, hr, hc.inStep⟩

/-- Two ends with the separator of the unit tests. -/
def dialledClient : Conversation :=
  .dialled (makeSession { senderCompId := ascii "C", targetCompId := ascii "OBFIX" } .text .stored
      (fun _ => ascii "20260513-00:00:00.000") fun _ => 0)
    (makeSession { senderCompId := ascii "OBFIX", targetCompId := [] } .text .stored
      (fun _ => ascii "20260513-00:00:00.000") fun _ => 0)

/-- The Logon in two pieces with an early Heartbeat behind it, a report, a
tick that asks for a sign of life, and a Logout. -/
def exchange : List Move :=
  [.deliver .acceptor 30, .call .initiator .sendHeartbeat, .deliver .acceptor 1000,
    .call .acceptor (.sendExecutionReport [(Tag.orderID, ascii "1")]),
    .call .acceptor (.tick (45 * second)), .deliver .initiator 1000, .deliver .acceptor 50,
    .call .initiator (.sendLogout (ascii "done")), .deliver .acceptor 1000,
    .deliver .initiator 1000]

/-- Both ends are closed at the end of it, and each had taken all that the
other sent. -/
theorem run_inStep_exchange :
    ∃ c outs, run Conversation.move dialledClient exchange = .ok (c, outs) ∧
      InStep .text (nameOf { senderCompId := ascii "C", targetCompId := ascii "OBFIX" }
          { senderCompId := ascii "OBFIX", targetCompId := [] }) c
        (Conversation.sentBy (firstOf (makeSession
          { senderCompId := ascii "C", targetCompId := ascii "OBFIX" } .text .stored
          (fun _ => ascii "20260513-00:00:00.000") fun _ => 0)) outs) ∧
      c.closed .initiator = true ∧ c.closed .acceptor = true ∧
      (c.session .acceptor).inSeq = (c.session .initiator).outSeq := by
  obtain ⟨c, outs, hr, hin⟩ := run_inStep .text
    { senderCompId := ascii "C", targetCompId := ascii "OBFIX" }
    { senderCompId := ascii "OBFIX", targetCompId := [] } .stored .stored
    (fun _ => ascii "20260513-00:00:00.000") (fun _ => ascii "20260513-00:00:00.000") (fun _ => 0)
    (fun _ => 0) exchange (by decide) (by decide) (by decide) rfl (fun _ => by decide)
    (fun _ => by decide) (by decide +kernel)
  obtain ⟨c', outs', hr', hend⟩ := @exists_of_run_check _ _ _ _ Conversation.move
    (fun r : Conversation × List (End × SessionStep) =>
      decide (r.1.closed .initiator = true ∧ r.1.closed .acceptor = true ∧
        (r.1.session .acceptor).inSeq = (r.1.session .initiator).outSeq)) dialledClient exchange
    (by decide +kernel)
  obtain ⟨rfl, rfl⟩ := Prod.mk.inj (Except.ok.inj (hr.symm.trans hr'))
  exact ⟨c, outs, hr, hin, of_decide_eq_true hend⟩

/-! ## At rest -/

/-- All that is in flight to an end arrives there. -/
def Move.flush (e : End) : Move := .deliver e (2 ^ 63)

/-- What such a delivery leaves in flight to the end, if it stays open, and
what it adds to what is in flight to the other. -/
structure Flushed (c c' : Conversation) (e : End) (flying flying' : End → List Bytes) : Prop where
  other : c'.party e.other = c.party e.other
  rests : c'.closed e = false → flying' e = [] ∧ (c'.session e).state ≠ .disconnected
  adds : ∃ ms, flying' e.other = flying e.other ++ ms ∧
    ((c.session e).state ≠ .disconnected → ∀ m ∈ ms, m ∈ finalTypes) ∧
    ((c.session e).state ≠ .disconnected → c'.closed e = false →
      (∀ m ∈ flying e, m ∈ finalTypes) → ms = [])
  left : c.closed e = false → c'.closed e = true → MsgType.logout ∈ flying e
  stays : c.closed e = true → c' = c ∧ flying' = flying

theorem Conversing.flush {soh : Soh} {name : End → Bytes} {c : Conversation}
    {said flying : End → List Bytes} {first : End → List WireOut}
    {outs : List (End × SessionStep)}
    (h : Conversing soh name c said flying (Conversation.sentBy first outs)) {e : End}
    (hfits : c.Fits e) :
    ∃ c' out said' flying', c.move (.flush e) = .ok (c', out) ∧
      Conversing soh name c' said' flying' (Conversation.sentBy first (outs ++ out)) ∧
      Flushed c c' e flying flying' := by
  have hne := e.other_ne
  cases hc : c.closed e with
  | true =>
    refine ⟨c, [], said, flying, by rw [Move.flush, Conversation.move, if_pos hc],
      by rwa [List.append_nil], rfl, fun h => ?_,
      ⟨[], (List.append_nil _).symm, ?_, fun _ _ _ => rfl⟩, fun h => ?_, fun _ => ⟨rfl, rfl⟩⟩
    · rw [hc] at h
      cases h
    · exact fun _ _ hm => by cases hm
    · rw [hc] at h
      cases h
  | false =>
    obtain ⟨c', step, ms, ms₂, hmove, hc', hd⟩ := h.delivers hc (2 ^ 63) hfits
    have hsent := @Conversation.sentBy_append first outs e [step]
    rw [List.map_singleton, List.flatMap_singleton] at hsent
    rw [← hsent] at hc'
    have hall : (c.inFlight e).length ≤ 2 ^ 63 := by
      rw [Conversation.Fits, List.length_append] at hfits
      omega
    refine ⟨c', [(e, step)], _, _, hmove, hc', hd.other, fun hopen => ?_,
      ⟨ms, by rw [Function.update_self], hd.answer, hd.quiet⟩, fun _ => hd.left,
      fun h => by rw [hc] at h; cases h⟩
    have hnone := hd.stays hopen hall
    obtain ⟨-, -, -, -, -, -, -, hl, -⟩ := hc'.receiving e hopen
    rw [Function.update_of_ne hne.symm, Function.update_self, hnone] at hl ⊢
    refine ⟨rfl, ?_⟩
    rcases hl with ⟨hon, -⟩ | ⟨-, -, hhead⟩
    · exact hon
    · cases hhead

/-- An end that is open has nothing in flight to it. -/
def Conversation.AtRest (c : Conversation) : Prop :=
  ∀ e, c.closed e = false → c.inFlight e = [] ∧ (c.session e).inBuf = [] ∧
    (c.session e).inSeq = (c.session e.other).outSeq

theorem Conversing.atRest {soh : Soh} {name : End → Bytes} {c : Conversation}
    {said flying : End → List Bytes} {sent : End → List WireOut}
    (h : Conversing soh name c said flying sent)
    (hnone : ∀ e, c.closed e = false → flying e = []) : c.AtRest := by
  intro e hopen
  obtain ⟨-, -, ws, -, -, -, hrow, -, hbuf, -⟩ := h.receiving e hopen
  rw [hnone e hopen] at hrow
  obtain ⟨rfl, hn⟩ := hrow.of_no_types
  obtain ⟨hin, hflight⟩ := List.append_eq_nil_iff.mp hbuf
  exact ⟨hflight, hin, hn.symm⟩

/-- Everything in flight is delivered, twice to each end. -/
def settling : List Move :=
  [.flush .acceptor, .flush .initiator, .flush .acceptor, .flush .initiator]

/-- **A conversation settles.** An answer is never answered in its turn,
so after two deliveries to each end there is nothing left to deliver. -/
theorem Conversing.settles {soh : Soh} {name : End → Bytes} {c : Conversation}
    {said flying : End → List Bytes} {first : End → List WireOut}
    {outs : List (End × SessionStep)}
    (h : Conversing soh name c said flying (Conversation.sentBy first outs))
    (hg : Guarded Conversation.move Conversation.Proper c settling) :
    ∃ c' out, run Conversation.move c settling = .ok (c', out) ∧ c'.AtRest := by
  obtain ⟨⟨-, hfits, -⟩, hg⟩ := hg
  obtain ⟨c₁, out₁, said₁, flying₁, hmove₁, h₁, hf₁⟩ := h.flush hfits
  obtain ⟨⟨hfits, -⟩, hg⟩ := hg c₁ out₁ hmove₁
  obtain ⟨c₂, out₂, said₂, flying₂, hmove₂, h₂, hf₂⟩ := h₁.flush hfits
  obtain ⟨⟨-, hfits, -⟩, hg⟩ := hg c₂ out₂ hmove₂
  obtain ⟨c₃, out₃, said₃, flying₃, hmove₃, h₃, hf₃⟩ := h₂.flush hfits
  obtain ⟨⟨hfits, -⟩, -⟩ := hg c₃ out₃ hmove₃
  obtain ⟨c₄, out₄, said₄, flying₄, hmove₄, h₄, hf₄⟩ := h₃.flush hfits
  refine ⟨c₄, out₁ ++ (out₂ ++ (out₃ ++ (out₄ ++ []))), ?_, h₄.atRest ?_⟩
  · rw [settling, run_cons_of_ok hmove₁, run_cons_of_ok hmove₂, run_cons_of_ok hmove₃,
      run_cons_of_ok hmove₄]
    rfl
  -- the acceptor, if it is open after the second round, was given answers only and gave none
  have hacc₂ : c₂.party .acceptor = c₁.party .acceptor := hf₂.other
  have hini₃ : c₃.party .initiator = c₂.party .initiator := hf₃.other
  have hacc₄ : c₄.party .acceptor = c₃.party .acceptor := hf₄.other
  have hopen₃ : c₃.closed .acceptor = false →
      (c₃.closed .initiator = false → flying₃ .initiator = []) ∧ flying₃ .acceptor = [] := by
    intro hopen
    have hopen₂ : c₂.closed .acceptor = false := by
      by_contra hclosed
      obtain ⟨rfl, -⟩ := hf₃.stays (by simpa using hclosed)
      exact hclosed hopen
    have hopen₁ : c₁.closed .acceptor = false := by
      rwa [Conversation.closed, hacc₂] at hopen₂
    obtain ⟨hnone₁, hon₁⟩ := hf₁.rests hopen₁
    have hon₂ : (c₂.session .acceptor).state ≠ .disconnected := by
      rwa [Conversation.session, hacc₂]
    obtain ⟨ms₂, hadd₂, hanswer₂, -⟩ := hf₂.adds
    obtain ⟨ms₃, hadd₃, -, hquiet₃⟩ := hf₃.adds
    have hfinal : ∀ m ∈ flying₂ .acceptor, m ∈ finalTypes := by
      change flying₂ .acceptor = flying₁ .acceptor ++ ms₂ at hadd₂
      cases hc : c₁.closed .initiator with
      | false =>
        rw [hadd₂, hnone₁, List.nil_append]
        exact hanswer₂ (h₁.dialler hc)
      | true =>
        rw [(hf₂.stays hc).2, hnone₁]
        exact fun m hm => by cases hm
    refine ⟨fun hini => ?_, (hf₃.rests hopen).1⟩
    have hini₂ : c₂.closed .initiator = false := by
      rwa [Conversation.closed, hini₃] at hini
    change flying₃ .initiator = flying₂ .initiator ++ ms₃ at hadd₃
    rw [hadd₃, (hf₂.rests hini₂).1, hquiet₃ hon₂ hopen hfinal]
    rfl
  intro e hopen
  cases e with
  | initiator => exact (hf₄.rests hopen).1
  | acceptor =>
    have hopen' : c₃.closed .acceptor = false := by
      rwa [Conversation.closed, hacc₄] at hopen
    obtain ⟨hini, hacc⟩ := hopen₃ hopen'
    obtain ⟨ms₄, hadd₄, -, hquiet₄⟩ := hf₄.adds
    change flying₄ .acceptor = flying₃ .acceptor ++ ms₄ at hadd₄
    rw [hadd₄, hacc, List.nil_append]
    cases hc : c₃.closed .initiator with
    | true =>
      obtain ⟨-, heq⟩ := hf₄.stays hc
      rw [heq, hacc, List.nil_append] at hadd₄
      exact hadd₄.symm
    | false =>
      have hopen₄ : c₄.closed .initiator = false := by
        by_contra hclosed
        have hread := hf₄.left hc (by simpa using hclosed)
        rw [hini hc] at hread
        cases hread
      exact hquiet₄ (h₃.dialler hc) hopen₄ (by rw [hini hc]; exact fun m hm => by cases hm)

/-- **Every conversation settles.** Whatever has happened, once all that is
in flight is delivered, and then the answers to it, an end that is still
open has taken all that the other sent, and nothing is in flight to it. -/
theorem run_settles (soh : Soh) (i a : SessionConfig) (orderI orderA : FieldOrder)
    (nowI nowA : ℕ → Bytes) (clockI clockA : ℕ → Int) (moves : List Move)
    (hi : soh.byte ∉ i.senderCompId) (ha : soh.byte ∉ a.senderCompId)
    (hta : soh.byte ∉ a.targetCompId) (hname : i.targetCompId = a.senderCompId)
    (hnowI : ∀ n, soh.byte ∉ nowI n) (hnowA : ∀ n, soh.byte ∉ nowA n)
    (hproper : Guarded Conversation.move Conversation.Proper
      (.dialled (makeSession i soh orderI nowI clockI) (makeSession a soh orderA nowA clockA))
      (moves ++ settling)) :
    ∃ c outs, run Conversation.move
        (.dialled (makeSession i soh orderI nowI clockI) (makeSession a soh orderA nowA clockA))
        (moves ++ settling) = .ok (c, outs) ∧ c.AtRest := by
  obtain ⟨hmoves, hlast⟩ := Guarded.append.mp hproper
  obtain ⟨c, outs, hr, said, flying, hc⟩ := run_conversing hi ha hta hname hnowI hnowA hmoves
  obtain ⟨c', out, hr', hrest⟩ := hc.settles (hlast c outs hr)
  exact ⟨c', outs ++ out, run_append_of_ok hr hr', hrest⟩

/-- Without the Logout both ends stay open. -/
theorem run_settles_exchange :
    ∃ c outs, run Conversation.move dialledClient (exchange.take 7 ++ settling) =
        .ok (c, outs) ∧ c.AtRest ∧ c.closed .initiator = false ∧ c.closed .acceptor = false := by
  obtain ⟨c, outs, hr, hrest⟩ := run_settles .text
    { senderCompId := ascii "C", targetCompId := ascii "OBFIX" }
    { senderCompId := ascii "OBFIX", targetCompId := [] } .stored .stored
    (fun _ => ascii "20260513-00:00:00.000") (fun _ => ascii "20260513-00:00:00.000") (fun _ => 0)
    (fun _ => 0) (exchange.take 7) (by decide) (by decide) (by decide) rfl (fun _ => by decide)
    (fun _ => by decide) (by decide +kernel)
  obtain ⟨c', outs', hr', hend⟩ := @exists_of_run_check _ _ _ _ Conversation.move
    (fun r : Conversation × List (End × SessionStep) =>
      decide (r.1.closed .initiator = false ∧ r.1.closed .acceptor = false)) dialledClient
    (exchange.take 7 ++ settling) (by decide +kernel)
  obtain ⟨rfl, rfl⟩ := Prod.mk.inj (Except.ok.inj (hr.symm.trans hr'))
  exact ⟨c, outs, hr, hrest, of_decide_eq_true hend⟩

end Fix

end OrderbookFix
