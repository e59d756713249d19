import OrderbookFix.Fix.Helpers.Evolution
/-!
# Who is let in

An acceptor hands nothing to the matcher before it has let a peer in, and
it lets in only a peer whose stream opens with a Logon that names no
other session. Once a step asks to disconnect, the session is no longer
logged on and its timer is silent.
-/

namespace OrderbookFix

namespace Fix

/-- A message at a place of a stream, read from the bytes that had come by
then. -/
def ReadAt (soh : Soh) (stream : Bytes) (pos : ℕ) (pr : ParseResult) : Prop :=
  ∃ buf, buf <+: stream.drop pos ∧ parseOne soh buf = .ok pr ∧ pr.err = .none

/-- **A stream that opens with a Logon to us.** -/
structure Opens (soh : Soh) (sender stream : Bytes) (logon : ParseResult) : Prop where
  first : ReadAt soh stream 0 logon
  type : logon.msg.msgType = MsgType.logon
  target : ∀ t, logon.msg.get Tag.targetCompID = some t → t = sender

/-- **A message that follows such a Logon** in the stream. -/
def Admitted (soh : Soh) (sender stream : Bytes) (m : AppMessage) : Prop :=
  ∃ logon, Opens soh sender stream logon ∧
    ∃ pos pr, logon.consumed ≤ pos ∧ ReadAt soh stream pos pr ∧ pr.msg = m

section Extend

variable {soh : Soh} {sender stream : Bytes}

theorem ReadAt.append {pos : ℕ} {pr : ParseResult} (h : ReadAt soh stream pos pr) (ext : Bytes) :
    ReadAt soh (stream ++ ext) pos pr := by
  obtain ⟨buf, hpre, hp⟩ := h
  refine ⟨buf, hpre.trans ?_, hp⟩
  rw [List.drop_append]
  exact List.prefix_append _ _

theorem Opens.append {logon : ParseResult} (h : Opens soh sender stream logon) (ext : Bytes) :
    Opens soh sender (stream ++ ext) logon :=
  ⟨h.first.append ext, h.type, h.target⟩

theorem Admitted.append {m : AppMessage} (h : Admitted soh sender stream m) (ext : Bytes) :
    Admitted soh sender (stream ++ ext) m := by
  obtain ⟨logon, ho, pos, pr, hle, hr, hm⟩ := h
  exact ⟨logon, ho.append ext, pos, pr, hle, hr.append ext, hm⟩

end Extend

namespace Session

/-! ## One message -/

section Message

variable {s s' : Session} {m : Message} {step : SessionStep}

/-- What no message and no sending changes. -/
structure SameSelf (s s' : Session) : Prop where
  soh : s'.soh = s.soh
  sender : s'.cfg.senderCompId = s.cfg.senderCompId

/-- A message to a session that is on. -/
theorem handleMessage_on (hon : s.state = .loggedIn) (h : s.handleMessage m = .ok (s', step)) :
    SameSelf s s' ∧ (step.disconnect = true → s'.state ≠ .loggedIn ∧ step.app = []) ∧
      (step.disconnect = false → s'.state = .loggedIn) ∧ ∀ a ∈ step.app, a = m := by
  have hne : s.state ≠ .disconnected := by rw [hon]; exact fun h => by cases h
  have hoff : SessionState.disconnected ≠ .loggedIn := fun h => by cases h
  have hleft : SessionState.logoutSent ≠ .loggedIn := fun h => by cases h
  obtain ⟨seq, -, hh⟩ := handleMessage_cases hne h
  rcases hh with hgap | ⟨hlow, h0⟩ | ⟨htaken, hd⟩
  · exact ⟨⟨rfl, rfl⟩, fun h => (by cases h), fun _ => hon, fun _ h => (by cases h)⟩
  · exact ⟨⟨rfl, rfl⟩, fun _ => ⟨hleft, rfl⟩, fun h => (by cases h), fun _ h => (by cases h)⟩
  rcases hd with _ | ⟨body, hb⟩ | ⟨n, ws⟩ | _ | _ | _
  · exact ⟨⟨rfl, rfl⟩, fun h => (by cases h), fun _ => hon, fun _ h => (by cases h)⟩
  · exact ⟨⟨rfl, rfl⟩, fun h => (by cases h), fun _ => hon, fun _ h => (by cases h)⟩
  · exact ⟨⟨rfl, rfl⟩, fun h => (by cases h), fun _ => hon, fun _ h => (by cases h)⟩
  · exact ⟨⟨rfl, rfl⟩, fun _ => ⟨hoff, rfl⟩, fun h => (by cases h), fun _ h => (by cases h)⟩
  · exact ⟨⟨rfl, rfl⟩, fun _ => ⟨hoff, rfl⟩, fun h => (by cases h), fun _ h => (by cases h)⟩
  · exact ⟨⟨rfl, rfl⟩, fun h => (by cases h), fun _ => hon, fun a ha => List.mem_singleton.mp ha⟩

/-- The first message of a connection. -/
theorem handleMessage_first (hoff : s.state = .disconnected)
    (h : s.handleMessage m = .ok (s', step)) :
    SameSelf s s' ∧ step.app = [] ∧ (step.disconnect = true → s'.state ≠ .loggedIn) ∧
      (step.disconnect = false → s'.state = .loggedIn ∧ m.msgType = MsgType.logon ∧
        ∀ t, m.get Tag.targetCompID = some t → t = s.cfg.senderCompId) := by
  have hstay : s.state ≠ .loggedIn := by rw [hoff]; exact fun h => by cases h
  cases handleMessage_receives h with
  | refused hoff ht => exact ⟨⟨rfl, rfl⟩, rfl, fun _ => hstay, fun h => (by cases h)⟩
  | misdirected hoff ht hf => exact ⟨⟨rfl, rfl⟩, rfl, fun _ => hstay, fun h => (by cases h)⟩
  | admitted hseq hoff ht hf =>
    refine ⟨⟨rfl, rfl⟩, rfl, fun h => (by cases h), fun _ => ⟨rfl, ht, fun t hget => ?_⟩⟩
    rw [hget] at hf
    simpa using hf
  | gap hseq hon h => exact absurd hoff hon
  | low hseq hon h h0 => exact absurd hoff hon
  | taken hseq hon h hd => exact absurd hoff hon

end Message

/-! ## A session in its stream -/

variable {soh : Soh} {sender : Bytes}

/-- How far a session is in its stream: it has read nothing, or a Logon
to it and maybe more. -/
inductive Stands (soh : Soh) (sender stream : Bytes) (s : Session) (pos : ℕ) : Prop
  | waiting (hstate : s.state = .disconnected) (hpos : pos = 0)
  | on (hstate : s.state = .loggedIn) (logon : ParseResult) (hopens : Opens soh sender stream logon)
      (hpos : logon.consumed ≤ pos)

/-- **A session in its stream**: what it has still to read is the rest of
the stream. -/
structure Within (soh : Soh) (sender stream : Bytes) (s : Session) (buf : Bytes) : Prop where
  soh_eq : s.soh = soh
  sender_eq : s.cfg.senderCompId = sender
  stands : ∃ pos ≤ stream.length, buf = stream.drop pos ∧ Stands soh sender stream s pos

theorem Within.append {stream buf : Bytes} {s : Session} (h : Within soh sender stream s buf)
    (ext : Bytes) : Within soh sender (stream ++ ext) s (buf ++ ext) where
  soh_eq := h.soh_eq
  sender_eq := h.sender_eq
  stands := by
    obtain ⟨pos, hle, rfl, hst⟩ := h.stands
    refine ⟨pos, by rw [List.length_append]; omega, (List.drop_append_of_le_length hle).symm, ?_⟩
    rcases hst with ⟨hstate, hpos⟩ | ⟨hstate, logon, hopens, hpos⟩
    · exact .waiting hstate hpos
    · exact .on hstate logon (hopens.append ext) hpos

/-- Only the state and the settings of a session place it. -/
theorem Within.congr {stream buf : Bytes} {s s' : Session} (h : Within soh sender stream s buf)
    (hself : SameSelf s s') (hstate : s'.state = s.state) : Within soh sender stream s' buf where
  soh_eq := hself.soh.trans h.soh_eq
  sender_eq := hself.sender.trans h.sender_eq
  stands := by
    obtain ⟨pos, hle, hbuf, hst⟩ := h.stands
    refine ⟨pos, hle, hbuf, ?_⟩
    rcases hst with ⟨hs, hpos⟩ | ⟨hs, logon, hopens, hpos⟩
    · exact .waiting (hstate.trans hs) hpos
    · exact .on (hstate.trans hs) logon hopens hpos

/-- **A message read in a stream.** What it hands out follows the opening
Logon; the session goes on behind it, or is off. -/
theorem Within.message {stream buf : Bytes} {s s' : Session} {pr : ParseResult}
    {step : SessionStep} (h : Within soh sender stream s buf) (hp : parseOne s.soh buf = .ok pr)
    (hnone : pr.err = .none) (hm : s.heard.handleMessage pr.msg = .ok (s', step)) :
    (∀ m ∈ step.app, Admitted soh sender stream m) ∧
      (step.disconnect = true → s'.state ≠ .loggedIn) ∧
      (step.disconnect = false → Within soh sender stream s' (buf.drop pr.consumed)) := by
  obtain ⟨hpos, hle, -⟩ := parseOne_none hp hnone
  rw [h.soh_eq] at hp
  obtain ⟨pos, hlen, rfl, hst⟩ := h.stands
  have hread : ReadAt soh stream pos pr := ⟨_, List.prefix_refl _, hp, hnone⟩
  rw [List.length_drop] at hle
  rw [List.drop_drop]
  rcases hst with ⟨hstate, rfl⟩ | ⟨hstate, logon, hopens, hafter⟩
  · -- nothing was read before this message, so it is the first of the stream
    obtain ⟨hself, happ, hoff, hon⟩ := handleMessage_first (s := s.heard) hstate hm
    refine ⟨fun m hmem => ?_, hoff, fun hd => ?_⟩
    · rw [happ] at hmem
      cases hmem
    · obtain ⟨hs', htype, htarget⟩ := hon hd
      have hopens : Opens soh sender stream pr := ⟨hread, htype, fun t ht => by
        rw [htarget t ht]
        exact h.sender_eq⟩
      exact ⟨hself.soh.trans h.soh_eq, hself.sender.trans h.sender_eq, 0 + pr.consumed, by omega, rfl,
        .on hs' pr hopens (by omega)⟩
  · obtain ⟨hself, hoff, hon, happ⟩ := handleMessage_on (s := s.heard) hstate hm
    refine ⟨fun m hmem => ?_, fun hd => (hoff hd).1, fun hd => ?_⟩
    · exact ⟨logon, hopens, pos, pr, hafter, hread, (happ m hmem).symm⟩
    · exact ⟨hself.soh.trans h.soh_eq, hself.sender.trans h.sender_eq, pos + pr.consumed, by omega, rfl,
        .on (hon hd) logon hopens (by omega)⟩

/-! ## Calls -/

/-- The bytes a call hands in. -/
def Call.bytes : Call → Bytes
  | .onBytes data => data
  | _ => []

/-- The inbound stream of a run. -/
def received (calls : List Call) : Bytes := calls.flatMap Call.bytes

/-- The calls the owner of an acceptor makes. -/
def Call.OfAcceptor : Call → Prop
  | .onBytes _ => True
  | .tick _ => True
  | .sendExecutionReport _ => True
  | _ => False

instance : (c : Call) → Decidable c.OfAcceptor
  | .onBytes _ | .tick _ | .sendExecutionReport _ => isTrue trivial
  | .initiateLogon | .sendHeartbeat | .sendLogout _ | .resetSeq => isFalse id

/-- What a step of an acceptor may be, after it in the stream. -/
structure Guards (soh : Soh) (sender stream : Bytes) (s : Session) (step : SessionStep) :
    Prop where
  app : ∀ m ∈ step.app, Admitted soh sender stream m
  off : step.disconnect = true → s.state ≠ .loggedIn
  on : step.disconnect = false → Within soh sender stream s s.inBuf

theorem onBytes_guards {stream data : Bytes} {s s' : Session} {step : SessionStep}
    (h : Within soh sender stream s s.inBuf) (hb : s.onBytes data = .ok (s', step)) :
    Guards soh sender (stream ++ data) s' step := by
  -- the rounds made so far have handed out admitted messages only
  let ok : List Turn → Prop := fun rs => ∀ r ∈ rs, ∀ m ∈ r.out.app,
    Admitted soh sender (stream ++ data) m
  have hsnoc : ∀ (rs : List Turn) (r : Turn), ok rs →
      (∀ m ∈ r.out.app, Admitted soh sender (stream ++ data) m) → ok (rs ++ [r]) := by
    intro rs r hrs hr r' hr'
    rcases List.mem_append.mp hr' with hr' | hr'
    · exact hrs r' hr'
    · rw [List.mem_singleton.mp hr']
      exact hr
  obtain ⟨hstep, hcase⟩ := onBytes_inv
    (J := fun rs s₁ buf => ok rs ∧ Within soh sender (stream ++ data) s₁ buf)
    (K := fun rs s₁ => ok rs ∧ s₁.state ≠ .loggedIn)
    (fun rs s₁ b buf hj => ⟨hj.1, hj.2.congr ⟨rfl, rfl⟩ rfl⟩) (fun rs s₁ b hk => hk)
    (fun rs s₁ buf n s₂ step hj hn => by
      obtain ⟨pr, hp, hnone, rfl, hm, hd⟩ := message_of_take hn
      obtain ⟨happ, -, hon⟩ := hj.2.message hp hnone hm
      exact ⟨hsnoc rs _ hj.1 happ, hon hd⟩)
    (fun rs s₁ buf s₂ step hj hn => by
      obtain ⟨hturn, hd⟩ := turns_of_stop hn
      rcases hturn with ⟨hp, herr⟩ | ⟨hp, hnone, hm⟩
      · refine ⟨hsnoc rs _ hj.1 fun m hmem => (by cases hmem), ?_⟩
        unfold sendLogout
        rw [buildMessage_eq]
        exact fun h => by cases h
      · obtain ⟨happ, hoff, -⟩ := hj.2.message hp hnone hm
        exact ⟨hsnoc rs _ hj.1 happ, hoff hd⟩)
    ⟨fun _ hr => (by cases hr), h.append data⟩ hb
  have happ : ok (s.turns data) → ∀ m ∈ step.app, Admitted soh sender (stream ++ data) m := by
    intro hok m hmem
    rw [hstep, SessionStep.app_mergeAll] at hmem
    obtain ⟨st, hst, hmem⟩ := List.mem_flatMap.mp hmem
    obtain ⟨r, hr, rfl⟩ := List.mem_map.mp hst
    exact hok r hr m hmem
  rcases hcase with ⟨hd, hok, hwithin⟩ | ⟨hd, hok, hoff⟩
  · exact ⟨happ hok, fun h => (by rw [hd] at h; cases h), fun _ => hwithin⟩
  · exact ⟨happ hok, fun _ => hoff, fun h => (by rw [hd] at h; cases h)⟩

/-- Without input or a change of state a step guards itself. -/
theorem guards_of_same {stream : Bytes} {s s' : Session} {step : SessionStep}
    (h : Within soh sender stream s s.inBuf) (hself : SameSelf s s') (hbuf : s'.inBuf = s.inBuf)
    (happ : step.app = []) (hd : step.disconnect = false) (hstate : s'.state = s.state) :
    Guards soh sender (stream ++ []) s' step where
  app m hmem := by
    rw [happ] at hmem
    cases hmem
  off h := by
    rw [hd] at h
    cases h
  on _ := by
    rw [List.append_nil, hbuf]
    exact h.congr hself hstate

theorem tick_guards {stream : Bytes} {s s' : Session} {step : SessionStep} {now : Int}
    (h : Within soh sender stream s s.inBuf) (ht : s.tick now = (s', step)) :
    Guards soh sender (stream ++ []) s' step := by
  rcases tick_cases ht with _ | hon | hon | hon
  · exact guards_of_same h ⟨rfl, rfl⟩ rfl rfl rfl rfl
  · exact guards_of_same h ⟨rfl, rfl⟩ rfl rfl rfl rfl
  · exact ⟨fun _ hmem => (by cases hmem), fun _ h => (by cases h), fun h => (by cases h)⟩
  · exact guards_of_same h ⟨rfl, rfl⟩ rfl rfl rfl rfl

/-- **A call of an acceptor makes one step**, which is guarded where the
session is in its stream. -/
theorem perform_guards {s s' : Session} {c : Call} {outs : List SessionStep} (hc : c.OfAcceptor)
    (hp : s.perform c = .ok (s', outs)) :
    ∃ step, outs = [step] ∧ ∀ stream, Within soh sender stream s s.inBuf →
      Guards soh sender (stream ++ c.bytes) s' step := by
  cases perform_cases hp with
  | @onBytes _ _ step hb => exact ⟨step, rfl, fun _ h => onBytes_guards h hb⟩
  | @tick _ _ step ht => exact ⟨step, rfl, fun _ h => tick_guards h ht⟩
  | executionReport body => exact ⟨_, rfl, fun _ h => guards_of_same h ⟨rfl, rfl⟩ rfl rfl rfl rfl⟩
  | _ => exact hc.elim

/-! ## Runs -/

/-- The timer of a session that is not logged on is silent. -/
theorem tick_of_off {s : Session} (h : s.state ≠ .loggedIn) (now : Int) : s.tick now = (s, {}) :=
  if_pos h

/-- The invariant of an acceptor's run: until a step disconnects, the
session is in its stream. -/
structure Guarding (soh : Soh) (sender : Bytes) (calls : List Call) (outs : List SessionStep)
    (s : Session) : Prop where
  on : (∀ step ∈ outs, step.disconnect = false) → Within soh sender (received calls) s s.inBuf
  app : (∀ step ∈ outs.dropLast, step.disconnect = false) →
    ∀ step ∈ outs, ∀ m ∈ step.app, Admitted soh sender (received calls) m
  off : (∀ step ∈ outs.dropLast, step.disconnect = false) →
    ∀ step ∈ outs, step.disconnect = true → s.state ≠ .loggedIn

theorem Guarding.perform {calls : List Call} {outs outs' : List SessionStep} {s s' : Session}
    {c : Call} (h : Guarding soh sender calls outs s) (hc : c.OfAcceptor)
    (hp : s.perform c = .ok (s', outs')) :
    Guarding soh sender (calls ++ [c]) (outs ++ outs') s' := by
  have hrec : received (calls ++ [c]) = received calls ++ c.bytes := by
    unfold received
    rw [List.flatMap_append, List.flatMap_singleton]
  obtain ⟨step, rfl, hstep⟩ := @perform_guards soh sender _ _ _ _ hc hp
  have hguard : (∀ step ∈ outs, step.disconnect = false) →
      Guards soh sender (received (calls ++ [c])) s' step := by
    intro hall
    rw [hrec]
    exact hstep _ (h.on hall)
  constructor
  · intro hall
    have hbefore : ∀ st ∈ outs, st.disconnect = false :=
      fun st hst => hall st (List.mem_append_left _ hst)
    exact (hguard hbefore).on (hall step (List.mem_append_right _ (List.mem_singleton.mpr rfl)))
  · rw [List.dropLast_concat]
    intro hall st hst m hm
    rcases List.mem_append.mp hst with hst | hst
    · rw [hrec]
      exact (h.app (fun st hst => hall st ((List.dropLast_prefix outs).subset hst)) st hst m hm).append _
    · rw [List.mem_singleton.mp hst] at hm
      exact (hguard hall).app m hm
  · rw [List.dropLast_concat]
    intro hall st hst hd
    rcases List.mem_append.mp hst with hst | hst
    · rw [hall st hst] at hd
      cases hd
    · rw [List.mem_singleton.mp hst] at hd
      exact (hguard hall).off hd

/-- **Only an admitted peer reaches the matcher.** In every run of an
acceptor up to the first step that disconnects, what is handed out
follows, in the byte stream, an opening Logon with no TargetCompID or our
own; and a step that disconnects leaves the session not logged on, with
a silent timer. -/
theorem run_admitted (cfg : SessionConfig) (soh : Soh) (order : FieldOrder) (now : ℕ → Bytes)
    (clock : ℕ → Int) (calls : List Call) (s : Session) (outs : List SessionStep)
    (hcalls : ∀ c ∈ calls, c.OfAcceptor)
    (hrun : run perform (makeSession cfg soh order now clock) calls = .ok (s, outs))
    (hstop : ∀ step ∈ outs.dropLast, step.disconnect = false) :
    (∀ step ∈ outs, ∀ m ∈ step.app, Admitted soh cfg.senderCompId (received calls) m) ∧
      ∀ step ∈ outs, step.disconnect = true →
        s.state ≠ .loggedIn ∧ ∀ t, s.tick t = (s, {}) := by
  have hinit : Guarding soh cfg.senderCompId [] [] (makeSession cfg soh order now clock) :=
    ⟨fun _ => ⟨rfl, rfl, 0, Nat.le_refl _, rfl, .waiting rfl rfl⟩, fun _ _ h => (by cases h),
      fun _ _ h => (by cases h)⟩
  have hguard : Guarding soh cfg.senderCompId calls outs s :=
    run_inv_returns (fun _ _ _ _ _ _ hJ hc hp => hJ.perform hc hp) hinit hcalls hrun
  refine ⟨hguard.app hstop, fun step hmem hd => ?_⟩
  have hoff := hguard.off hstop step hmem hd
  exact ⟨hoff, tick_of_off hoff⟩

/-- The bytes of an order. -/
def orderBytes (seq : String) : Bytes :=
  build .text [(Tag.msgType, MsgType.newOrderSingle), (Tag.msgSeqNum, ascii seq),
    (Tag.clOrdID, ascii "A")]

/-- A Logon and an order in one buffer, and a repeated number that ends
the session. -/
theorem run_admitted_order_then_low :
    ∃ s outs, run perform testSession
        [.onBytes (logonBytes ++ orderBytes "2"), .tick 0, .onBytes (orderBytes "2")] =
          .ok (s, outs) ∧
      (outs.map fun step => (step.app.length, step.disconnect)) =
        [(1, false), (0, false), (0, true)] ∧
      (∀ step ∈ outs, ∀ m ∈ step.app, Admitted .text (ascii "OBFIX")
        (received [.onBytes (logonBytes ++ orderBytes "2"), .tick 0,
          .onBytes (orderBytes "2")]) m) ∧
      ∀ step ∈ outs, step.disconnect = true →
        s.state ≠ .loggedIn ∧ ∀ t, s.tick t = (s, {}) := by
  have hcheck : passes (fun r => decide ((r.2.map fun step =>
      (step.app.length, step.disconnect)) = [(1, false), (0, false), (0, true)]))
      (run perform testSession
        [.onBytes (logonBytes ++ orderBytes "2"), .tick 0, .onBytes (orderBytes "2")]) = true := by
    decide +kernel
  obtain ⟨s, outs, hr, hp⟩ := exists_of_run_check hcheck
  have hsteps := of_decide_eq_true hp
  refine ⟨s, outs, hr, hsteps, run_admitted _ _ _ _ _ _ s outs (by decide) hr fun step hmem => ?_⟩
  -- the steps before the last are the first two of those listed
  have hd : ∀ d ∈ (outs.map fun step => (step.app.length, step.disconnect)).dropLast,
      d.2 = false := by
    rw [hsteps]
    decide
  rw [← List.map_dropLast] at hd
  exact hd _ (List.mem_map_of_mem hmem)

end Session

end Fix

end OrderbookFix
