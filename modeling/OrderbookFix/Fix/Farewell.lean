import OrderbookFix.Fix.Helpers.Replies
import OrderbookFix.Fix.Helpers.Wire
import OrderbookFix.Fix.Identity
/-!
# Logouts

MsgType is the third field of every message the session builds. A Logout
is built in the step that disconnects and not before: until then the ring
holds none, so no replay is one either. In a call of `on_bytes` it is the
last of the messages to send; the messages to hand out may well be
orders, read from the same buffer before it.
-/

namespace OrderbookFix

namespace Fix

/-- **A Logout on the wire.** -/
def IsLogout (soh : Soh) (w : WireOut) : Prop := IsType soh MsgType.logout w

instance (soh : Soh) (w : WireOut) : Decidable (IsLogout soh w) :=
  inferInstanceAs (Decidable (IsType _ _ _))

/-- A built Logout has MsgType first, and in it what a Logout has. -/
theorem isLogout_build {soh : Soh} {t : Int} {v : Bytes} {rest : Body}
    (h : IsLogout soh (build soh ((t, v) :: rest))) :
    t = Tag.msgType ∧ (soh.byte ∉ v → v = MsgType.logout) := isType_build (by decide) h

/-- All but the last of two lists is in the first, where the second has
one element at most. -/
theorem mem_of_mem_dropLast_append {α : Type*} {as bs : List α} (h : bs.length ≤ 1) {a : α}
    (ha : a ∈ (as ++ bs).dropLast) : a ∈ as := by
  rcases bs with _ | ⟨b, bs⟩
  · rw [List.append_nil] at ha
    exact (List.dropLast_prefix _).subset ha
  · rw [List.length_cons] at h
    obtain rfl : bs = [] := List.length_eq_zero_iff.mp (by omega)
    rwa [List.dropLast_concat] at ha

namespace Session

/-! ## Messages that are no Logout -/

/-- A message on the wire of a type other than Logout. -/
def Mild (soh : Soh) (w : WireOut) : Prop :=
  ∃ mt rest, w = build soh ((Tag.msgType, mt) :: rest) ∧ soh.byte ∉ mt ∧ mt ≠ MsgType.logout

/-- A session that has sent no Logout it could replay. -/
def Unparted (s : Session) : Prop := ∀ rec ∈ s.history, Mild s.soh rec.bytes

/-- The types of the session's own messages other than Logout. -/
def ownTypes : List Bytes :=
  [MsgType.heartbeat, MsgType.testRequest, MsgType.resendRequest, MsgType.reject,
    MsgType.executionReport, MsgType.logon]

/-- A body the session builds such a message from. -/
def Ordinary (body : Body) : Prop :=
  ∃ mt ∈ ownTypes, ∃ rest, body = (Tag.msgType, mt) :: rest ∧ PlainTags (rest.map Prod.fst)

theorem Mild.not_isLogout {soh : Soh} {w : WireOut} (h : Mild soh w) : ¬ IsLogout soh w := by
  obtain ⟨mt, rest, rfl, hmt, hne⟩ := h
  exact fun hlogout => hne ((isLogout_build hlogout).2 hmt)

section Own

variable {s s' : Session} {body : Body}

theorem Ordinary.mild (h : Ordinary body) : Mild s.soh (build s.soh (s.wireBody body)) := by
  obtain ⟨mt, hmt, rest, rfl, htags⟩ := h
  have hall : ∀ mt ∈ ownTypes, s.soh.byte ∉ mt ∧ mt ≠ MsgType.logout := by
    cases s.soh <;> decide
  rw [wireBody_eq htags]
  exact ⟨mt, _, rfl, hall mt hmt⟩

/-- A message that is no Logout leaves none in the ring. -/
theorem Unparted.sent (h : s.Unparted) (hb : Ordinary body) : (s.sent body).Unparted := by
  intro rec hrec
  rcases mem_history_sent hrec with hold | hnew
  · exact h rec hold
  · rw [hnew]
    exact @Ordinary.mild s body hb

theorem loggingOn_unparted (h : s.Unparted) : s.loggingOn.Unparted := by
  intro rec hrec
  change rec ∈ (if s.cfg.resetOnLogon = true then [] else s.history) at hrec
  split_ifs at hrec
  · cases hrec
  · exact h rec hrec

theorem heartbeatBody_ordinary (m : Message) : Ordinary (heartbeatBody m) :=
  ⟨_, by decide, _, rfl, (by decide : PlainTags [Tag.testReqID])⟩

theorem rejectBody_ordinary (m : Message) (seq : SeqNum) : Ordinary (rejectBody m seq) :=
  ⟨_, by decide, _, rfl, (by decide : PlainTags [Tag.refSeqNum, Tag.text])⟩

theorem resendBody_ordinary (start : SeqNum) : Ordinary (resendBody start) :=
  ⟨_, by decide, _, rfl, (by decide : PlainTags [Tag.beginSeqNo, Tag.endSeqNo])⟩

theorem logonBody_ordinary (s : Session) : Ordinary s.logonBody :=
  ⟨_, by decide, _, rfl, (by decide : PlainTags [108])⟩

theorem testRequestBody_ordinary (s : Session) : Ordinary s.testRequestBody :=
  ⟨_, by decide, _, rfl, (by decide : PlainTags [Tag.testReqID])⟩

theorem heartbeat_ordinary : Ordinary [(Tag.msgType, MsgType.heartbeat)] :=
  ⟨_, by decide, _, rfl, (by decide : PlainTags [])⟩

end Own

/-! ## Replays -/

/-- A replay is of the type of the message kept, or starts with a field
that is no MsgType. -/
theorem not_isLogout_buildReplay {s : Session} {rec : OutboundRecord} {pr : ParseResult}
    (h : Mild s.soh rec.bytes) (hp : parseOne s.soh rec.bytes = .ok pr) (hnone : pr.err = .none) :
    ¬ IsLogout s.soh (s.buildReplay rec pr.msg).2 := by
  obtain ⟨mt, rest, hrec, hmt, hne⟩ := h
  rw [hrec] at hp
  rw [buildReplay_eq, replayBody]
  dsimp only
  rcases type_of_parse hmt hp hnone with htype | htype
  · rw [htype]
    dsimp only
    rw [List.nil_append]
    rcases hcopied : (s.order.visit pr.msg.fields).filter (fun kv => !skipped kv.1) with
      _ | ⟨⟨t, v⟩, kvs⟩
    · rw [hcopied, List.nil_append]
      intro hl
      have ht : Tag.sendingTime = Tag.msgType := (isLogout_build hl).1
      exact absurd ht (by decide)
    · rw [hcopied, List.cons_append]
      intro hl
      have hmem : (t, v) ∈ (s.order.visit pr.msg.fields).filter fun kv => !skipped kv.1 := by
        rw [hcopied]
        exact List.mem_cons_self ..
      have hskip : skipped t = false := (mem_copied.mp hmem).2
      have ht : t = Tag.msgType := (isLogout_build hl).1
      rw [ht] at hskip
      exact absurd hskip (by decide)
  · rw [htype]
    dsimp only
    rw [List.append_assoc, List.cons_append]
    exact fun hl => hne ((isLogout_build hl).2 hmt)

theorem not_isLogout_buildGapFill (s : Session) (cursor newSeqNo : SeqNum) :
    ¬ IsLogout s.soh (s.buildGapFill cursor newSeqNo).2 := by
  intro hl
  have hval := (isLogout_build hl).2 (by cases s.soh <;> decide)
  exact absurd hval (by decide)

/-- **No answer to a ResendRequest is a Logout.** -/
theorem handleResendRequest_not_isLogout {s s' : Session} {start stop : SeqNum}
    {ws : List WireOut} (hs : s.Unparted) (h : s.handleResendRequest start stop = .ok (s', ws)) :
    ∀ w ∈ ws, ¬ IsLogout s.soh w := by
  intro w hw
  rcases mem_handleResendRequest h hw with ⟨newSeqNo, rfl⟩ | ⟨rec, hrec, pr, hp, hnone, n, rfl⟩
  · exact not_isLogout_buildGapFill s start newSeqNo
  · exact @not_isLogout_buildReplay (s.asked n) rec pr (hs rec hrec) hp hnone

/-! ## One round -/

/-- **What a step does about a Logout**: none while it goes on, and at
most one message, with nothing handed out, where it ends. -/
structure Parts (s s' : Session) (step : SessionStep) : Prop where
  soh : s'.soh = s.soh
  timer : s.testRequestOutstanding = false → s'.testRequestOutstanding = false
  stays : step.disconnect = false → s'.Unparted ∧ ∀ w ∈ step.out, ¬ IsLogout s.soh w
  goes : step.disconnect = true →
    s'.state ≠ .loggedIn ∧ step.app = [] ∧ step.out.length ≤ 1

section Round

variable {s s' : Session} {m : Message} {step : SessionStep}

/-- A step that sends one ordinary message. -/
theorem parts_sent {s₁ : Session} {body : Body} (h : s₁.Unparted) (hsoh : s₁.soh = s.soh)
    (htimer : s.testRequestOutstanding = false → s₁.testRequestOutstanding = false)
    (hb : Ordinary body) :
    Parts s (s₁.sent body) { out := [build s.soh (s₁.wireBody body)] } where
  soh := hsoh
  timer := htimer
  stays _ := by
    refine ⟨h.sent hb, fun w hw => ?_⟩
    rw [List.mem_singleton.mp hw, ← hsoh]
    exact hb.mild.not_isLogout
  goes hd := by cases hd

/-- A step that sends nothing. -/
theorem parts_quiet (h : s'.Unparted) (hsoh : s'.soh = s.soh)
    (htimer : s.testRequestOutstanding = false → s'.testRequestOutstanding = false)
    (app : List AppMessage) : Parts s s' { app := app } where
  soh := hsoh
  timer := htimer
  stays _ := ⟨h, fun _ hw => (by cases hw)⟩
  goes hd := by cases hd

/-- A step that ends the session. -/
theorem parts_end {ws : List WireOut} (hsoh : s'.soh = s.soh)
    (htimer : s.testRequestOutstanding = false → s'.testRequestOutstanding = false)
    (hstate : s'.state ≠ .loggedIn) (hlen : ws.length ≤ 1) :
    Parts s s' { out := ws, disconnect := true } where
  soh := hsoh
  timer := htimer
  stays hd := by cases hd
  goes _ := ⟨hstate, rfl, hlen⟩

theorem Routes.parts {seq : SeqNum} (h : Routes s m seq s' step) (hs : s.Unparted) :
    Parts s s' step := by
  have hoff : SessionState.disconnected ≠ .loggedIn := fun h => by cases h
  cases h with
  | quiet ht => exact parts_quiet hs rfl id []
  | testRequest ht => exact parts_sent hs rfl id (heartbeatBody_ordinary m)
  | resend ht hstart hstop hr =>
    obtain ⟨n, rfl⟩ := handleResendRequest_asked hr
    exact ⟨rfl, id, fun _ => ⟨hs, handleResendRequest_not_isLogout hs hr⟩, fun hd => (by cases hd)⟩
  | acknowledge ht hstate => exact parts_end rfl id hoff (Nat.le_refl 1)
  | acknowledged ht hstate => exact parts_end rfl id hoff (Nat.zero_le 1)
  | app ht => exact parts_quiet hs rfl id [m]
  | unknown ht => exact parts_sent hs rfl id (rejectBody_ordinary m seq)

theorem Receives.parts (h : Receives s m s' step) (hs : s.Unparted) : Parts s s' step := by
  have hstay : s.state = .disconnected → s.state ≠ .loggedIn := fun h h' => by
    rw [h] at h'
    cases h'
  cases h with
  | refused hoff ht => exact parts_end rfl id (hstay hoff) (Nat.zero_le 1)
  | misdirected hoff ht hf => exact parts_end rfl (fun _ => rfl) (hstay hoff) (Nat.zero_le 1)
  | @admitted seq hseq hoff ht hf =>
    exact @parts_sent s (s.accepting m seq) s.logonBody (loggingOn_unparted hs) rfl (fun _ => rfl)
      (logonBody_ordinary s)
  | gap hseq hon hgap => exact parts_sent hs rfl id (resendBody_ordinary _)
  | low hseq hon hlow h0 => exact parts_end rfl id (fun h => by cases h) (Nat.le_refl 1)
  | taken hseq hon htaken hd =>
    obtain ⟨hsoh, htimer, hstays, hgoes⟩ := hd.parts hs
    exact ⟨hsoh, htimer, hstays, hgoes⟩

/-- Behind a message the timer awaits no answer. -/
theorem Turns.parts {buf : Bytes} (h : Turns s buf s' step) (hs : s.Unparted) :
    Parts s s' step ∧ (step.disconnect = false → s'.testRequestOutstanding = false) := by
  rcases h with ⟨hp, herr⟩ | ⟨hp, hnone, hm⟩
  · unfold sendLogout
    rw [buildMessage_eq]
    exact ⟨parts_end rfl id (fun h => by cases h) (Nat.le_refl 1), fun hd => (by cases hd)⟩
  · obtain ⟨hsoh, htimer, hstays, hgoes⟩ := (handleMessage_receives hm).parts (s := s.heard) hs
    exact ⟨⟨hsoh, fun _ => htimer rfl, hstays, hgoes⟩, fun _ => htimer rfl⟩

end Round

/-! ## What a round handed out, and what ended it -/

/-- A round that hands out an order or the cancel of one. -/
def Turn.Orders (r : Turn) : Prop :=
  ∃ m ∈ Turn.message r, Takes r.before m ∧
    (m.msgType = MsgType.newOrderSingle ∨ m.msgType = MsgType.orderCancelRequest)

/-- A round that ends a session that is on: its bytes are no message, or
the message has a number too low, or is a Logout that is taken. -/
def Turn.Quits (r : Turn) : Prop :=
  Turn.message r = none ∨ ∃ m ∈ Turn.message r,
    EndsBy r.before m ∨ (Takes r.before m ∧ m.msgType = MsgType.logout)

/-- **A buffer that keeps orders and the end of the session apart.** -/
def OrdersApart (rs : List Turn) : Prop := rs.Pairwise fun r r' => ¬ (Turn.Orders r ∧ Turn.Quits r')

instance (s : Session) (m : Message) : Decidable (Takes s m) :=
  inferInstanceAs (Decidable (_ ∨ _))

instance (s : Session) (m : Message) : Decidable (EndsBy s m) :=
  inferInstanceAs (Decidable (_ ∨ _))

instance (r : Turn) : Decidable (Turn.Orders r) :=
  inferInstanceAs (Decidable (∃ m ∈ Turn.message r, _ ∧ _))

instance (r : Turn) : Decidable (Turn.Quits r) :=
  inferInstanceAs (Decidable (_ ∨ ∃ m ∈ Turn.message r, _ ∨ _))

instance (rs : List Turn) : Decidable (OrdersApart rs) := inferInstanceAs (Decidable (rs.Pairwise _))

section Handed

variable {s s' : Session} {buf : Bytes} {step : SessionStep} {m : Message}

/-- What a round hands out. -/
theorem Turns.hands (h : Turns s buf s' step) (hm : m ∈ step.app) :
    m.msgType = MsgType.orderCancelReplace ∨ Turn.Orders ⟨s, buf, step, s'⟩ := by
  rcases h with ⟨hp, herr⟩ | @⟨pr, _, _, hp, hnone, hh⟩
  · cases hm
  obtain ⟨rfl, hkind⟩ := handleMessage_kind hh hm
  have hne : step.app ≠ [] := fun he => by
    rw [he] at hm
    cases hm
  have hon : s.heard.state ≠ .disconnected := fun hoff => hne (handleMessage_first hoff hh).2.1
  have htakes : Takes s pr.msg := (handleMessage_takes hon hh).1.mp (.inr hne)
  rcases hkind with hd | hf | hg
  · exact .inr ⟨_, message_eq_some hp hnone, htakes, .inl hd⟩
  · exact .inr ⟨_, message_eq_some hp hnone, htakes, .inr hf⟩
  · exact .inl hg

/-- What ends a session that is on. -/
theorem Turns.quits (h : Turns s buf s' step) (hon : s.state ≠ .disconnected)
    (hd : step.disconnect = true) : Turn.Quits ⟨s, buf, step, s'⟩ := by
  rcases h with ⟨hp, herr⟩ | @⟨pr, _, _, hp, hnone, hh⟩
  · exact .inl (message_eq_none hp herr)
  refine .inr ⟨_, message_eq_some hp hnone, ?_⟩
  rcases (handleMessage_takes (s := s.heard) hon hh).2.1 hd with htakes | hends
  · -- the number is the next one, so it is the type that ends the session
    cases handleMessage_receives hh with
    | refused hoff ht => exact absurd hoff hon
    | misdirected hoff ht hf => exact absurd hoff hon
    | admitted hseq hoff ht hf => exact absurd hoff hon
    | gap hseq hon' hgap => cases hd
    | low hseq hon' hlow h0 => exact .inl (.inl (pr.msg.number_eq hseq ▸ ⟨hlow, h0⟩))
    | taken hseq hon' htaken hr => exact .inr ⟨htakes, hr.kind.2.2.mp hd⟩
  · exact .inl hends

end Handed

/-! ## A call of `on_bytes` -/

/-- The rounds of a call before one that ends the session. -/
structure Staying (s : Session) (rs : List Turn) (s₁ : Session) : Prop where
  soh : s₁.soh = s.soh
  unparted : s₁.Unparted
  timer : rs ≠ [] → s₁.testRequestOutstanding = false
  on : rs ≠ [] → s₁.state ≠ .disconnected
  out : ∀ w ∈ rs.flatMap (·.out.out), ¬ IsLogout s.soh w
  app : ∀ r ∈ rs, ∀ m ∈ r.out.app, m.msgType = MsgType.orderCancelReplace ∨ Turn.Orders r

/-- All rounds of a call that ended the session. -/
structure Parted (s : Session) (rs : List Turn) (s₁ : Session) : Prop where
  soh : s₁.soh = s.soh
  state : s₁.state ≠ .loggedIn
  out : ∀ w ∈ (rs.flatMap (·.out.out)).dropLast, ¬ IsLogout s.soh w
  app : OrdersApart rs → ∀ r ∈ rs, ∀ m ∈ r.out.app, m.msgType = MsgType.orderCancelReplace

section Call

variable {s s' s₁ s₂ : Session} {rs : List Turn} {buf : Bytes} {step : SessionStep}

theorem Staying.take {n : ℕ} (h : Staying s rs s₁) (hn : next s₁ buf = .take n s₂ step) :
    Staying s (rs ++ [⟨s₁, buf, step, s₂⟩]) s₂ := by
  have hturn := turns_of_take hn
  obtain ⟨pr, -, -, -, hm, hd⟩ := message_of_take hn
  obtain ⟨hparts, htimer⟩ := hturn.parts h.unparted
  obtain ⟨hun, hout⟩ := hparts.stays hd
  refine ⟨hparts.soh.trans h.soh, hun, fun _ => htimer hd, fun _ => handleMessage_stays hm hd, ?_, ?_⟩
  · intro w hw
    rw [List.flatMap_append, List.flatMap_singleton] at hw
    rcases List.mem_append.mp hw with hw | hw
    · exact h.out w hw
    · rw [← h.soh]
      exact hout w hw
  · intro r hr m hmem
    rcases List.mem_append.mp hr with hr | hr
    · exact h.app r hr m hmem
    · obtain rfl := List.mem_singleton.mp hr
      exact hturn.hands hmem

theorem Staying.stop (h : Staying s rs s₁) (hn : next s₁ buf = .stop s₂ step) :
    Parted s (rs ++ [⟨s₁, buf, step, s₂⟩]) s₂ := by
  obtain ⟨hturn, hd⟩ := turns_of_stop hn
  obtain ⟨hparts, -⟩ := hturn.parts h.unparted
  obtain ⟨hstate, happ, hlen⟩ := hparts.goes hd
  refine ⟨hparts.soh.trans h.soh, hstate, ?_, ?_⟩
  · -- the step has one message at most, and that is the last
    intro w hw
    rw [List.flatMap_append, List.flatMap_singleton] at hw
    exact h.out w (mem_of_mem_dropLast_append hlen hw)
  · intro hapart r hr m hmem
    rcases List.mem_append.mp hr with hr | hr
    · have hne : rs ≠ [] := fun he => by
        rw [he] at hr
        cases hr
      have hquits := hturn.quits (h.on hne) hd
      have hsplit := (List.pairwise_append.mp hapart).2.2 r hr _ (List.mem_singleton.mpr rfl)
      exact (h.app r hr m hmem).resolve_right fun horders => hsplit ⟨horders, hquits⟩
    · obtain rfl := List.mem_singleton.mp hr
      dsimp only at hmem
      rw [happ] at hmem
      cases hmem

/-- **A call of `on_bytes`** that goes on sends no Logout, and behind a
message it handed out its timer awaits no answer; one that ends the
session sends a Logout last, if at all, and hands out only what no report
follows where orders and the end are kept apart. -/
theorem onBytes_parts {data : Bytes} (hs : s.Unparted) (h : s.onBytes data = .ok (s', step)) :
    s'.soh = s.soh ∧
      ((step.disconnect = false ∧ s'.Unparted ∧ (∀ w ∈ step.out, ¬ IsLogout s.soh w) ∧
          (step.app ≠ [] → s'.testRequestOutstanding = false)) ∨
        (step.disconnect = true ∧ s'.state ≠ .loggedIn ∧
          (∀ w ∈ step.out.dropLast, ¬ IsLogout s.soh w) ∧
          (OrdersApart (s.turns data) → ∀ m ∈ step.app, m.msgType = MsgType.orderCancelReplace))) := by
  obtain ⟨hstep, hcase⟩ := onBytes_inv (J := fun rs s₁ _ => Staying s rs s₁) (K := Parted s)
    (fun _ _ _ _ hj => ⟨hj.soh, hj.unparted, hj.timer, hj.on, hj.out, hj.app⟩)
    (fun _ _ _ hk => ⟨hk.soh, hk.state, hk.out, hk.app⟩)
    (fun _ _ _ _ _ _ hj hn => hj.take hn) (fun _ _ _ _ _ hj hn => hj.stop hn)
    ⟨rfl, hs, fun h => absurd rfl h, fun h => absurd rfl h, fun _ hw => (by cases hw),
      fun _ hr => (by cases hr)⟩ h
  have hout : step.out = (s.turns data).flatMap (·.out.out) := by
    rw [hstep, SessionStep.out_mergeAll, List.flatMap_map]
  have happ : step.app = (s.turns data).flatMap (·.out.app) := by
    rw [hstep, SessionStep.app_mergeAll, List.flatMap_map]
  rcases hcase with ⟨hd, hstay⟩ | ⟨hd, hparted⟩
  · refine ⟨hstay.soh, .inl ⟨hd, hstay.unparted, hout ▸ hstay.out, fun hne => ?_⟩⟩
    refine hstay.timer fun hnil => hne ?_
    rw [happ, hnil]
    rfl
  · refine ⟨hparted.soh, .inr ⟨hd, hparted.state, hout ▸ hparted.out, fun hapart m hm => ?_⟩⟩
    rw [happ] at hm
    obtain ⟨r, hr, hm⟩ := List.mem_flatMap.mp hm
    exact hparted.app hapart r hr m hm

/-- **A tick** sends a Logout only where an answer is outstanding. -/
theorem tick_parts {now : Int} (hs : s.Unparted) (h : s.tick now = (s', step)) :
    s'.soh = s.soh ∧ step.app = [] ∧
      ((step.disconnect = false ∧ s'.Unparted ∧ ∀ w ∈ step.out, ¬ IsLogout s.soh w) ∨
        (step.disconnect = true ∧ s.testRequestOutstanding = true ∧ step.out.length ≤ 1)) := by
  have hone : ∀ {body : Body}, Ordinary body →
      ∀ w ∈ [build s.soh (s.wireBody body)], ¬ IsLogout s.soh w := by
    intro body hb w hw
    rw [List.mem_singleton.mp hw]
    exact hb.mild.not_isLogout
  cases tick_cases h with
  | idle => exact ⟨rfl, rfl, .inl ⟨rfl, hs, fun _ hw => (by cases hw)⟩⟩
  | testRequest hon =>
    have hb := testRequestBody_ordinary s
    exact ⟨rfl, rfl, .inl ⟨rfl, hs.sent hb, hone hb⟩⟩
  | timeout hon hout => exact ⟨rfl, rfl, .inr ⟨rfl, hout, Nat.le_refl 1⟩⟩
  | heartbeat hon =>
    exact ⟨rfl, rfl, .inl ⟨rfl, hs.sent heartbeat_ordinary, hone heartbeat_ordinary⟩⟩

end Call

end Session

end Fix

end OrderbookFix
