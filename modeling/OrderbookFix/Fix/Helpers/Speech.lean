import OrderbookFix.Fix.Helpers.Exchange
import OrderbookFix.Fix.Helpers.Wire
/-!
# What one session says to another

The messages of a session form a row: each is addressed, numbered one
higher than the one before, and of a type that sessions send each other.
A session that is given such a row takes it message by message, answers
some, and sends a row of its own; nothing in it makes the session ask for
a resend or find fault. A Logout ends the row for it.
-/

namespace OrderbookFix

namespace Fix

namespace Session

open SessionStep

/-! ## Rows of messages -/

/-- The types sessions send each other where no number is missing. -/
def spokenTypes : List Bytes :=
  [MsgType.logon, MsgType.heartbeat, MsgType.testRequest, MsgType.reject,
    MsgType.executionReport, MsgType.logout]

/-- Those that are not answered, or end the exchange. -/
def finalTypes : List Bytes := [MsgType.heartbeat, MsgType.reject, MsgType.logout]

/-- The fields of a message from one session to another. -/
def addressed (mt sender target : Bytes) (n : SeqNum) (time : Bytes) (rest : Body) : Body :=
  [(Tag.msgType, mt), (Tag.senderCompID, sender), (Tag.targetCompID, target),
    (Tag.msgSeqNum, dec n), (Tag.sendingTime, time)] ++ rest

/-- **The message with number `n`.** -/
structure Worded (soh : Soh) (sender target : Bytes) (n : SeqNum) (mt : Bytes) (w : WireOut) :
    Prop where
  type : mt ∈ spokenTypes
  built : ∃ time rest, w = build soh (addressed mt sender target n time rest) ∧
    Buildable soh.byte (addressed mt sender target n time rest)

/-- **A row of messages**, of the types `ms`: those after number `n` up to
number `n'`. -/
inductive Row (soh : Soh) (sender target : Bytes) :
    SeqNum → List Bytes → List WireOut → SeqNum → Prop
  | nil (n : SeqNum) : Row soh sender target n [] [] n
  | cons {n n' : SeqNum} {mt : Bytes} {w : WireOut} {ms : List Bytes} {ws : List WireOut}
      (h : Worded soh sender target (n + 1) mt w) (hrest : Row soh sender target (n + 1) ms ws n') :
      Row soh sender target n (mt :: ms) (w :: ws) n'

namespace Row

variable {soh : Soh} {sender target : Bytes} {n n₁ n' : SeqNum} {ms ms' : List Bytes}
  {ws ws' : List WireOut}

theorem append (h : Row soh sender target n ms ws n₁) (h' : Row soh sender target n₁ ms' ws' n') :
    Row soh sender target n (ms ++ ms') (ws ++ ws') n' := by
  induction h with
  | nil n => exact h'
  | cons hw _ ih => exact .cons hw (ih h')

theorem single {mt : Bytes} {w : WireOut} (h : Worded soh sender target (n + 1) mt w) :
    Row soh sender target n [mt] [w] (n + 1) := .cons h (.nil _)

/-- A row without bytes has no message. -/
theorem eq_nil_of_flatten (h : Row soh sender target n ms ws n') (hnil : ws.flatten = []) :
    ws = [] := by
  cases h with
  | nil n => rfl
  | @cons _ _ mt _ _ _ hw _ =>
    obtain ⟨time, rest, rfl, -⟩ := hw.built
    have hlen := length_build soh (addressed mt sender target (n + 1) time rest)
    rw [List.flatten_cons] at hnil
    rw [(List.append_eq_nil_iff.mp hnil).1, List.length_nil] at hlen
    omega

theorem of_nil (h : Row soh sender target n ms [] n') : ms = [] ∧ n' = n := by
  cases h
  exact ⟨rfl, rfl⟩

theorem of_no_types (h : Row soh sender target n [] ws n') : ws = [] ∧ n' = n := by
  cases h
  exact ⟨rfl, rfl⟩

/-- A type is seen on the wire. -/
theorem exists_isType (h : Row soh sender target n ms ws n') {mt : Bytes} (hmt : mt ∈ ms) :
    ∃ w ∈ ws, IsType soh mt w := by
  induction h with
  | nil n => cases hmt
  | cons hw _ ih =>
    rcases List.mem_cons.mp hmt with rfl | hmt
    · obtain ⟨-, time, rest, rfl, hb⟩ := hw
      exact ⟨_, List.mem_cons_self .., isType_of_build (hb.values _ (List.mem_cons_self ..))⟩
    · obtain ⟨w, hw, htype⟩ := ih hmt
      exact ⟨w, List.mem_cons_of_mem _ hw, htype⟩

end Row

/-! ## Sending -/

section Sending

variable {s s₁ s' : Session} {target : Bytes} {ms ms' : List Bytes} {ws ws' : List WireOut}

/-- **A session goes on and sends a row.** -/
structure Sends (target : Bytes) (s s' : Session) (ms : List Bytes) (ws : List WireOut) : Prop where
  soh : s'.soh = s.soh
  sender : s'.cfg.senderCompId = s.cfg.senderCompId
  unbroken : s'.Unbroken
  row : Row s.soh s.cfg.senderCompId target s.outSeq ms ws s'.outSeq

namespace Sends

/-- It sends nothing. -/
theorem silent (hu : s'.Unbroken) (hsoh : s'.soh = s.soh)
    (hsender : s'.cfg.senderCompId = s.cfg.senderCompId) (hout : s'.outSeq = s.outSeq) :
    Sends target s s' [] [] := ⟨hsoh, hsender, hu, hout ▸ .nil _⟩

theorem trans (h : Sends target s s₁ ms ws) (h' : Sends target s₁ s' ms' ws') :
    Sends target s s' (ms ++ ms') (ws ++ ws') where
  soh := h'.soh.trans h.soh
  sender := h'.sender.trans h.sender
  unbroken := h'.unbroken
  row := by
    have hrow := h'.row
    rw [h.soh, h.sender] at hrow
    exact h.row.append hrow

theorem withBuf (h : Sends target s s' ms ws) (buf : Bytes) :
    Sends target s (s'.withBuf buf) ms ws :=
  ⟨h.soh, h.sender, ⟨h.unbroken.sender, h.unbroken.target, h.unbroken.now⟩, h.row⟩

/-- One message of its own. -/
theorem sent {mt : Bytes} {rest : Body} (hu : s.Unbroken) (hmt : mt ∈ spokenTypes)
    (htags : PlainTags (rest.map Prod.fst))
    (hvalues : ∀ v ∈ mt :: rest.map Prod.snd, s.soh.byte ∉ v) :
    Sends s.cfg.targetCompId s (s.sent ((Tag.msgType, mt) :: rest)) [mt]
      [build s.soh (s.wireBody ((Tag.msgType, mt) :: rest))] where
  soh := rfl
  sender := rfl
  unbroken := ⟨hu.sender, hu.target, hu.now⟩
  row := by
    rw [wireBody_eq htags, outSeq_sent htags]
    exact .single ⟨hmt, _, _, rfl, headed_buildable hu htags hvalues⟩

/-- One of those it has a body for. -/
theorem own {body : Body} (hu : s.Unbroken) (hb : Own s.soh body)
    (hmt : ∀ mt rest, body = (Tag.msgType, mt) :: rest → mt ∈ spokenTypes) :
    ∃ mt rest, body = (Tag.msgType, mt) :: rest ∧
      Sends s.cfg.targetCompId s (s.sent body) [mt] [build s.soh (s.wireBody body)] := by
  obtain ⟨mt, rest, rfl, htags, hvalues⟩ := hb.plain
  exact ⟨mt, rest, rfl, .sent hu (hmt mt rest rfl) htags hvalues⟩

end Sends

end Sending

/-! ## Taking one message -/

section Taking

variable {s : Session} {m : Message} {seq : SeqNum} {sender target mt : Bytes} {w : WireOut}

theorem clean_readBack {soh : Soh} {body : Body} (hb : Buildable soh.byte body) :
    Clean soh.byte (readBack soh body).fields := fun _ _ hl =>
  parsedFields_values hb (AList.mem_lookup_iff.mp hl)

/-- **A message in sequence, other than a Logout**: it is let pass, or
answered by a Heartbeat or a Reject. -/
theorem dispatch_spoken (hmt : m.msgType ∈ spokenTypes) (hne : m.msgType ≠ MsgType.logout) :
    s.dispatch m seq = .ok (s, {}) ∨
      m.msgType ∉ finalTypes ∧ ∃ body, (body = heartbeatBody m ∨ body = rejectBody m seq) ∧
        s.dispatch m seq =
          .ok (s.sent body, { out := [build s.soh (s.wireBody body)] }) := by
  have hbeat := buildMessage_eq s (heartbeatBody m)
  have hreject : s.buildReject seq (ascii "unsupported MsgType=" ++ m.msgType) =
      (s.sent (rejectBody m seq), build s.soh (s.wireBody (rejectBody m seq))) :=
    buildMessage_eq s _
  rw [heartbeatBody] at hbeat
  rw [dispatch]
  dsimp only
  simp only [spokenTypes, List.mem_cons, List.not_mem_nil, or_false] at hmt
  rcases hmt with ht | ht | ht | ht | ht | ht
  · refine .inr ⟨by rw [ht]; decide, _, .inr rfl, ?_⟩
    rw [hreject, ht, if_neg (by decide), if_neg (by decide), if_neg (by decide),
      if_neg (by decide), if_neg (by decide), if_neg (by decide)]
  · rw [if_pos ht]
    exact .inl rfl
  · refine .inr ⟨by rw [ht]; decide, _, .inl rfl, ?_⟩
    rw [hbeat, ht, if_neg (by decide), if_pos rfl, heartbeatBody]
  · refine .inl ?_
    rw [ht, if_neg (by decide), if_neg (by decide), if_neg (by decide), if_neg (by decide),
      if_pos (by decide)]
  · refine .inr ⟨by rw [ht]; decide, _, .inr rfl, ?_⟩
    rw [hreject, ht, if_neg (by decide), if_neg (by decide), if_neg (by decide),
      if_neg (by decide), if_neg (by decide), if_neg (by decide)]
  · exact absurd ht hne

/-- **A Logout in sequence.** -/
theorem dispatch_logout (ht : m.msgType = MsgType.logout) :
    s.dispatch m seq = .ok (
      if s.state ≠ .logoutSent then
        ({ s.leaving.sent (logoutBody (ascii "acknowledged")) with state := .disconnected },
          { out := [build s.soh (s.leaving.wireBody (logoutBody (ascii "acknowledged")))]
            disconnect := true })
      else ({ s with state := .disconnected }, { disconnect := true })) := by
  have hsend : s.sendLogout (ascii "acknowledged") =
      (s.leaving.sent (logoutBody (ascii "acknowledged")),
        build s.soh (s.leaving.wireBody (logoutBody (ascii "acknowledged")))) :=
    buildMessage_eq s.leaving _
  rw [dispatch]
  dsimp only
  rw [hsend, ht, if_neg (by decide), if_neg (by decide), if_neg (by decide), if_pos rfl]
  split_ifs <;> rfl

/-- A built message that ends the connection. -/
theorem next_build_stop {s' : Session} {body : Body} {step : SessionStep} {rest : Bytes}
    (hb : Buildable s.soh.byte body) (hlen : (build s.soh body ++ rest).length < 2 ^ 63)
    (hh : s.heard.handleMessage (readBack s.soh body) = .ok (s', step))
    (hd : step.disconnect = true) :
    next s (build s.soh body ++ rest) = .stop s' step := by
  have hpos := length_build s.soh body
  have hne : build s.soh body ++ rest ≠ [] := by
    intro hnil
    rw [(List.append_eq_nil_iff.mp hnil).1, List.length_nil] at hpos
    omega
  rw [next, if_neg hne, parseOne_build hb rest (by omega)]
  dsimp only
  rw [if_neg (fun h => by cases h), if_neg (fun h => h rfl), hh]
  dsimp only
  rw [hd]
  exact if_pos rfl

/-- **A session that can take the messages of `sender`**: it is on, or it
is new and what comes first is a Logon. -/
def Listens (sender : Bytes) (s : Session) (ms : List Bytes) : Prop :=
  s.state ≠ .disconnected ∧ s.cfg.targetCompId = sender ∨
    s.state = .disconnected ∧ s.outSeq = 0 ∧ ms.head? = some MsgType.logon

/-- What comes of a message of type `mt` that is taken. A session that is
on gives an answer that needs none. -/
structure TakesIn (sender mt : Bytes) (s s' : Session) (step : SessionStep) (ms : List Bytes) :
    Prop where
  stays : step.disconnect = false
  on : s'.state ≠ .disconnected
  peer : s'.cfg.targetCompId = sender
  inSeq : s'.inSeq = s.inSeq + 1
  sends : Sends sender s s' ms step.out
  state : s'.state = .logoutSent → s.state = .logoutSent
  answer : s.state ≠ .disconnected → ∀ m ∈ ms, m ∈ finalTypes
  quiet : s.state ≠ .disconnected → mt ∈ finalTypes → ms = []

/-- What comes of a Logout: it is answered unless one was sent before. -/
structure Leaves (sender : Bytes) (s s' : Session) (step : SessionStep) (ms : List Bytes) :
    Prop where
  goes : step.disconnect = true
  sends : Sends sender s s' ms step.out
  parted : s.state = .logoutSent ∨ MsgType.logout ∈ ms
  answer : ∀ m ∈ ms, m ∈ finalTypes

/-- The session as a message in sequence is dispatched. -/
def taking (s : Session) : Session := { s.heard with inSeq := s.inSeq + 1 }

variable {time : Bytes} {rest : Body}

/-- A session that is off takes the Logon it waits for. -/
theorem takes_logon (hu : s.Unbroken)
    (hb : Buildable s.soh.byte
      (addressed MsgType.logon sender s.cfg.senderCompId (s.inSeq + 1) time rest))
    (hoff : s.state = .disconnected) (hout : s.outSeq = 0) :
    ∃ s' step ms, s.heard.handleMessage (readBack s.soh
        (addressed MsgType.logon sender s.cfg.senderCompId (s.inSeq + 1) time rest)) =
        .ok (s', step) ∧ TakesIn sender MsgType.logon s s' step ms := by
  obtain ⟨m, hm⟩ : ∃ m, readBack s.soh
      (addressed MsgType.logon sender s.cfg.senderCompId (s.inSeq + 1) time rest) = m := ⟨_, rfl⟩
  have hget : ∀ kv ∈ addressed MsgType.logon sender s.cfg.senderCompId (s.inSeq + 1) time rest,
      m.get kv.1 = some kv.2 := fun kv hkv => hm ▸ get_of_mem hb hkv
  have hseq : m.seq = .ok (s.inSeq + 1) := hm ▸ seq_of_mem hb (by simp [addressed])
  have ht : m.msgType = MsgType.logon := hm ▸ msgType_of_mem hb (by simp [addressed])
  have hsender := hget (Tag.senderCompID, sender) (by simp [addressed])
  have hto := hget (Tag.targetCompID, s.cfg.senderCompId) (by simp [addressed])
  have hfree : s.soh.byte ∉ sender := hb.values (Tag.senderCompID, sender) (by simp [addressed])
  rw [hm]
  -- the session adopts the sender, starts its numbers and answers
  have hua : (s.heard.accepting m (s.inSeq + 1)).Unbroken := by
    refine ⟨hu.sender, ?_, hu.now⟩
    change s.soh.byte ∉ (m.get Tag.senderCompID).getD s.cfg.targetCompId
    rw [hsender]
    exact hfree
  have hpeer : (s.heard.accepting m (s.inSeq + 1)).cfg.targetCompId = sender := by
    change (m.get Tag.senderCompID).getD s.cfg.targetCompId = sender
    rw [hsender]
    rfl
  obtain ⟨mt, body, hbody, htags, hvalues⟩ := (@Own.logon s.soh s.cfg.heartbeatSecs).plain
  obtain ⟨hmt, rfl⟩ := List.cons.inj hbody
  obtain rfl := (Prod.mk.inj hmt).2
  have hsends := Sends.sent hua (by decide) htags hvalues
  rw [hpeer] at hsends
  have hzero : (s.heard.accepting m (s.inSeq + 1)).outSeq = s.outSeq := by
    change (if s.cfg.resetOnLogon = true then 0 else s.outSeq) = s.outSeq
    rw [hout]
    exact ite_self _
  refine ⟨_, _, [MsgType.logon], handleMessage_logon_eq hoff hseq ht hto, rfl, ?_, hpeer, rfl, ?_,
    ?_, fun hon => absurd hoff hon, fun hon => absurd hoff hon⟩
  · exact fun h => by cases h
  · have hrow := hsends.row
    rw [hzero] at hrow
    exact ⟨rfl, rfl, hsends.unbroken, hrow⟩
  · exact fun h => by cases h

/-- A session that is on takes what is in sequence. -/
theorem takes_next (hu : s.Unbroken) (hmt : mt ∈ spokenTypes) (hne : mt ≠ MsgType.logout)
    (hb : Buildable s.soh.byte (addressed mt sender target (s.inSeq + 1) time rest))
    (hon : s.state ≠ .disconnected) (hpeer : s.cfg.targetCompId = sender) :
    ∃ s' step ms, s.heard.handleMessage (readBack s.soh
        (addressed mt sender target (s.inSeq + 1) time rest)) = .ok (s', step) ∧
      TakesIn sender mt s s' step ms := by
  obtain ⟨m, hm⟩ : ∃ m, readBack s.soh (addressed mt sender target (s.inSeq + 1) time rest) = m :=
    ⟨_, rfl⟩
  have hclean : Clean s.soh.byte m.fields := hm ▸ clean_readBack hb
  have hseq : m.seq = .ok (s.inSeq + 1) := hm ▸ seq_of_mem hb (by simp [addressed])
  have ht : m.msgType = mt := hm ▸ msgType_of_mem hb (by simp [addressed])
  rw [hm]
  have hnext : s.heard.handleMessage m = s.taking.dispatch m (s.inSeq + 1) :=
    handleMessage_next (s := s.heard) hon hseq
  have hu' : s.taking.Unbroken :=
    ⟨hu.sender, hu.target, hu.now⟩
  have hquiet : Sends sender s s.taking [] [] :=
    .silent hu' rfl rfl rfl
  rw [hnext]
  rcases @dispatch_spoken s.taking m (s.inSeq + 1) (ht ▸ hmt) (ht ▸ hne) with
    hd | ⟨hfinal, body, hbody, hd⟩
  · exact ⟨_, _, [], hd, rfl, hon, hpeer, rfl, hquiet, id,
      fun _ m hm => (by cases hm), fun _ _ => rfl⟩
  · have hown : Own s.soh body := by
      rcases hbody with rfl | rfl
      · exact .answer hclean
      · exact .reject _ hclean
    have htype : ∀ mt rest, body = (Tag.msgType, mt) :: rest →
        mt ∈ spokenTypes ∧ mt ∈ finalTypes := by
      rintro mt rest rfl
      rcases hbody with he | he
      · obtain ⟨he, -⟩ := List.cons.inj he
        rw [(Prod.mk.inj he).2]
        decide
      · obtain ⟨he, -⟩ := List.cons.inj he
        rw [(Prod.mk.inj he).2]
        decide
    obtain ⟨mt', rest', rfl, hsends⟩ := Sends.own hu' hown fun mt rest he => (htype mt rest he).1
    have hpeer' : s.taking.cfg.targetCompId = sender := hpeer
    rw [hpeer'] at hsends
    refine ⟨_, _, _, hd, rfl, hon, hpeer, rfl, hquiet.trans hsends, id, fun _ m hm => ?_,
      fun _ hmt' => absurd (ht ▸ hmt') hfinal⟩
    rw [List.nil_append, List.mem_singleton] at hm
    exact hm ▸ (htype mt' rest' rfl).2

/-- A session that is on leaves at a Logout in sequence. -/
theorem leaves_logout (hu : s.Unbroken)
    (hb : Buildable s.soh.byte (addressed MsgType.logout sender target (s.inSeq + 1) time rest))
    (hon : s.state ≠ .disconnected) (hpeer : s.cfg.targetCompId = sender) :
    ∃ s' step ms, s.heard.handleMessage (readBack s.soh
        (addressed MsgType.logout sender target (s.inSeq + 1) time rest)) = .ok (s', step) ∧
      Leaves sender s s' step ms := by
  obtain ⟨m, hm⟩ : ∃ m, readBack s.soh
      (addressed MsgType.logout sender target (s.inSeq + 1) time rest) = m := ⟨_, rfl⟩
  have hseq : m.seq = .ok (s.inSeq + 1) := hm ▸ seq_of_mem hb (by simp [addressed])
  have ht : m.msgType = MsgType.logout := hm ▸ msgType_of_mem hb (by simp [addressed])
  rw [hm]
  have hnext : s.heard.handleMessage m = s.taking.dispatch m (s.inSeq + 1) :=
    handleMessage_next (s := s.heard) hon hseq
  rw [hnext, dispatch_logout ht]
  by_cases hparted : s.state = .logoutSent
  · have hstate : s.taking.state = .logoutSent := hparted
    rw [if_neg (not_not.mpr hstate)]
    exact ⟨_, _, [], rfl, rfl, .silent ⟨hu.sender, hu.target, hu.now⟩ rfl rfl rfl, .inl hparted,
      fun _ hm => by cases hm⟩
  · have hstate : s.taking.state ≠ .logoutSent := hparted
    rw [if_pos hstate]
    have hu' : s.taking.leaving.Unbroken :=
      ⟨hu.sender, hu.target, hu.now⟩
    have hown : Own s.soh (logoutBody (ascii "acknowledged")) := .logout (by cases s.soh <;> decide)
    obtain ⟨mt, body, hbody, hsends⟩ := Sends.own hu' hown fun mt rest he => by
      rw [← (Prod.mk.inj (List.cons.inj he).1).2]
      decide
    obtain rfl := (Prod.mk.inj (List.cons.inj hbody).1).2
    have hpeer' : s.taking.leaving.cfg.targetCompId = sender := hpeer
    rw [hpeer'] at hsends
    exact ⟨_, _, [MsgType.logout], rfl, rfl,
      ⟨rfl, rfl, ⟨hu.sender, hu.target, hu.now⟩, hsends.row⟩, .inr (List.mem_singleton_self _),
      by decide⟩

/-- **The next message of a row**, whatever follows it. -/
theorem hears_next (hu : s.Unbroken) {ms : List Bytes} (hl : Listens sender s (mt :: ms))
    (hw : Worded s.soh sender s.cfg.senderCompId (s.inSeq + 1) mt w) :
    (∃ s' step ms', (∀ tail, (w ++ tail).length < 2 ^ 63 →
        next s (w ++ tail) = .take w.length s' step) ∧ mt ≠ MsgType.logout ∧
        TakesIn sender mt s s' step ms') ∨
      ∃ s' step ms', (∀ tail, (w ++ tail).length < 2 ^ 63 →
        next s (w ++ tail) = .stop s' step) ∧
      mt = MsgType.logout ∧ Leaves sender s s' step ms' := by
  obtain ⟨hmt, time, rest, rfl, hb⟩ := hw
  rcases hl with ⟨hon, hpeer⟩ | ⟨hoff, hout, hhead⟩
  · by_cases hlogout : mt = MsgType.logout
    · subst hlogout
      obtain ⟨s', step, ms', hh, hleaves⟩ := leaves_logout hu hb hon hpeer
      exact .inr ⟨s', step, ms', fun tail hlen => next_build_stop hb hlen hh hleaves.goes, rfl,
        hleaves⟩
    · obtain ⟨s', step, ms', hh, htakes⟩ := takes_next hu hmt hlogout hb hon hpeer
      exact .inl ⟨s', step, ms', fun tail hlen => next_build hb hlen hh htakes.stays, hlogout,
        htakes⟩
  · obtain rfl := Option.some.inj hhead
    obtain ⟨s', step, ms', hh, htakes⟩ := takes_logon hu hb hoff hout
    exact .inl ⟨s', step, ms', fun tail hlen => next_build hb hlen hh htakes.stays, by decide,
      htakes⟩

end Taking

/-! ## Taking what has arrived -/

/-- What a session that is on answers to messages of the types `ms`. -/
def Responds (s : Session) (ms ms' : List Bytes) : Prop :=
  s.state ≠ .disconnected →
    (∀ m ∈ ms', m ∈ finalTypes) ∧ ((∀ m ∈ ms, m ∈ finalTypes) → ms' = [])

/-- How far a session is with a row: it has taken what is of the types
`ms₁`, and `later` is what follows. -/
structure Midway (sender : Bytes) (s₀ : Session) (ms ms₂ : List Bytes) (ws : List WireOut)
    (n : SeqNum) (later : List WireOut) (s : Session) (ms' : List Bytes) (said : List WireOut) :
    Prop where
  taken : ∃ ms₁ ws₁, ms = ms₁ ++ ms₂ ∧ ws = ws₁ ++ later ∧ MsgType.logout ∉ ms₁ ∧
    Row s₀.soh sender s₀.cfg.senderCompId s₀.inSeq ms₁ ws₁ s.inSeq
  row : Row s₀.soh sender s₀.cfg.senderCompId s.inSeq ms₂ later n
  listens : Listens sender s ms₂
  sends : Sends sender s₀ s ms' said
  answers : Responds s₀ ms ms'
  on : s₀.state ≠ .disconnected → s.state ≠ .disconnected
  state : s.state = .logoutSent → s₀.state = .logoutSent

/-- One message further. -/
theorem Midway.next {sender : Bytes} {s₀ s : Session} {ms ms₂ ms' said : List Bytes}
    {ws later : List WireOut} {n : SeqNum} {w : WireOut}
    (h : Midway sender s₀ ms ms₂ ws n (w :: later) s ms' said) :
    (∃ s' step ms₃ ms₄, (∀ tail, (w ++ tail).length < 2 ^ 63 →
        Session.next s (w ++ tail) = .take w.length s' step) ∧
        Midway sender s₀ ms ms₃ ws n later s' (ms' ++ ms₄) (said ++ step.out)) ∨
      ∃ s' step ms₄, (∀ tail, (w ++ tail).length < 2 ^ 63 →
        Session.next s (w ++ tail) = .stop s' step) ∧ MsgType.logout ∈ ms ∧
        Sends sender s₀ s' (ms' ++ ms₄) (said ++ step.out) ∧
        (s₀.state = .logoutSent ∨ MsgType.logout ∈ ms' ++ ms₄) ∧
        (s₀.state ≠ .disconnected → ∀ m ∈ ms' ++ ms₄, m ∈ finalTypes) := by
  obtain ⟨⟨ms₁, ws₁, rfl, rfl, hkeep, hrow₁⟩, hrow₂, hl, hsends, hanswers, hon, hstate⟩ := h
  cases hrow₂ with
  | @cons _ _ mt _ ms₂ _ hw hrest =>
    have hw' := hw
    rw [← hsends.soh, ← hsends.sender] at hw'
    rcases hears_next hsends.unbroken hl hw' with
      ⟨s', step, ms₄, hn, hne, ht⟩ | ⟨s', step, ms₄, hn, rfl, hleave⟩
    · rw [← ht.inSeq] at hw hrest
      refine .inl ⟨s', step, ms₂, ms₄, hn, ⟨ms₁ ++ [mt], ws₁ ++ [w], by simp, by simp, ?_, ?_⟩,
        hrest, .inl ⟨ht.on, ht.peer⟩, hsends.trans ht.sends, fun hon₀ => ⟨?_, fun hall => ?_⟩,
        fun _ => ht.on, fun h => hstate (ht.state h)⟩
      · rw [List.mem_append, List.mem_singleton]
        exact fun h => h.elim hkeep fun he => hne he.symm
      · rw [ht.inSeq] at hw ⊢
        exact hrow₁.append (.single hw)
      · exact List.forall_mem_append.mpr ⟨(hanswers hon₀).1, ht.answer (hon hon₀)⟩
      · rw [(hanswers hon₀).2 hall, ht.quiet (hon hon₀) (hall mt (by simp))]
        rfl
    · refine .inr ⟨s', step, ms₄, hn, by simp, hsends.trans hleave.sends,
        hleave.parted.imp hstate fun h => List.mem_append_right _ h, fun hon₀ => ?_⟩
      exact List.forall_mem_append.mpr ⟨(hanswers hon₀).1, hleave.answer⟩

/-- **Bytes of a row arrive.** The session takes the messages that are
whole, in order, and keeps the start of the next; or a Logout is among
them and it leaves. -/
theorem onBytes_row {sender : Bytes} {s : Session} {ms : List Bytes} {ws : List WireOut}
    {n : SeqNum} {data later : Bytes} (hu : s.Unbroken)
    (hrow : Row s.soh sender s.cfg.senderCompId s.inSeq ms ws n) (hl : Listens sender s ms)
    (hbuf : (s.inBuf ++ data) ++ later = ws.flatten) (hlen : ws.flatten.length < 2 ^ 63) :
    ∃ s' step ms', s.onBytes data = .ok (s', step) ∧
      ((step.disconnect = false ∧ ∃ ms₂ ws', Midway sender s ms ms₂ ws n ws' s' ms' step.out ∧
          s'.inBuf ++ later = ws'.flatten ∧ (later = [] → ws' = [])) ∨
        step.disconnect = true ∧ MsgType.logout ∈ ms ∧ Sends sender s s' ms' step.out ∧
          (s.state = .logoutSent ∨ MsgType.logout ∈ ms') ∧
          (s.state ≠ .disconnected → ∀ m ∈ ms', m ∈ finalTypes)) := by
  have hshows := onBytes_shows s s.inBuf data
  rw [withBuf_inBuf] at hshows
  have hstart : ∃ ms₂ ms',
      Midway sender s ms ms₂ ws n ws s ms' (([] : List SessionStep).flatMap SessionStep.out) :=
    ⟨ms, [], ⟨[], [], rfl, rfl, List.not_mem_nil, .nil _⟩, hrow, hl, .silent hu rfl rfl rfl,
      fun _ => ⟨fun _ hm => (by cases hm), fun _ => rfl⟩, id, id⟩
  have hitems := pumpAll_items steady_next
    (J := fun ws' s' (outs : List SessionStep) => ∃ ms₂ ms',
      Midway sender s ms ms₂ ws n ws' s' ms' (outs.flatMap SessionStep.out))
    (K := fun s' outs => MsgType.logout ∈ ms ∧ ∃ ms', Sends sender s s' ms'
      (outs.flatMap SessionStep.out) ∧ (s.state = .logoutSent ∨ MsgType.logout ∈ ms') ∧
        (s.state ≠ .disconnected → ∀ m ∈ ms', m ∈ finalTypes))
    (fun w ws' s₁ outs ⟨ms₂, ms', hmid⟩ => by
      rcases hmid.next with ⟨s₂, step, ms₃, ms₄, hn, hmid'⟩ | ⟨s₂, step, ms₄, hn, hread, hleft⟩
      · refine .inl ⟨s₂, step, hn, ms₃, ms' ++ ms₄, ?_⟩
        rwa [List.flatMap_append, List.flatMap_singleton]
      · refine .inr ⟨s₂, step, hn, hread, ms' ++ ms₄, ?_⟩
        rwa [List.flatMap_append, List.flatMap_singleton])
    hstart hbuf hlen
  rcases hitems with ⟨ws', s', left, outs, hp, ⟨ms₂, ms', hmid⟩, hleft, hnil⟩ |
    ⟨s', outs, hp, hlogout, ms', hsends, hpart⟩
  · rw [hp] at hshows
    generalize hc : s.onBytes data = c at hshows
    cases hshows with
    | more _ _ _ hd =>
      refine ⟨_, _, ms', rfl, .inl ⟨hd, ms₂, ws', ?_, hleft, hnil⟩⟩
      rw [empty_merge, out_mergeAll]
      exact { hmid with sends := hmid.sends.withBuf left }
  · rw [hp] at hshows
    generalize hc : s.onBytes data = c at hshows
    cases hshows with
    | done _ left _ hd =>
      refine ⟨_, _, ms', rfl, .inr ⟨hd, hlogout, ?_, hpart⟩⟩
      rw [empty_merge, out_mergeAll]
      exact hsends.withBuf left

end Session

end Fix

end OrderbookFix
