import OrderbookFix.Fix.Model.Timeline
/-!
# What calls do to the timers

Every call but a tick touches the timers in one way: a message that is
parsed is stamped with the clock and clears an outstanding TestRequest. A
session comes to be logged on only so, and with its timers armed. What a
tick does besides is told by its one message.
-/

namespace OrderbookFix

namespace Fix

namespace Session

/-! ## Readings of the clock -/

section Readings

variable {s s₁ s₂ : Session}

/-- The readings of two calls are those of the first, then those of the
second. -/
theorem readings_append (hclock : s₁.providers.clock = s.providers.clock)
    (h : s.providers.clockCalls ≤ s₁.providers.clockCalls)
    (h' : s₁.providers.clockCalls ≤ s₂.providers.clockCalls) :
    readings s s₁ ++ readings s₁ s₂ = readings s s₂ := by
  have hrange : List.range' s.providers.clockCalls
        (s₁.providers.clockCalls - s.providers.clockCalls) ++
      List.range' s₁.providers.clockCalls
        (s₂.providers.clockCalls - s₁.providers.clockCalls) =
      List.range' s.providers.clockCalls
        (s₂.providers.clockCalls - s.providers.clockCalls) := by
    have hlen : s₂.providers.clockCalls - s.providers.clockCalls =
      (s₁.providers.clockCalls - s.providers.clockCalls) +
        (s₂.providers.clockCalls - s₁.providers.clockCalls) := by omega
    have hstart : s₁.providers.clockCalls =
      s.providers.clockCalls + (s₁.providers.clockCalls - s.providers.clockCalls) := by omega
    rw [hlen, List.range'_append_1.symm, ← hstart]
  rw [readings, readings, readings, hclock, ← List.map_append, hrange]

theorem mem_readings {k : ℕ} (hlo : s.providers.clockCalls ≤ k)
    (hhi : k < s₁.providers.clockCalls) : s.providers.clock k ∈ readings s s₁ := by
  refine List.mem_map_of_mem (List.mem_range'_1.mpr ⟨hlo, ?_⟩)
  omega

/-- Readings in order, where the clock never goes back. -/
theorem clock_le_of_readings {i j : ℕ} (h : (readings s s₁).Pairwise (· ≤ ·))
    (hi : s.providers.clockCalls ≤ i) (hij : i ≤ j) (hj : j < s₁.providers.clockCalls) :
    s.providers.clock i ≤ s.providers.clock j := by
  rcases Nat.lt_or_eq_of_le hij with hlt | rfl
  · rw [readings, List.pairwise_map, List.pairwise_iff_getElem] at h
    have := h (i - s.providers.clockCalls) (j - s.providers.clockCalls)
      (by rw [List.length_range']; omega) (by rw [List.length_range']; omega) (by omega)
    rw [List.getElem_range', List.getElem_range'] at this
    have hi' : s.providers.clockCalls + 1 * (i - s.providers.clockCalls) = i := by omega
    have hj' : s.providers.clockCalls + 1 * (j - s.providers.clockCalls) = j := by omega
    rwa [hi', hj'] at this
  · exact Int.le_refl _

end Readings

/-! ## Messages heard -/

/-- A session that is on has its timers armed. -/
def Armed (s : Session) : Prop := s.state = .loggedIn → s.timersArmed = true

/-- **What a call does to the timers** that parses messages at some
times, and is no tick. -/
structure Hears (s : Session) (ts : List Int) (s' : Session) : Prop where
  clock : s'.providers.clock = s.providers.clock
  asked : s.providers.clockCalls ≤ s'.providers.clockCalls
  secs : s'.cfg.heartbeatSecs = s.cfg.heartbeatSecs
  testAt : s'.testRequestAt = s.testRequestAt
  within : ts.Sublist (readings s s')
  silent : ts = [] → s'.lastInbound = s.lastInbound ∧
    s'.testRequestOutstanding = s.testRequestOutstanding ∧
    (s'.state = .loggedIn → s.state = .loggedIn)
  heard : ∀ t, ts.getLast? = some t → s'.testRequestOutstanding = false ∧
    ∃ i j, s.providers.clockCalls ≤ i ∧ i ≤ j ∧ j < s'.providers.clockCalls ∧
      s.providers.clock i = t ∧ s'.lastInbound = s.providers.clock j
  armed : s.Armed → s'.Armed

section Hears

variable {s s' s₁ s₂ : Session} {ts ts' : List Int} {m : Message} {step : SessionStep}

/-- A call that parses nothing. -/
theorem Hears.of_silent (clock : s'.providers.clock = s.providers.clock)
    (asked : s.providers.clockCalls ≤ s'.providers.clockCalls)
    (secs : s'.cfg.heartbeatSecs = s.cfg.heartbeatSecs)
    (testAt : s'.testRequestAt = s.testRequestAt) (inbound : s'.lastInbound = s.lastInbound)
    (outstanding : s'.testRequestOutstanding = s.testRequestOutstanding)
    (state : s'.state = .loggedIn → s.state = .loggedIn)
    (armed : s'.timersArmed = s.timersArmed) : Hears s [] s' where
  clock := clock
  asked := asked
  secs := secs
  testAt := testAt
  within := List.nil_sublist _
  silent _ := ⟨inbound, outstanding, state⟩
  heard t h := by cases h
  armed ha hon := armed.trans (ha (state hon))

/-- A message parsed with the first reading of the clock. -/
theorem Hears.of_message (clock : s'.providers.clock = s.providers.clock)
    (asked : s.providers.clockCalls < s'.providers.clockCalls)
    (secs : s'.cfg.heartbeatSecs = s.cfg.heartbeatSecs)
    (testAt : s'.testRequestAt = s.testRequestAt)
    (outstanding : s'.testRequestOutstanding = false)
    (inbound : ∃ j, s.providers.clockCalls ≤ j ∧ j < s'.providers.clockCalls ∧
      s'.lastInbound = s.providers.clock j)
    (armed : s.Armed → s'.Armed) :
    Hears s [s.providers.clock s.providers.clockCalls] s' where
  clock := clock
  asked := Nat.le_of_lt asked
  secs := secs
  testAt := testAt
  within := List.singleton_sublist.mpr (mem_readings (Nat.le_refl _) asked)
  silent h := by cases h
  heard t h := by
    obtain ⟨j, hlo, hhi, hj⟩ := inbound
    exact ⟨outstanding, s.providers.clockCalls, j, Nat.le_refl _, hlo, hhi, Option.some.inj h, hj⟩
  armed := armed

theorem Hears.withBuf (h : Hears s ts s') (buf : Bytes) : Hears s ts (s'.withBuf buf) :=
  ⟨h.clock, h.asked, h.secs, h.testAt, h.within, h.silent, h.heard, h.armed⟩

/-- **One call after another.** -/
theorem Hears.trans (h : Hears s ts s₁) (h' : Hears s₁ ts' s₂) : Hears s (ts ++ ts') s₂ where
  clock := h'.clock.trans h.clock
  asked := Nat.le_trans h.asked h'.asked
  secs := h'.secs.trans h.secs
  testAt := h'.testAt.trans h.testAt
  within := by
    rw [← readings_append h.clock h.asked h'.asked]
    exact h.within.append h'.within
  silent hnil := by
    obtain ⟨hts, hts'⟩ := List.append_eq_nil_iff.mp hnil
    obtain ⟨hin, hout, hon⟩ := h.silent hts
    obtain ⟨hin', hout', hon'⟩ := h'.silent hts'
    exact ⟨hin'.trans hin, hout'.trans hout, fun hs => hon (hon' hs)⟩
  heard t ht := by
    rcases List.eq_nil_or_concat ts' with rfl | ⟨front, t', rfl⟩
    · -- the second call parsed nothing, so the last message is of the first
      rw [List.append_nil] at ht
      obtain ⟨hout, i, j, hi, hij, hj, rfl, hin⟩ := h.heard t ht
      obtain ⟨hin', hout', -⟩ := h'.silent rfl
      have hasked := h'.asked
      exact ⟨hout'.trans hout, i, j, hi, hij, by omega, rfl, hin'.trans hin⟩
    · rw [List.getLast?_append_of_ne_nil _ (by simp)] at ht
      obtain ⟨hout, i, j, hi, hij, hj, htime, hin⟩ := h'.heard t ht
      have hasked := h.asked
      rw [h.clock] at htime hin
      exact ⟨hout, i, j, by omega, hij, hj, htime, hin⟩
  armed ha := h'.armed (h.armed ha)

theorem sent_hears (s : Session) (body : Body) : Hears s [] (s.sent body) :=
  .of_silent rfl (Nat.le_succ _) rfl rfl rfl rfl id rfl

/-- What a message in sequence does after it was stamped. -/
theorem Routes.hears {seq : SeqNum} (h : Routes { s.heard with inSeq := seq } m seq s' step) :
    Hears s [s.providers.clock s.providers.clockCalls] s' := by
  have hlt : s.providers.clockCalls < s.providers.clockCalls + 1 := Nat.lt_succ_self _
  have hlt' : s.providers.clockCalls < s.providers.clockCalls + 1 + 1 := by omega
  -- where no message is built the clock was read once, else twice
  have hat : ∃ j, s.providers.clockCalls ≤ j ∧ j < s.providers.clockCalls + 1 ∧
    s.providers.clock s.providers.clockCalls = s.providers.clock j := ⟨_, Nat.le_refl _, hlt, rfl⟩
  have hat' : ∃ j, s.providers.clockCalls ≤ j ∧ j < s.providers.clockCalls + 1 + 1 ∧
    s.providers.clock s.providers.clockCalls = s.providers.clock j := ⟨_, Nat.le_refl _, hlt', rfl⟩
  cases h with
  | quiet _ => exact .of_message rfl hlt rfl rfl rfl hat id
  | testRequest _ => exact .of_message rfl hlt' rfl rfl rfl hat' id
  | resend _ _ _ hr =>
    obtain ⟨n, rfl⟩ := handleResendRequest_asked hr
    exact .of_message rfl hlt rfl rfl rfl hat id
  | acknowledge _ _ => exact .of_message rfl hlt' rfl rfl rfl hat' fun _ h => by cases h
  | acknowledged _ _ => exact .of_message rfl hlt rfl rfl rfl hat fun _ h => by cases h
  | app _ => exact .of_message rfl hlt rfl rfl rfl hat id
  | unknown _ => exact .of_message rfl hlt' rfl rfl rfl hat' id

/-- **What a parsed message does to the timers.** -/
theorem Receives.hears (h : Receives s.heard m s' step) :
    Hears s [s.providers.clock s.providers.clockCalls] s' := by
  -- the readings of a Logon: one for the parse, two of its own, one for the answer
  have hlogon : ∀ n, s.providers.clockCalls + 3 ≤ n → ∃ j, s.providers.clockCalls ≤ j ∧ j < n ∧
      s.providers.clock (s.providers.clockCalls + 1) = s.providers.clock j :=
    fun n hn => ⟨s.providers.clockCalls + 1, by omega, by omega, rfl⟩
  have hsent : ∃ j, s.providers.clockCalls ≤ j ∧ j < s.providers.clockCalls + 1 + 1 ∧
    s.providers.clock s.providers.clockCalls = s.providers.clock j :=
      ⟨_, Nat.le_refl _, by omega, rfl⟩
  have hlt : ∀ n, s.providers.clockCalls < s.providers.clockCalls + 1 + n := by
    intro n
    omega
  cases h with
  | refused hoff _ =>
    exact .of_message rfl (hlt 0) rfl rfl rfl ⟨_, Nat.le_refl _, hlt 0, rfl⟩ id
  | misdirected hoff _ _ =>
    exact .of_message rfl (hlt 2) rfl rfl rfl (hlogon _ (Nat.le_refl _)) fun _ _ => rfl
  | admitted _ _ _ _ =>
    exact .of_message rfl (hlt 3) rfl rfl rfl (hlogon _ (Nat.le_succ _)) fun _ _ => rfl
  | gap _ _ _ => exact .of_message rfl (hlt 1) rfl rfl rfl hsent id
  | low _ _ _ _ => exact .of_message rfl (hlt 1) rfl rfl rfl hsent fun _ h => by cases h
  | taken _ _ _ hd => exact hd.hears

/-- **What a round does to the timers.** -/
theorem Turns.hears {buf : Bytes} (h : Turns s buf s' step) :
    Hears s (Turn.heardAt ⟨s, buf, step, s'⟩).toList s' := by
  unfold Turn.heardAt Turn.message
  rcases h with ⟨hp, herr⟩ | ⟨hp, hnone, hm⟩
  · dsimp only
    rw [hp]
    dsimp only
    rw [if_neg herr]
    unfold sendLogout
    rw [buildMessage_eq]
    exact .of_silent rfl (Nat.le_succ _) rfl rfl rfl rfl (fun h => by cases h) rfl
  · dsimp only
    rw [hp]
    dsimp only
    rw [if_pos hnone]
    exact (handleMessage_receives hm).hears

/-- **What `on_bytes` does to the timers.** -/
theorem onBytes_hears {data : Bytes} (h : s.onBytes data = .ok (s', step)) :
    Hears s ((s.turns data).filterMap Turn.heardAt) s' := by
  have hround : ∀ (rs : List Turn) (s₁ : Session) (buf : Bytes) (s₂ : Session)
      (step : SessionStep), Hears s (rs.filterMap Turn.heardAt) s₁ → Turns s₁ buf s₂ step →
      Hears s ((rs ++ [(⟨s₁, buf, step, s₂⟩ : Turn)]).filterMap Turn.heardAt) s₂ := by
    intro rs s₁ buf s₂ step hj hturn
    have hone : [(⟨s₁, buf, step, s₂⟩ : Turn)].filterMap Turn.heardAt =
        (Turn.heardAt ⟨s₁, buf, step, s₂⟩).toList := by
      rcases ht : Turn.heardAt ⟨s₁, buf, step, s₂⟩ with _ | t
      · simp [ht]
      · simp [ht]
    rw [List.filterMap_append, hone]
    exact hj.trans hturn.hears
  obtain ⟨-, hcase⟩ := onBytes_inv (J := fun rs s₁ _ => Hears s (rs.filterMap Turn.heardAt) s₁)
    (K := fun rs s₁ => Hears s (rs.filterMap Turn.heardAt) s₁)
    (fun _ _ b _ hj => hj.withBuf b) (fun _ _ b hk => hk.withBuf b)
    (fun rs s₁ buf n s₂ step hj hn => hround rs s₁ buf s₂ step hj (turns_of_take hn))
    (fun rs s₁ buf s₂ step hj hn => hround rs s₁ buf s₂ step hj (turns_of_stop hn).1)
    (.of_silent rfl (Nat.le_refl _) rfl rfl rfl rfl id rfl) h
  rcases hcase with ⟨-, hj⟩ | ⟨-, hk⟩
  · exact hj
  · exact hk

/-- **What a call other than a tick tells of the peer**, and does to the
timers. -/
theorem perform_hears {c : Call} {out : List SessionStep} (h : s.perform c = .ok (s', out))
    (hc : c.now = none) :
    ∃ ts, Moment.events ⟨s, c, out, s'⟩ = ts.map .heard ∧ Hears s ts s' := by
  cases perform_cases h with
  | initiateLogon =>
    exact ⟨[], rfl, .of_silent rfl (Nat.le_succ _) rfl rfl rfl rfl (fun h => by cases h) rfl⟩
  | onBytes hb => exact ⟨_, rfl, onBytes_hears hb⟩
  | executionReport body => exact ⟨[], rfl, sent_hears s _⟩
  | heartbeat => exact ⟨[], rfl, sent_hears s _⟩
  | logout text =>
    exact ⟨[], rfl, .of_silent rfl (Nat.le_succ _) rfl rfl rfl rfl (fun h => by cases h) rfl⟩
  | resetSeq => exact ⟨[], rfl, .of_silent rfl (Nat.le_refl _) rfl rfl rfl rfl id rfl⟩
  | tick _ => cases hc

/-- A call with a time is a tick. -/
theorem perform_tick {c : Call} {out : List SessionStep} {now : Int}
    (h : s.perform c = .ok (s', out)) (hc : c.now = some now) :
    ∃ step, c = .tick now ∧ out = [step] ∧ s.tick now = (s', step) := by
  cases perform_cases h with
  | @tick now' _ step ht =>
    obtain rfl : now' = now := Option.some.inj hc
    exact ⟨step, rfl, rfl, ht⟩
  | _ => cases hc

end Hears

/-! ## Ticks -/

section Tick

variable {s s' : Session} {now : Int} {step : SessionStep}

/-- A message of the session's own starts with its type. -/
theorem startsWith_wire (s : Session) (mt mt' : Bytes) (rest : Body) (hmt : s.soh.byte ∉ mt)
    (htags : PlainTags (rest.map Prod.fst)) :
    StartsWith s.soh mt' (build s.soh (s.wireBody ((Tag.msgType, mt) :: rest))) ↔ mt = mt' := by
  rw [wireBody_eq htags, headed, List.cons_append]
  exact startsWith_build_iff hmt

/-- What such a message tells, by its type. -/
theorem tickEvent_wire (s : Session) (now : Int) (mt : Bytes) (rest : Body) (hmt : s.soh.byte ∉ mt)
    (htags : PlainTags (rest.map Prod.fst)) :
    tickEvent s.soh now (build s.soh (s.wireBody ((Tag.msgType, mt) :: rest))) =
      if mt = MsgType.testRequest then some (.tested now)
      else if mt = MsgType.logout then some (.timedOut now) else none := by
  rw [tickEvent]
  simp only [startsWith_wire s mt _ rest hmt htags]

/-- **What a tick tells of the peer**, and does to the timers. -/
inductive Tells (s : Session) (now : Int) (s' : Session) : List Event → Prop
  | nothing (h : Hears s [] s') : Tells s now s' []
  | tested (h : s.Timed) (hout : s.testRequestOutstanding = false)
      (hlate : s.window ≤ now - s.lastInbound)
      (hs' : s' = { s.sent s.testRequestBody with
        testRequestAt := now, testRequestOutstanding := true }) : Tells s now s' [.tested now]
  | timedOut (h : s.Timed) (hout : s.testRequestOutstanding = true)
      (hlate : s.window ≤ now - s.testRequestAt) (hs' : s'.state ≠ .loggedIn)
      (hsecs : s'.cfg.heartbeatSecs = s.cfg.heartbeatSecs) : Tells s now s' [.timedOut now]

theorem TicksAt.tells (h : TicksAt s now s' step) :
    Tells s now s' (Moment.events ⟨s, .tick now, [step], s'⟩) := by
  have hone : ∀ (w : WireOut) (d : Bool),
      Moment.events ⟨s, .tick now, [{ out := [w], disconnect := d }], s'⟩ =
        (tickEvent s.soh now w).toList := by
    intro w d
    change [w].filterMap (tickEvent s.soh now) = _
    rcases ht : tickEvent s.soh now w with _ | e
    · simp [ht]
    · simp [ht]
  cases h with
  | off _ => exact .nothing (.of_silent rfl (Nat.le_refl _) rfl rfl rfl rfl id rfl)
  | testRequest ht hout hlate =>
    have hevent := tickEvent_wire s now MsgType.testRequest
      [(Tag.testReqID, ascii "tr-" ++ dec (s.outSeq + 1))] (by cases s.soh <;> decide)
      (by decide : PlainTags [Tag.testReqID])
    rw [hone, testRequestBody, hevent]
    exact .tested ht hout hlate rfl
  | timeout ht hout hlate =>
    have hevent : tickEvent s.soh now
        (build s.soh (s.leaving.wireBody (logoutBody (ascii "heartbeat timeout")))) = _ :=
      tickEvent_wire s.leaving now MsgType.logout [(Tag.text, ascii "heartbeat timeout")]
        (by cases s.leaving.soh <;> decide) (by decide)
    rw [hone, hevent]
    exact .timedOut ht hout hlate (fun h => by cases h) rfl
  | heartbeat _ _ _ =>
    rw [hone, tickEvent_wire s now MsgType.heartbeat [] (by cases s.soh <;> decide) (by decide)]
    exact .nothing (sent_hears s _)
  | idle _ _ _ => exact .nothing (.of_silent rfl (Nat.le_refl _) rfl rfl rfl rfl id rfl)

/-- **A tick that is late enough tests the peer.** -/
theorem tick_tested (h : s.Timed) (hout : s.testRequestOutstanding = false)
    (hlate : s.window ≤ now - s.lastInbound) :
    ∃ s' step, s.tick now = (s', step) ∧
      Moment.events ⟨s, .tick now, [step], s'⟩ = [.tested now] ∧
      readings s s' = [s.providers.clock s.providers.clockCalls] := by
  rcases ht : s.tick now with ⟨s', step⟩
  refine ⟨s', step, rfl, ?_⟩
  have htells := (tick_ticksAt ht).tells
  cases tick_ticksAt ht with
  | off hoff => exact absurd h hoff
  | timeout _ hout' _ =>
    rw [hout] at hout'
    cases hout'
  | heartbeat _ hheard _ => exact absurd hlate (Int.not_le.mpr (hheard hout))
  | idle _ hheard _ => exact absurd hlate (Int.not_le.mpr (hheard hout))
  | testRequest _ _ _ =>
    refine ⟨?_, ?_⟩
    · generalize Moment.events _ = es at htells ⊢
      cases htells with
      | nothing hh =>
        obtain ⟨-, hsame, -⟩ := hh.silent rfl
        rw [hout] at hsame
        cases hsame
      | tested _ _ _ _ => rfl
      | timedOut _ hout' _ _ _ =>
        rw [hout] at hout'
        cases hout'
    · change (List.range' _ (s.providers.clockCalls + 1 - s.providers.clockCalls)).map _ = _
      rw [Nat.add_sub_cancel_left]
      rfl

/-- **A tick that sends a Heartbeat** finds the last message an interval
ago. -/
theorem TicksAt.late_of_heartbeat (h : TicksAt s now s' step) {w : WireOut} (hmem : w ∈ step.out)
    (hw : StartsWith s.soh MsgType.heartbeat w) :
    s.cfg.heartbeatSecs * second ≤ now - s.lastOutbound := by
  cases h with
  | off _ => cases hmem
  | testRequest _ _ _ =>
    rw [List.mem_singleton.mp hmem, testRequestBody] at hw
    have heq := (startsWith_wire s MsgType.testRequest _
      [(Tag.testReqID, ascii "tr-" ++ dec (s.outSeq + 1))] (by cases s.soh <;> decide)
      (by decide : PlainTags [Tag.testReqID])).mp hw
    exact absurd heq (by decide)
  | timeout _ _ _ =>
    rw [List.mem_singleton.mp hmem] at hw
    have heq := (startsWith_wire s.leaving MsgType.logout _
      [(Tag.text, ascii "heartbeat timeout")] (by cases s.leaving.soh <;> decide)
      (by decide)).mp hw
    exact absurd heq (by decide)
  | heartbeat _ _ hlate => exact hlate
  | idle _ _ _ => cases hmem

/-- **After a tick the session spoke lately**: less than its interval ago,
or in the tick itself. -/
theorem TicksAt.recent (h : TicksAt s now s' step) (ha : s.Armed)
    (hsecs : 0 < s.cfg.heartbeatSecs) (hon : s'.state = .loggedIn) :
    now - s'.lastOutbound < s.cfg.heartbeatSecs * second ∨ s'.lastOutbound ∈ readings s s' := by
  cases h with
  | off hoff => exact absurd ⟨hon, hsecs, ha hon⟩ hoff
  | testRequest _ _ _ => exact .inr (mem_readings (Nat.le_refl _) (Nat.lt_succ_self _))
  | timeout _ _ _ => cases hon
  | heartbeat _ _ _ => exact .inr (mem_readings (Nat.le_refl _) (Nat.lt_succ_self _))
  | idle _ _ hrecent => exact .inl hrecent

end Tick

end Session

end Fix

end OrderbookFix
