import OrderbookFix.Fix.Helpers.Answer
import OrderbookFix.Fix.Liveness
/-!
# When the session last spoke

A Heartbeat is due when the session has sent nothing for its interval,
and what it goes by is the stamp of the last message built. Messages that
answer a ResendRequest are put on the wire without being built as the
others are and leave no stamp, and a Logon to someone else leaves one
though nothing is sent. Where neither happens, the stamp is a reading of
the last call that sent anything.
-/

namespace OrderbookFix

namespace Fix

namespace Session

open SessionStep

/-! ## Calls that stamp what they send -/

/-- An end of the range a ResendRequest asks for. -/
def bound (m : Message) (t : Int) : SeqNum := (number m t).toOption.getD 0

/-- A ResendRequest that is answered: it is taken, and for its range a
GapFill is due, or a message of the ring that can be replayed. -/
def Answers (s : Session) (m : Message) : Prop :=
  s.TakesResend m ∧
    (s.gapDue (bound m Tag.beginSeqNo) (bound m Tag.endSeqNo) ≠ none ∨
      s.replayed (bound m Tag.beginSeqNo) (bound m Tag.endSeqNo) ≠ [])

/-- A Logon to someone else. -/
def Misdirects (s : Session) (m : Message) : Prop :=
  s.state = .disconnected ∧ m.msgType = MsgType.logon ∧
    (m.get Tag.targetCompID).any (· ≠ s.cfg.senderCompId) = true

/-- A round whose stamp is to be trusted. -/
def Trusted (r : Turn) : Prop :=
  ∀ m ∈ Turn.message r, ¬ r.before.Answers m ∧ ¬ r.before.Misdirects m

/-- **A call whose stamp is to be trusted**: no ResendRequest it takes has
anything due, and no Logon it takes is to someone else. -/
def Stamping (p : Moment) : Prop := ∀ r ∈ p.before.turnsBy p.call, Trusted r

section Decide

variable (s : Session) (r : Turn) (m : Message) (p : Moment)

instance : Decidable (s.Answers m) := inferInstanceAs (Decidable (_ ∧ _))

instance : Decidable (s.Misdirects m) := inferInstanceAs (Decidable (_ ∧ _))

instance : Decidable (Trusted r) :=
  inferInstanceAs (Decidable (∀ m ∈ Turn.message r, ¬ r.before.Answers m ∧ ¬ r.before.Misdirects m))

instance : Decidable (Stamping p) :=
  inferInstanceAs (Decidable (∀ r ∈ p.before.turnsBy p.call, Trusted r))

end Decide

/-- **A stamp that follows what is sent.** -/
structure Stamps (s : Session) (ws : List WireOut) (s' : Session) : Prop where
  clock : s'.providers.clock = s.providers.clock
  asked : s.providers.clockCalls ≤ s'.providers.clockCalls
  quiet : ws = [] → s'.lastOutbound = s.lastOutbound
  spoke : ws ≠ [] → s'.lastOutbound ∈ readings s s'

section Stamps

variable {s s' s₁ s₂ : Session} {ws ws' : List WireOut} {m : Message} {step : SessionStep}

/-- Nothing sent. -/
theorem Stamps.of_quiet (clock : s'.providers.clock = s.providers.clock)
    (asked : s.providers.clockCalls ≤ s'.providers.clockCalls)
    (out : s'.lastOutbound = s.lastOutbound) : Stamps s [] s' :=
  ⟨clock, asked, fun _ => out, fun h => absurd rfl h⟩

/-- One message built, with the last reading of the clock. -/
theorem Stamps.of_sent {w : WireOut} {k : ℕ} (clock : s'.providers.clock = s.providers.clock)
    (hlo : s.providers.clockCalls ≤ k) (hhi : k < s'.providers.clockCalls)
    (out : s'.lastOutbound = s.providers.clock k) : Stamps s [w] s' := by
  refine ⟨clock, by omega, fun h => absurd h (List.cons_ne_nil _ _), fun _ => ?_⟩
  rw [out]
  exact mem_readings hlo hhi

theorem Stamps.withBuf (h : Stamps s ws s') (buf : Bytes) : Stamps s ws (s'.withBuf buf) :=
  ⟨h.clock, h.asked, h.quiet, h.spoke⟩

/-- **One call after another.** -/
theorem Stamps.trans (h : Stamps s ws s₁) (h' : Stamps s₁ ws' s₂) : Stamps s (ws ++ ws') s₂ := by
  have hsplit := readings_append h.clock h.asked h'.asked
  refine ⟨h'.clock.trans h.clock, Nat.le_trans h.asked h'.asked, fun hnil => ?_, fun hne => ?_⟩
  · obtain ⟨hws, hws'⟩ := List.append_eq_nil_iff.mp hnil
    exact (h'.quiet hws').trans (h.quiet hws)
  · rw [← hsplit]
    by_cases hws' : ws' = []
    · rw [hws', List.append_nil] at hne
      rw [h'.quiet hws']
      exact List.mem_append_left _ (h.spoke hne)
    · exact List.mem_append_right _ (h'.spoke hws')

/-- A message built after the clock was read for the message it answers. -/
theorem Stamps.of_reply {w : WireOut} (clock : s'.providers.clock = s.providers.clock)
    (asked : s'.providers.clockCalls = s.providers.clockCalls + 2)
    (out : s'.lastOutbound = s.providers.clock (s.providers.clockCalls + 1)) : Stamps s [w] s' :=
  .of_sent clock (Nat.le_succ _) (by omega) out

theorem bound_eq {t : Int} {k : SeqNum} (h : number m t = .ok k) : bound m t = k := by
  rw [bound, h]
  rfl

theorem Routes.stamps {seq : SeqNum} (h : Routes { s.heard with inSeq := seq } m seq s' step)
    (hdue : m.msgType = MsgType.resendRequest →
      s.gapDue (bound m Tag.beginSeqNo) (bound m Tag.endSeqNo) = none ∧
        s.replayed (bound m Tag.beginSeqNo) (bound m Tag.endSeqNo) = []) :
    Stamps s step.out s' := by
  have hle : s.providers.clockCalls ≤ s.providers.clockCalls + 1 := Nat.le_succ _
  cases h with
  | quiet _ => exact .of_quiet rfl hle rfl
  | testRequest _ => exact .of_reply rfl rfl rfl
  | @resend start stop _ ws ht hstart hstop hr =>
    -- the answer has no stamp of its own, so it has to be empty
    have hnil := hdue ht
    rw [bound_eq hstart, bound_eq hstop] at hnil
    have hws : ws = [] := (handleResendRequest_eq_nil_iff hr).mpr hnil
    obtain ⟨n, rfl⟩ := handleResendRequest_asked hr
    rw [hws]
    exact .of_quiet rfl hle rfl
  | acknowledge _ _ => exact .of_reply rfl rfl rfl
  | acknowledged _ _ => exact .of_quiet rfl hle rfl
  | app _ => exact .of_quiet rfl hle rfl
  | unknown _ => exact .of_reply rfl rfl rfl

/-- **What a parsed message does to the stamp.** -/
theorem Receives.stamps (h : Receives s.heard m s' step) (hanswers : ¬ s.Answers m)
    (hmis : ¬ s.Misdirects m) : Stamps s step.out s' := by
  cases h with
  | refused _ _ => exact .of_quiet rfl (Nat.le_succ _) rfl
  | misdirected hoff ht hf => exact absurd ⟨hoff, ht, hf⟩ hmis
  | admitted _ _ _ _ =>
    exact .of_sent (k := s.providers.clockCalls + 3) rfl (Nat.le_add_right _ _)
      (Nat.lt_succ_self _) rfl
  | gap _ _ _ => exact .of_reply rfl rfl rfl
  | low _ _ _ _ => exact .of_reply rfl rfl rfl
  | @taken seq _ _ hseq hon htaken hd =>
    refine hd.stamps fun ht => ?_
    by_contra hne
    exact hanswers ⟨⟨hon, ht, m.number_eq hseq ▸ htaken⟩, not_and_or.mp hne⟩

/-- **What a round does to the stamp.** -/
theorem Turns.stamps {buf : Bytes} (h : Turns s buf s' step)
    (htrust : Trusted ⟨s, buf, step, s'⟩) : Stamps s step.out s' := by
  rcases h with ⟨hp, herr⟩ | ⟨hp, hnone, hm⟩
  · unfold sendLogout
    simp only [buildMessage_eq]
    exact .of_sent (k := s.providers.clockCalls) rfl (Nat.le_refl _) (Nat.lt_succ_self _) rfl
  · obtain ⟨hanswers, hmis⟩ := htrust _ (message_eq_some hp hnone)
    exact (handleMessage_receives hm).stamps hanswers hmis

/-- **What `on_bytes` does to the stamp.** -/
theorem onBytes_stamps {data : Bytes} (h : s.onBytes data = .ok (s', step))
    (htrust : ∀ r ∈ s.turns data, Trusted r) : Stamps s step.out s' := by
  have hround : ∀ (rs : List Turn) (s₁ : Session) (buf : Bytes) (s₂ : Session)
      (step : SessionStep), ((∀ r ∈ rs, Trusted r) →
        Stamps s ((rs.map Round.out).flatMap SessionStep.out) s₁) → Turns s₁ buf s₂ step →
      (∀ r ∈ rs ++ [(⟨s₁, buf, step, s₂⟩ : Turn)], Trusted r) →
      Stamps s (((rs ++ [(⟨s₁, buf, step, s₂⟩ : Turn)]).map Round.out).flatMap SessionStep.out)
        s₂ := by
    intro rs s₁ buf s₂ step hj hturn hall
    obtain ⟨hrs, hlast⟩ := List.forall_mem_append.mp hall
    rw [List.map_append, List.flatMap_append, List.map_singleton, List.flatMap_singleton]
    exact (hj hrs).trans (hturn.stamps (hlast _ (List.mem_singleton_self _)))
  obtain ⟨hstep, hcase⟩ := onBytes_inv
    (J := fun rs s₁ _ => (∀ r ∈ rs, Trusted r) →
      Stamps s ((rs.map Round.out).flatMap SessionStep.out) s₁)
    (K := fun rs s₁ => (∀ r ∈ rs, Trusted r) →
      Stamps s ((rs.map Round.out).flatMap SessionStep.out) s₁)
    (fun _ _ b _ hj hall => (hj hall).withBuf b) (fun _ _ b hk hall => (hk hall).withBuf b)
    (fun rs s₁ buf n s₂ step hj hn => hround rs s₁ buf s₂ step hj (turns_of_take hn))
    (fun rs s₁ buf s₂ step hj hn => hround rs s₁ buf s₂ step hj (turns_of_stop hn).1)
    (fun _ => .of_quiet rfl (Nat.le_refl _) rfl) h
  rw [hstep, out_mergeAll]
  rcases hcase with ⟨-, hj⟩ | ⟨-, hk⟩
  · exact hj htrust
  · exact hk htrust

theorem tick_stamps {now : Int} (h : s.tick now = (s', step)) : Stamps s step.out s' := by
  have hsent : s.providers.clockCalls < s.providers.clockCalls + 1 := Nat.lt_succ_self _
  cases tick_ticksAt h with
  | off _ => exact .of_quiet rfl (Nat.le_refl _) rfl
  | testRequest _ _ _ => exact .of_sent rfl (Nat.le_refl _) hsent rfl
  | timeout _ _ _ => exact .of_sent rfl (Nat.le_refl _) hsent rfl
  | heartbeat _ _ _ => exact .of_sent rfl (Nat.le_refl _) hsent rfl
  | idle _ _ _ => exact .of_quiet rfl (Nat.le_refl _) rfl

/-- **Every call** whose stamp is to be trusted. -/
theorem perform_stamps {c : Call} {out : List SessionStep} (h : s.perform c = .ok (s', out))
    (htrust : Stamping ⟨s, c, out, s'⟩) : Stamps s (out.flatMap SessionStep.out) s' := by
  have hsent : s.providers.clockCalls < s.providers.clockCalls + 1 := Nat.lt_succ_self _
  cases perform_cases h with
  | initiateLogon => exact .of_sent rfl (Nat.le_refl _) hsent rfl
  | onBytes hb =>
    rw [List.flatMap_singleton]
    exact onBytes_stamps hb htrust
  | executionReport body => exact .of_sent rfl (Nat.le_refl _) hsent rfl
  | heartbeat => exact .of_sent rfl (Nat.le_refl _) hsent rfl
  | logout text => exact .of_sent rfl (Nat.le_refl _) hsent rfl
  | resetSeq => exact .of_quiet rfl (Nat.le_refl _) rfl
  | tick ht =>
    rw [List.flatMap_singleton]
    exact tick_stamps ht

end Stamps

/-! ## Runs -/

/-- The last call of a run that sent anything. -/
def lastSpeaking (ps : List Moment) : Option Moment :=
  (ps.filter fun p => Moment.wires p ≠ []).getLast?

/-- **The stamp of a run**: a reading of the last call that sent anything,
and no earlier than the stamps before it. -/
structure Spoken (ps : List Moment) (s : Session) : Prop where
  last : ∀ q, lastSpeaking ps = some q → s.lastOutbound ∈ Moment.clocked q
  latest : Onward ps → ∀ q ∈ ps, Moment.wires q ≠ [] →
    q.after.lastOutbound ∈ Moment.clocked q ∧ q.after.lastOutbound ≤ s.lastOutbound

section Run

variable {s s' : Session} {ps : List Moment} {c : Call} {out : List SessionStep}

/-- One call keeps the stamp. -/
theorem Spoken.perform (h : Spoken ps s) (hp : s.perform c = .ok (s', out))
    (htrust : Stamping ⟨s, c, out, s'⟩) : Spoken (ps ++ [⟨s, c, out, s'⟩]) s' := by
  have hstamps : Stamps s (Moment.wires ⟨s, c, out, s'⟩) s' := perform_stamps hp htrust
  by_cases hquiet : Moment.wires ⟨s, c, out, s'⟩ = []
  · have hout := hstamps.quiet hquiet
    have hlast : lastSpeaking (ps ++ [⟨s, c, out, s'⟩]) = lastSpeaking ps := by
      rw [lastSpeaking, List.filter_append, List.filter_singleton]
      simp [hquiet, lastSpeaking]
    refine ⟨fun q hq => ?_, fun hf q hq hne => ?_⟩
    · rw [hlast] at hq
      rw [hout]
      exact h.last q hq
    · rw [hout]
      rcases List.mem_append.mp hq with hq | hq
      · exact h.latest hf.init q hq hne
      · rw [List.mem_singleton.mp hq] at hne
        exact absurd hquiet hne
  · have hread := hstamps.spoke hquiet
    have hlast : lastSpeaking (ps ++ [⟨s, c, out, s'⟩]) = some ⟨s, c, out, s'⟩ := by
      rw [lastSpeaking, List.filter_append, List.filter_singleton]
      simp [hquiet]
    refine ⟨fun q hq => ?_, fun hf q hq hne => ?_⟩
    · rw [hlast] at hq
      obtain rfl := Option.some.inj hq
      exact hread
    · rcases List.mem_append.mp hq with hq | hq
      · -- readings of earlier calls are no later than those of this one
        obtain ⟨hmem, -⟩ := h.latest hf.init q hq hne
        refine ⟨hmem, ?_⟩
        rw [Onward, times_concat] at hf
        exact (List.pairwise_append.mp hf).2.2 _
          (List.mem_flatMap.mpr ⟨q, hq, List.mem_append_right _ hmem⟩) _
          (List.mem_append_right _ hread)
      · obtain rfl := List.mem_singleton.mp hq
        exact ⟨hread, Int.le_refl _⟩

theorem run_spoken {cfg : SessionConfig} {soh : Soh} {order : FieldOrder} {now : ℕ → Bytes}
    {clock : ℕ → Int} {calls : List Call}
    (h : run (recorded perform) (makeSession cfg soh order now clock) calls = .ok (s, ps))
    (htrust : ∀ p ∈ ps, Stamping p) : Spoken ps s := by
  refine recorded_inv (J := fun ps s => (∀ p ∈ ps, Stamping p) → Spoken ps s)
    (fun ps s c out s' hj hp hall => ?_) (fun _ => ?_) h htrust
  · obtain ⟨hps, hlast⟩ := List.forall_mem_append.mp hall
    exact (hj hps).perform hp (hlast _ (List.mem_singleton_self _))
  · exact ⟨fun q hq => (by cases hq), fun _ q hq => absurd hq List.not_mem_nil⟩

end Run

/-- **What is sent resets the countdown.** Where no ResendRequest is
answered and no Logon to someone else is refused, the stamp is a reading
of the last call that sent anything; and a tick sends a Heartbeat only if
every call that sent anything did so an interval ago. -/
theorem run_stamped (cfg : SessionConfig) (soh : Soh) (order : FieldOrder) (now : ℕ → Bytes)
    (clock : ℕ → Int) (calls : List Call) (s : Session) (ps : List Moment)
    (hrun : run (recorded perform) (makeSession cfg soh order now clock) calls = .ok (s, ps))
    (htrust : ∀ p ∈ ps, Stamping p) :
    (∀ q, lastSpeaking ps = some q → s.lastOutbound ∈ Moment.clocked q) ∧
    (Onward ps → ∀ pre p post t w, ps = pre ++ p :: post → p.call = .tick t →
      w ∈ Moment.wires p → StartsWith p.before.soh MsgType.heartbeat w →
      ∀ q ∈ pre, Moment.wires q ≠ [] → q.after.lastOutbound ∈ Moment.clocked q ∧
        q.after.lastOutbound ≤ t - cfg.heartbeatSecs * second) := by
  refine ⟨(run_spoken hrun htrust).last, ?_⟩
  rintro hforward pre p post t w rfl hcall hw hbeat q hq hne
  obtain ⟨calls', step, hrun', hbefore, hout, htick⟩ := exists_of_tick hrun hforward hcall
  obtain ⟨hmem, hle⟩ := (run_spoken hrun' fun p hp =>
    htrust p (List.mem_append_left _ hp)).latest hforward.init q hq hne
  -- the tick looks at the stamp of the last of these calls
  rw [Moment.wires, hout, List.flatMap_singleton] at hw
  have hlate := (tick_ticksAt htick).late_of_heartbeat hw hbeat
  rw [hbefore.secs] at hlate
  exact ⟨hmem, by omega⟩

/-- A Logon, and nothing until a tick 30 s later sends a Heartbeat. -/
theorem run_stamped_quiet_peer :
    ∃ s p₁ p₂, run (recorded perform)
        (makeSession (intervalConfig 30) .text .stored (fun _ => ascii "20260513-00:00:00.000")
          (clockOf [0, 0, 0, 0, 30]))
        [.onBytes logonBytes, .tick (30 * second)] = .ok (s, [p₁, p₂]) ∧
      (∃ q, lastSpeaking [p₁, p₂] = some q ∧ s.lastOutbound ∈ Moment.clocked q) ∧
      p₁.after.lastOutbound ∈ Moment.clocked p₁ ∧
      p₁.after.lastOutbound ≤ 30 * second - 30 * second := by
  obtain ⟨s, ps, hr, hcheck⟩ := @exists_of_run_check _ _ _ _ (recorded perform)
    (fun r : Session × List Moment => decide (Onward r.2 ∧ (∀ p ∈ r.2, Stamping p) ∧
      (lastSpeaking r.2).isSome ∧ (∀ p ∈ r.2.head?, Moment.wires p ≠ []) ∧
      ∀ p ∈ r.2.getLast?, ∃ w ∈ Moment.wires p, StartsWith p.before.soh MsgType.heartbeat w))
    (makeSession (intervalConfig 30) .text .stored (fun _ => ascii "20260513-00:00:00.000")
      (clockOf [0, 0, 0, 0, 30]))
    [.onBytes logonBytes, .tick (30 * second)] (by decide +kernel)
  obtain ⟨hforward, htrust, hsome, hfirst, hbeat⟩ := of_decide_eq_true hcheck
  obtain ⟨s₁, ps₁, ps', ha, hr', rfl⟩ := exists_of_run_cons hr
  obtain ⟨s₂, ps₂, ps'', ha', hnil, rfl⟩ := exists_of_run_cons hr'
  obtain ⟨-, rfl⟩ := Prod.mk.inj (Except.ok.inj hnil)
  obtain ⟨out₁, -, rfl⟩ := exists_of_recorded ha
  obtain ⟨out₂, -, rfl⟩ := exists_of_recorded ha'
  obtain ⟨q, hq⟩ := Option.isSome_iff_exists.mp hsome
  obtain ⟨w, hw, hstarts⟩ := hbeat _ rfl
  obtain ⟨hlast, hlate⟩ := run_stamped (intervalConfig 30) _ _ _ _ _ s _ hr htrust
  obtain ⟨hmem, hle⟩ := hlate hforward [_] _ [] (30 * second) w rfl rfl hw hstarts _
    (List.mem_singleton_self _) (hfirst _ rfl)
  exact ⟨s, _, _, hr, ⟨q, hq, hlast q hq⟩, hmem, hle⟩

/-- The bytes of a ResendRequest for everything sent. -/
def resendAllBytes : Bytes :=
  build .text [(Tag.msgType, MsgType.resendRequest), (Tag.msgSeqNum, ascii "2"),
    (Tag.beginSeqNo, ascii "1"), (Tag.endSeqNo, ascii "0")]

/-- A ResendRequest answered 20 s after the Logon leaves the stamp of the
Logon, and a tick 10 s later sends a Heartbeat. -/
theorem resend_not_stamped :
    ∃ s ps q w, run (recorded perform)
        (makeSession (intervalConfig 30) .text .stored (fun _ => ascii "20260513-00:00:00.000")
          (clockOf [0, 0, 0, 0, 20, 30]))
        [.onBytes logonBytes, .onBytes resendAllBytes] = .ok (s, ps) ∧
      lastSpeaking ps = some q ∧ Moment.clocked q = [20 * second] ∧ s.lastOutbound = 0 ∧
      (s.tick (30 * second)).2.out = [w] ∧ StartsWith s.soh MsgType.heartbeat w := by
  obtain ⟨s, ps, hr, hcheck⟩ := @exists_of_run_check _ _ _ _ (recorded perform)
    (fun r : Session × List Moment => decide ((lastSpeaking r.2).isSome ∧
      (∀ q ∈ lastSpeaking r.2, Moment.clocked q = [20 * second]) ∧ r.1.lastOutbound = 0 ∧
      (r.1.tick (30 * second)).2.out.length = 1) &&
      (r.1.tick (30 * second)).2.out.any fun w => StartsWith r.1.soh MsgType.heartbeat w)
    (makeSession (intervalConfig 30) .text .stored (fun _ => ascii "20260513-00:00:00.000")
      (clockOf [0, 0, 0, 0, 20, 30]))
    [.onBytes logonBytes, .onBytes resendAllBytes] (by decide +kernel)
  simp only [Bool.and_eq_true, decide_eq_true_eq, List.any_eq_true] at hcheck
  obtain ⟨⟨hsome, hclocked, hstamp, hone⟩, w, hmem, hbeat⟩ := hcheck
  obtain ⟨q, hq⟩ := Option.isSome_iff_exists.mp hsome
  obtain ⟨w', hw'⟩ := List.length_eq_one_iff.mp hone
  rw [hw'] at hmem
  rw [List.mem_singleton.mp hmem] at hbeat
  exact ⟨s, ps, q, w', hr, hq, hclocked q hq, hstamp, hw', hbeat⟩

end Session

end Fix

end OrderbookFix
