import OrderbookFix.Fix.Helpers.Reader
/-!
# Refused messages

A session that is off takes nothing but a Logon to itself. What is no
Logon is refused before anything is done with it. A Logon to someone else
is refused too, but only after the counters were reset, the ring cleared
and the timers armed, so it leaves the session as it was only where there
was nothing to reset.
-/

namespace OrderbookFix

namespace Fix

namespace Session

open SessionStep

/-- **A session left intact**: its numbers, its ring, its CompIDs and its
timers are as before, but for the TestRequest that any parsed message
clears. -/
structure Intact (s s' : Session) : Prop where
  inSeq : s'.inSeq = s.inSeq
  outSeq : s'.outSeq = s.outSeq
  history : s'.history = s.history
  sender : s'.cfg.senderCompId = s.cfg.senderCompId
  target : s'.cfg.targetCompId = s.cfg.targetCompId
  armed : s'.timersArmed = s.timersArmed
  outstanding : s'.testRequestOutstanding = false

/-- A session with nothing for a Logon to reset. -/
def Pristine (s : Session) : Prop :=
  s.timersArmed = true ∧
    (s.cfg.resetOnLogon = true → s.inSeq = 0 ∧ s.outSeq = 0 ∧ s.history = [])

instance (s : Session) : Decidable s.Pristine := inferInstanceAs (Decidable (_ ∧ _))

section Refusal

variable {s s' : Session} {data : Bytes} {step : SessionStep}

/-- A session that is off goes on only after a Logon, which it answers. -/
theorem answers_of_take (hoff : s.state = .disconnected) {buf : Bytes} {n : ℕ}
    (hn : next s buf = .take n s' step) : step.out ≠ [] := by
  obtain ⟨pr, -, -, -, hm, hd⟩ := message_of_take hn
  cases handleMessage_receives hm with
  | refused => cases hd
  | misdirected => cases hd
  | admitted => exact List.cons_ne_nil _ _
  | gap _ hon _ => exact absurd hoff hon
  | low _ hon _ _ => exact absurd hoff hon
  | taken _ hon _ _ => exact absurd hoff hon

/-- A message refused in silence, and what that leaves of the session. -/
theorem refuses_of_stop (hoff : s.state = .disconnected) {buf : Bytes}
    (hn : next s buf = .stop s' step) (hout : step.out = []) :
    ∃ pr, parseOne s.soh buf = .ok pr ∧ pr.err = .none ∧
      ((pr.msg.msgType ≠ MsgType.logon ∧ s' = s.heard) ∨
        (pr.msg.msgType = MsgType.logon ∧ s' = s.heard.loggingOn)) := by
  rcases (turns_of_stop hn).1 with ⟨hp, herr⟩ | ⟨hp, hnone, hm⟩
  · cases hout
  refine ⟨_, hp, hnone, ?_⟩
  cases handleMessage_receives hm with
  | refused _ ht => exact .inl ⟨ht, rfl⟩
  | misdirected _ ht _ => exact .inr ⟨ht, rfl⟩
  | admitted => cases hout
  | gap _ hon _ => exact absurd hoff hon
  | low _ hon _ _ => exact absurd hoff hon
  | taken _ hon _ _ => exact absurd hoff hon

/-- The message a call refuses, and what it leaves of the session. -/
theorem onBytes_refuses (hoff : s.state = .disconnected) (h : s.onBytes data = .ok (s', step))
    (hdisc : step.disconnect = true) (hout : step.out = []) :
    ∃ pr left, parseOne s.soh (s.inBuf ++ data) = .ok pr ∧ pr.err = .none ∧
      ((pr.msg.msgType ≠ MsgType.logon ∧ s' = s.heard.withBuf left) ∨
        (pr.msg.msgType = MsgType.logon ∧ s' = s.heard.loggingOn.withBuf left)) := by
  have hshows := onBytes_shows s s.inBuf data
  rw [withBuf_inBuf, h, pumpAll_eq steady_next] at hshows
  rcases hn : next s (s.inBuf ++ data) with _ | e | ⟨s₁, step₁⟩ | ⟨n, s₁, step₁⟩
  · rw [hn] at hshows
    obtain ⟨-, rfl, hd⟩ := hshows.more_inv
    cases hdisc
  · rw [hn] at hshows
    cases hshows
  · rw [hn] at hshows
    obtain ⟨⟨left, rfl⟩, rfl, -⟩ := hshows.done_inv
    rw [empty_merge, out_mergeAll, List.flatMap_singleton] at hout
    obtain ⟨pr, hp, hnone, hcase⟩ := refuses_of_stop hoff hn hout
    refine ⟨pr, left, hp, hnone, ?_⟩
    rcases hcase with ⟨ht, rfl⟩ | ⟨ht, rfl⟩
    · exact .inl ⟨ht, rfl⟩
    · exact .inr ⟨ht, rfl⟩
  · -- what a message taken puts out comes first in what the call puts out
    have hfirst := answers_of_take hoff hn
    rw [hn] at hshows
    dsimp only at hshows
    rcases hp : pumpAll next s₁ ((s.inBuf ++ data).drop n) with e | ⟨s₂, left, steps⟩ | ⟨s₂, steps⟩
    · rw [hp] at hshows
      cases hshows
    · rw [hp] at hshows
      obtain ⟨-, rfl, -⟩ := hshows.more_inv
      rw [empty_merge] at hout
      exact absurd (List.append_eq_nil_iff.mp hout).1 hfirst
    · rw [hp] at hshows
      obtain ⟨-, rfl, -⟩ := hshows.done_inv
      rw [empty_merge] at hout
      exact absurd (List.append_eq_nil_iff.mp hout).1 hfirst

theorem intact_heard (s : Session) (left : Bytes) : Intact s (s.heard.withBuf left) :=
  ⟨rfl, rfl, rfl, rfl, rfl, rfl, rfl⟩

/-- What a Logon does before it is looked at shows unless there is nothing
to reset. -/
theorem intact_loggingOn_iff (s : Session) (left : Bytes) :
    Intact s (s.heard.loggingOn.withBuf left) ↔ s.Pristine := by
  have hin : (s.heard.loggingOn.withBuf left).inSeq =
    if s.cfg.resetOnLogon then 0 else s.inSeq := rfl
  have hsent : (s.heard.loggingOn.withBuf left).outSeq =
    if s.cfg.resetOnLogon then 0 else s.outSeq := rfl
  have hring : (s.heard.loggingOn.withBuf left).history =
    if s.cfg.resetOnLogon then [] else s.history := rfl
  constructor
  · intro h
    refine ⟨h.armed.symm, fun hreset => ⟨?_, ?_, ?_⟩⟩
    · rw [← h.inSeq, hin, if_pos hreset]
    · rw [← h.outSeq, hsent, if_pos hreset]
    · rw [← h.history, hring, if_pos hreset]
  · rintro ⟨harmed, hzero⟩
    refine ⟨?_, ?_, ?_, rfl, rfl, harmed.symm, rfl⟩
    · rw [hin]
      split_ifs with hreset
      · exact (hzero hreset).1.symm
      · rfl
    · rw [hsent]
      split_ifs with hreset
      · exact (hzero hreset).2.1.symm
      · rfl
    · rw [hring]
      split_ifs with hreset
      · exact (hzero hreset).2.2.symm
      · rfl

/-- **What a refusal leaves.** A call that refuses its first message,
sending nothing, leaves a session that was off intact exactly if the
message is no Logon, or a Logon has nothing to reset. -/
theorem refusal_intact_iff (hoff : s.state = .disconnected)
    (h : s.onBytes data = .ok (s', step)) (hdisc : step.disconnect = true)
    (hout : step.out = []) :
    ∃ pr, parseOne s.soh (s.inBuf ++ data) = .ok pr ∧ pr.err = .none ∧
      (Intact s s' ↔ pr.msg.msgType ≠ MsgType.logon ∨ s.Pristine) := by
  obtain ⟨pr, left, hp, hnone, hcase⟩ := onBytes_refuses hoff h hdisc hout
  refine ⟨pr, hp, hnone, ?_⟩
  rcases hcase with ⟨ht, rfl⟩ | ⟨ht, rfl⟩
  · exact ⟨fun _ => .inl ht, fun _ => intact_heard s left⟩
  · rw [intact_loggingOn_iff]
    exact ⟨.inr, fun hor => hor.resolve_left fun hne => hne ht⟩

end Refusal

/-- The bytes of a Logon to someone else. -/
def foreignLogonBytes : Bytes :=
  build .text [(Tag.msgType, MsgType.logon), (Tag.senderCompID, ascii "C"),
    (Tag.targetCompID, ascii "OTHER"), (Tag.msgSeqNum, ascii "1"), (108, ascii "30")]

/-- The bytes of a Logout. -/
def logoutBytes : Bytes :=
  build .text [(Tag.msgType, MsgType.logout), (Tag.senderCompID, ascii "C"),
    (Tag.targetCompID, ascii "OBFIX"), (Tag.msgSeqNum, ascii "2")]

/-- The session of the unit tests, its numbers kept over a Logon. -/
def keepingSession : Session :=
  { testSession with cfg := { testSession.cfg with resetOnLogon := false } }

/-- A session that was on, and keeps its numbers, refuses a Logon to
someone else and is left intact. -/
theorem refusal_intact_keeping :
    ∃ s outs s' step,
      run perform keepingSession [.onBytes logonBytes, .onBytes logoutBytes] = .ok (s, outs) ∧
      s.outSeq = 2 ∧ s.history.length = 2 ∧ s.onBytes foreignLogonBytes = .ok (s', step) ∧
      step = { disconnect := true } ∧ Intact s s' := by
  obtain ⟨s, outs, hr, hcheck⟩ := @exists_of_run_check _ _ _ _ perform
    (fun r : Session × List SessionStep => decide (r.1.outSeq = 2 ∧
      r.1.history.length = 2 ∧ r.1.state = .disconnected ∧ r.1.Pristine) &&
      passes (fun q : Session × SessionStep => decide (q.2 = { disconnect := true }))
        (r.1.onBytes foreignLogonBytes))
    keepingSession [.onBytes logonBytes, .onBytes logoutBytes] (by decide +kernel)
  rw [Bool.and_eq_true, decide_eq_true_iff] at hcheck
  obtain ⟨⟨hout, hring, hoff, hpristine⟩, hrefused⟩ := hcheck
  obtain ⟨⟨s', step⟩, hb, hstep⟩ := passes_iff.mp hrefused
  obtain rfl : step = { disconnect := true } := of_decide_eq_true hstep
  obtain ⟨pr, -, -, hiff⟩ := refusal_intact_iff hoff hb rfl rfl
  exact ⟨s, outs, s', _, hr, hout, hring, hb, rfl, hiff.mpr (.inr hpristine)⟩

/-- A session that was on with its numbers reset by a Logon: one to
someone else is refused, and the numbers and the ring are gone. -/
theorem refused_logon_resets :
    ∃ s outs s' step,
      run perform testSession [.onBytes logonBytes, .onBytes logoutBytes] = .ok (s, outs) ∧
      s.state = .disconnected ∧ s.onBytes foreignLogonBytes = .ok (s', step) ∧
      step = { disconnect := true } ∧
      (s.inSeq, s.outSeq, s.history.length) = (2, 2, 2) ∧
      (s'.inSeq, s'.outSeq, s'.history.length) = (0, 0, 0) ∧ ¬ Intact s s' := by
  obtain ⟨s, outs, hr, hcheck⟩ := @exists_of_run_check _ _ _ _ perform
    (fun r : Session × List SessionStep => decide (r.1.state = .disconnected ∧
      (r.1.inSeq, r.1.outSeq, r.1.history.length) = (2, 2, 2)) &&
      passes (fun q : Session × SessionStep => decide (q.2 = { disconnect := true } ∧
        (q.1.inSeq, q.1.outSeq, q.1.history.length) = (0, 0, 0))) (r.1.onBytes foreignLogonBytes))
    testSession [.onBytes logonBytes, .onBytes logoutBytes] (by decide +kernel)
  rw [Bool.and_eq_true, decide_eq_true_iff] at hcheck
  obtain ⟨⟨hoff, hbefore⟩, hrefused⟩ := hcheck
  obtain ⟨⟨s', step⟩, hb, hstep⟩ := passes_iff.mp hrefused
  obtain ⟨hdisc, hafter⟩ := of_decide_eq_true hstep
  refine ⟨s, outs, s', step, hr, hoff, hb, hdisc, hbefore, hafter, fun hintact => ?_⟩
  have hin := hintact.inSeq
  rw [(Prod.mk.inj hbefore).1, (Prod.mk.inj hafter).1] at hin
  cases hin

end Session

end Fix

end OrderbookFix
