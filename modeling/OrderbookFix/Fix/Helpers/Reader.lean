import OrderbookFix.Common.Stream
import OrderbookFix.Fix.Helpers.Parse
import OrderbookFix.Fix.Helpers.Sending
/-!
# The session as a reader of a stream

The loop of `on_bytes` is the loop of a reader whose items are messages.
The reader is steady: what the parser says of a message stands when more
bytes follow it.
-/

namespace OrderbookFix

namespace Fix

/-- Two steps, one after the other. -/
def SessionStep.merge (a b : SessionStep) : SessionStep :=
  ⟨a.out ++ b.out, a.app ++ b.app, a.disconnect || b.disconnect⟩

/-- All steps of a call as one. -/
def SessionStep.mergeAll : List SessionStep → SessionStep
  | [] => {}
  | step :: steps => step.merge (mergeAll steps)

namespace SessionStep

theorem merge_assoc (a b c : SessionStep) : (a.merge b).merge c = a.merge (b.merge c) := by
  simp only [merge, List.append_assoc, Bool.or_assoc]

theorem merge_empty (a : SessionStep) : a.merge {} = a := by
  simp only [merge, List.append_nil, Bool.or_false]

theorem empty_merge (a : SessionStep) : ({} : SessionStep).merge a = a := rfl

theorem mergeAll_append (as bs : List SessionStep) :
    mergeAll (as ++ bs) = (mergeAll as).merge (mergeAll bs) := by
  induction as with
  | nil => rfl
  | cons a as ih => rw [List.cons_append, mergeAll, ih, mergeAll, merge_assoc]

theorem out_mergeAll (steps : List SessionStep) :
    (mergeAll steps).out = steps.flatMap SessionStep.out := by
  induction steps with
  | nil => rfl
  | cons a steps ih => rw [mergeAll, List.flatMap_cons, ← ih]; rfl

theorem app_mergeAll (steps : List SessionStep) :
    (mergeAll steps).app = steps.flatMap SessionStep.app := by
  induction steps with
  | nil => rfl
  | cons a steps ih => rw [mergeAll, List.flatMap_cons, ← ih]; rfl

end SessionStep

open SessionStep

namespace Session

/-- The session after a message was parsed, before it is handled. -/
def heard (s : Session) : Session :=
  { s.steadyNow.1 with lastInbound := s.steadyNow.2, testRequestOutstanding := false }

/-- **What the session makes of its buffer.** -/
def next (s : Session) (buf : Bytes) : Verdict Session SessionStep Fault :=
  if buf = [] then .wait
  else
    match parseOne s.soh buf with
    | .error e => .fail e
    | .ok pr =>
      if pr.err = .incomplete then .wait
      else if pr.err ≠ .none then
        .stop (s.sendLogout (ascii "malformed message")).1
          { out := [(s.sendLogout (ascii "malformed message")).2], disconnect := true }
      else
        match s.heard.handleMessage pr.msg with
        | .error e => .fail e
        | .ok (s', step) => if step.disconnect then .stop s' step else .take pr.consumed s' step

/-- **What a round of the reader does**: the bytes are malformed, or a
message is handled. -/
inductive Turns (s : Session) (buf : Bytes) : Session → SessionStep → Prop
  | malformed {pr : ParseResult} (hp : parseOne s.soh buf = .ok pr) (herr : pr.err ≠ .none) :
      Turns s buf (s.sendLogout (ascii "malformed message")).1
        { out := [(s.sendLogout (ascii "malformed message")).2], disconnect := true }
  | message {pr : ParseResult} {s' : Session} {step : SessionStep}
      (hp : parseOne s.soh buf = .ok pr) (hnone : pr.err = .none)
      (hm : s.heard.handleMessage pr.msg = .ok (s', step)) : Turns s buf s' step

/-- A round that takes a message off the buffer. -/
theorem message_of_take {s s' : Session} {buf : Bytes} {n : ℕ} {step : SessionStep}
    (h : next s buf = .take n s' step) :
    ∃ pr, parseOne s.soh buf = .ok pr ∧ pr.err = .none ∧ n = pr.consumed ∧
      s.heard.handleMessage pr.msg = .ok (s', step) ∧ step.disconnect = false := by
  rw [next] at h
  split_ifs at h with hbuf
  rcases hp : parseOne s.soh buf with e | pr
  · rw [hp] at h
    cases h
  rw [hp] at h
  dsimp only at h
  split_ifs at h with hinc herr
  rcases hm : s.heard.handleMessage pr.msg with e | ⟨s₁, step₁⟩
  · rw [hm] at h
    cases h
  rw [hm] at h
  dsimp only at h
  split_ifs at h with hd
  obtain ⟨rfl, rfl, rfl⟩ := Verdict.take.inj h
  exact ⟨pr, rfl, not_not.mp herr, rfl, hm, Bool.not_eq_true _ ▸ hd⟩

/-- A round that ends the stream. -/
theorem turns_of_stop {s s' : Session} {buf : Bytes} {step : SessionStep}
    (h : next s buf = .stop s' step) : Turns s buf s' step ∧ step.disconnect = true := by
  rw [next] at h
  split_ifs at h with hbuf
  rcases hp : parseOne s.soh buf with e | pr
  · rw [hp] at h
    cases h
  rw [hp] at h
  dsimp only at h
  split_ifs at h with hinc herr
  · obtain ⟨rfl, rfl⟩ := Verdict.stop.inj h
    exact ⟨.malformed hp herr, rfl⟩
  rcases hm : s.heard.handleMessage pr.msg with e | ⟨s₁, step₁⟩
  · rw [hm] at h
    cases h
  rw [hm] at h
  dsimp only at h
  split_ifs at h with hd
  obtain ⟨rfl, rfl⟩ := Verdict.stop.inj h
  exact ⟨.message hp (not_not.mp herr) hm, hd⟩

theorem turns_of_take {s s' : Session} {buf : Bytes} {n : ℕ} {step : SessionStep}
    (h : next s buf = .take n s' step) : Turns s buf s' step := by
  obtain ⟨pr, hp, hnone, -, hm, -⟩ := message_of_take h
  exact .message hp hnone hm

/-- The session is steady up to the size a string can have. -/
theorem steady_next : Steady next (2 ^ 63) where
  nil _ := rfl
  append s buf ext hne hlen := by
    by_cases hbuf : buf = []
    · exact absurd (if_pos hbuf) hne
    have hbuf' : buf ++ ext ≠ [] := fun h => hbuf (List.append_eq_nil_iff.mp h).1
    have hverdict : ∀ r, parseOne s.soh buf = .ok r → r.err ≠ .incomplete := by
      intro r hr hinc
      refine hne ?_
      rw [next, if_neg hbuf, hr]
      exact if_pos hinc
    rw [next, next, if_neg hbuf, if_neg hbuf', parseOne_append hlen hverdict]
  take s buf n s' out h := by
    obtain ⟨pr, hp, hnone, rfl, -⟩ := message_of_take h
    obtain ⟨hpos, hle, -⟩ := parseOne_none hp hnone
    exact ⟨hpos, hle⟩

/-- How a call shows what the reader makes of the buffer. Where the
stream ended, what is left of the buffer does not matter. -/
inductive Shows (total : SessionStep) :
    Except Fault (Outcome Session UInt8 SessionStep) → Except Fault (Session × SessionStep) → Prop
  | error (e : Fault) : Shows total (.error e) (.error e)
  | more (s : Session) (left : Bytes) (steps : List SessionStep)
      (h : (mergeAll steps).disconnect = false) :
      Shows total (.ok (.more s left steps)) (.ok (s.withBuf left, total.merge (mergeAll steps)))
  | done (s : Session) (left : Bytes) (steps : List SessionStep)
      (h : (mergeAll steps).disconnect = true) :
      Shows total (.ok (.done s steps)) (.ok (s.withBuf left, total.merge (mergeAll steps)))

theorem Shows.prepend {total step : SessionStep}
    {r : Except Fault (Outcome Session UInt8 SessionStep)}
    {c : Except Fault (Session × SessionStep)} (hd : step.disconnect = false)
    (h : Shows (total.merge step) r c) : Shows total (r.map (Outcome.prepend [step])) c := by
  rcases h with e | ⟨s, left, steps, hs⟩ | ⟨s, left, steps, hs⟩
  · exact .error e
  · rw [merge_assoc]
    exact .more s left (step :: steps) (by rw [mergeAll, merge, hd, hs]; rfl)
  · rw [merge_assoc]
    exact .done s left (step :: steps) (by rw [mergeAll, merge, hd, hs]; rfl)

theorem Shows.more_inv {total step : SessionStep} {s s' : Session} {left : Bytes}
    {steps : List SessionStep} (h : Shows total (.ok (.more s left steps)) (.ok (s', step))) :
    s' = s.withBuf left ∧ step = total.merge (mergeAll steps) ∧
      (mergeAll steps).disconnect = false := by
  cases h with
  | more _ _ _ hd => exact ⟨rfl, rfl, hd⟩

theorem Shows.done_inv {total step : SessionStep} {s s' : Session}
    {steps : List SessionStep} (h : Shows total (.ok (.done s steps)) (.ok (s', step))) :
    (∃ left, s' = s.withBuf left) ∧ step = total.merge (mergeAll steps) ∧
      (mergeAll steps).disconnect = true := by
  cases h with
  | done _ left _ hd => exact ⟨⟨left, rfl⟩, rfl, hd⟩

theorem Shows.returns_iff {total : SessionStep}
    {r : Except Fault (Outcome Session UInt8 SessionStep)}
    {c : Except Fault (Session × SessionStep)} (h : Shows total r c) :
    (∃ o, r = .ok o) ↔ ∃ a, c = .ok a := by
  rcases h with e | _ | _
  · exact ⟨fun h => absurd h (not_returns_error e), fun h => absurd h (not_returns_error e)⟩
  · exact ⟨fun _ => ⟨_, rfl⟩, fun _ => ⟨_, rfl⟩⟩
  · exact ⟨fun _ => ⟨_, rfl⟩, fun _ => ⟨_, rfl⟩⟩

theorem Shows.nil (total : SessionStep) (s : Session) (buf : Bytes) :
    Shows total (.ok (.more s buf [])) (.ok (s.withBuf buf, total)) := by
  have h := @Shows.more total s buf [] rfl
  rwa [mergeAll, merge_empty] at h

/-- **The loop of `on_bytes` is the reader's loop.** -/
theorem drain_shows (fuel : ℕ) (s : Session) (buf : Bytes) (total : SessionStep) :
    Shows total (pump next fuel s buf) (drain fuel (s.withBuf buf) total) := by
  induction fuel generalizing s buf total with
  | zero => exact Shows.nil total s buf
  | succ fuel ih =>
    have hsoh : (s.withBuf buf).soh = s.soh := rfl
    have hin : (s.withBuf buf).inBuf = buf := rfl
    rw [pump, drain, next, hsoh, hin]
    by_cases hbuf : buf = []
    · rw [if_pos hbuf, if_pos hbuf]
      exact Shows.nil total s buf
    rw [if_neg hbuf, if_neg hbuf]
    rcases parseOne s.soh buf with e | pr
    · exact .error e
    dsimp only
    by_cases hinc : pr.err = .incomplete
    · rw [if_pos hinc, if_pos hinc]
      exact Shows.nil total s buf
    rw [if_neg hinc, if_neg hinc]
    by_cases herr : pr.err ≠ .none
    · rw [if_pos herr, if_pos herr, sendLogout_withBuf]
      set s₁ := (s.sendLogout (ascii "malformed message")).1
      set w := (s.sendLogout (ascii "malformed message")).2
      have htotal : total.merge (mergeAll [⟨[w], [], true⟩]) =
          { total with out := total.out ++ [w], disconnect := true } := by
        simp only [mergeAll, merge, List.append_nil, Bool.true_or, Bool.or_true]
      have h := @Shows.done total s₁ [] [⟨[w], [], true⟩] rfl
      rwa [htotal] at h
    rw [if_neg herr, if_neg herr]
    -- the message is handled with the rest of the buffer in place
    have hm := handleMessage_withBuf s.heard (buf.drop pr.consumed) pr.msg
    change Shows total _ (match (s.heard.withBuf (buf.drop pr.consumed)).handleMessage pr.msg with
      | .error e => .error e
      | .ok (s', step) =>
        if step.disconnect then
          .ok (s', { total with out := total.out ++ step.out, app := total.app ++ step.app,
                                disconnect := true })
        else drain fuel s' { total with out := total.out ++ step.out,
                                        app := total.app ++ step.app })
    rw [hm]
    rcases s.heard.handleMessage pr.msg with e | ⟨s', step⟩
    · exact .error e
    dsimp only [Except.map]
    cases hd : step.disconnect with
    | true =>
      have htotal : total.merge (mergeAll [step]) =
          ⟨total.out ++ step.out, total.app ++ step.app, true⟩ := by
        simp only [mergeAll, merge, List.append_nil, hd, Bool.or_true, Bool.true_or]
      have h := @Shows.done total s' (buf.drop pr.consumed) [step] (by rw [mergeAll, merge, hd]; rfl)
      rwa [htotal] at h
    | false =>
      have htotal : total.merge step =
          { total with out := total.out ++ step.out, app := total.app ++ step.app } := by
        simp only [merge, hd, Bool.or_false]
      rw [if_neg Bool.false_ne_true, if_neg Bool.false_ne_true, ← htotal]
      exact Shows.prepend hd (ih s' (buf.drop pr.consumed) (total.merge step))

/-- **One call of `on_bytes`.** -/
theorem onBytes_shows (s : Session) (left data : Bytes) :
    Shows {} (pumpAll next s (left ++ data)) ((s.withBuf left).onBytes data) :=
  drain_shows (left ++ data).length s (left ++ data) {}

/-! ## The rounds of a call -/

/-- A round of the session. -/
abbrev Turn := Round Session UInt8 SessionStep

/-- The message a round handled, if its bytes were one. -/
def Turn.message (r : Turn) : Option Message :=
  match parseOne r.before.soh r.buf with
  | .ok pr => if pr.err = .none then some pr.msg else none
  | .error _ => none

section Message

variable {s s' : Session} {buf : Bytes} {step : SessionStep} {pr : ParseResult}

theorem message_eq_some (hp : parseOne s.soh buf = .ok pr) (hnone : pr.err = .none) :
    Turn.message ⟨s, buf, step, s'⟩ = some pr.msg := by
  unfold Turn.message
  dsimp only
  rw [hp]
  exact if_pos hnone

theorem message_eq_none (hp : parseOne s.soh buf = .ok pr) (herr : pr.err ≠ .none) :
    Turn.message ⟨s, buf, step, s'⟩ = none := by
  unfold Turn.message
  dsimp only
  rw [hp]
  exact if_neg herr

end Message

/-- The rounds of a call of `on_bytes`. -/
def turns (s : Session) (data : Bytes) : List Turn :=
  rounds next (s.inBuf ++ data).length s (s.inBuf ++ data)

theorem length_turns_le (s : Session) (data : Bytes) :
    (s.turns data).length ≤ s.inBuf.length + data.length := by
  rw [← List.length_append]
  exact length_rounds_le _ _ _

/-- **The invariant rule for `on_bytes`.** What is left in the buffer is
not looked at by the conditions on the session. -/
theorem onBytes_inv {J : List Turn → Session → Bytes → Prop} {K : List Turn → Session → Prop}
    (hJ : ∀ rs s b buf, J rs s buf → J rs (s.withBuf b) buf)
    (hK : ∀ rs s b, K rs s → K rs (s.withBuf b))
    (htake : ∀ rs s buf n s' step, J rs s buf → next s buf = .take n s' step →
      J (rs ++ [⟨s, buf, step, s'⟩]) s' (buf.drop n))
    (hstop : ∀ rs s buf s' step, J rs s buf → next s buf = .stop s' step →
      K (rs ++ [⟨s, buf, step, s'⟩]) s')
    {s s' : Session} {data : Bytes} {step : SessionStep} (hs : J [] s (s.inBuf ++ data))
    (h : s.onBytes data = .ok (s', step)) :
    step = mergeAll ((s.turns data).map Round.out) ∧
      ((step.disconnect = false ∧ J (s.turns data) s' s'.inBuf) ∨
        (step.disconnect = true ∧ K (s.turns data) s')) := by
  have hshows := onBytes_shows s s.inBuf data
  rw [withBuf_inBuf, h] at hshows
  obtain ⟨o, ho⟩ := hshows.returns_iff.mpr ⟨_, rfl⟩
  rw [ho] at hshows
  rcases rounds_inv htake hstop hs ho with ⟨s₁, left, rfl, hj⟩ | ⟨s₁, rfl, hk⟩
  · obtain ⟨rfl, rfl, hd⟩ := hshows.more_inv
    exact ⟨rfl, .inl ⟨hd, hJ _ s₁ left left hj⟩⟩
  · obtain ⟨⟨left, rfl⟩, rfl, hd⟩ := hshows.done_inv
    exact ⟨rfl, .inr ⟨hd, hK _ s₁ left hk⟩⟩

end Session

end Fix

end OrderbookFix
