import OrderbookFix.Net.Model.Process
/-!
# What an atom can do

Every atom but those of the owner and the acceptor replaces one thread, and
the acceptor adds one. An atom fails where a thread raises or is killed in
`send`, and where an acceptor is assigned over another.
-/

namespace OrderbookFix

namespace Net

open OrderbookFix.Core OrderbookFix.Fix

/-- No `send` fails on a connection. -/
def Intact (c : Conn) (atoms : List Atom) : Prop := ∀ n, .send c n ∈ atoms → 0 < n

namespace Thread

variable {th : Thread}

/-- Whether a message is being written. -/
def Writes (th : Thread) : Prop :=
  ∃ w left, (∃ rest apps, th.phase = .answering w left rest apps) ∨
    ∃ rest apps, th.phase = .reporting w left rest apps

/-- A thread that writes nothing does not call `send`. -/
theorem send_of_not_writes (n : Int) (h : ¬ th.Writes) : th.send n = (th, []) := by
  obtain ⟨s, phase, bye, wire, written⟩ := th
  cases phase with
  | answering w left rest apps => exact absurd ⟨w, left, .inl ⟨rest, apps, rfl⟩⟩ h
  | reporting w left rest apps => exact absurd ⟨w, left, .inr ⟨rest, apps, rfl⟩⟩ h
  | _ => rfl

end Thread

namespace Process

/-- **What an atom can do.** -/
inductive Steps (p : Process) : Atom → Process → List Trace → Prop
  | stay (a : Atom) : Steps p a p []
  | start (howner : p.owner = .idle) (hacceptor : p.acceptor = .none) :
      Steps p (.start true) { p with listening := true, running := true, acceptor := .looping } []
  | stop : Steps p .stop p.stop []
  | accept (r : Accepted) : Steps p (.accept r) (p.accept r) []
  | check {c : Conn} {th : Thread} (hth : p.threads c = some th) :
      Steps p (.check c) (p.set c (th.check p.running)) []
  | wake {c : Conn} {r : Wake} {th th' : Thread} (hth : p.threads c = some th)
      (hphase : th.phase = .polling) (hr : r.Possible) (hwake : th.wake r = .ok th') :
      Steps p (.wake c r) (p.set c th') []
  | send {c : Conn} {n : Int} {th : Thread} (hth : p.threads c = some th) :
      Steps p (.send c n) (p.set c (th.send n).1) ((th.send n).2.map (.wrote c))
  | enter {c : Conn} {th : Thread} {m : AppMessage} {apps : List AppMessage}
      (hth : p.threads c = some th) (hphase : th.phase = .entering m apps) :
      Steps p (.count c)
        ({ p with msgsIn := p.msgsIn + 1 }.set c { th with phase := .routing m apps }) []
  | answered {c : Conn} {th : Thread} {rest : List WireOut} {apps : List AppMessage}
      (hth : p.threads c = some th) (hphase : th.phase = .answered rest apps) :
      Steps p (.count c) ({ p with msgsOut := p.msgsOut + 1 }.set c (th.answer apps rest)) []
  | reported {c : Conn} {th : Thread} {rest : List Body} {apps : List AppMessage}
      (hth : p.threads c = some th) (hphase : th.phase = .reported rest apps) :
      Steps p (.count c) ({ p with msgsOut := p.msgsOut + 1 }.set c (th.report apps rest)) []
  | route {c : Conn} {th : Thread} {m : AppMessage} {apps : List AppMessage} {srv : Server}
      {evs : EventList} (hth : p.threads c = some th) (hphase : th.phase = .routing m apps)
      (hroute : p.server.route m = .ok (srv, evs)) :
      Steps p (.route c)
        ({ p with server := srv }.set c (th.report apps (evs.filterMap Net.report))) [.routed c m]

/-- **How an atom can fail.** -/
inductive Fails (p : Process) : Atom → Crash → Prop
  | reassigned : Fails p (.start true) .reassigned
  | wake {c : Conn} {r : Wake} {th : Thread} {e : Fix.Fault} (hth : p.threads c = some th)
      (hphase : th.phase = .polling) (hr : r.Possible) (hwake : th.wake r = .error e) :
      Fails p (.wake c r) (.uncaught (.field e))
  | sigpipe {c : Conn} {th : Thread} (hth : p.threads c = some th) (hleft : th.left ≠ []) :
      Fails p (.sigpipe c) .sigpipe
  | route {c : Conn} {th : Thread} {m : AppMessage} {apps : List AppMessage} {e : Fault}
      (hth : p.threads c = some th) (hphase : th.phase = .routing m apps)
      (hroute : p.server.route m = .error e) : Fails p (.route c) (.uncaught e)

section Step

variable {p p' : Process} {a : Atom} {out : List Trace}

theorem steps_of_stay (h : (.ok (p, []) : Except Crash (Process × List Trace)) = .ok (p', out)) :
    Steps p a p' out := by
  obtain ⟨rfl, rfl⟩ := Prod.mk.inj (Except.ok.inj h)
  exact .stay a

/-- **Inversion of an atom.** -/
theorem step_steps (h : p.step a = .ok (p', out)) : Steps p a p' out := by
  cases a with
  | start ok =>
    rw [step, start.eq_def] at h
    split at h
    · split at h
      · obtain ⟨rfl, rfl⟩ := Prod.mk.inj (Except.ok.inj h)
        exact .start ‹_› ‹_›
      · cases h
    · exact steps_of_stay h
  | stop =>
    obtain ⟨rfl, rfl⟩ := Prod.mk.inj (Except.ok.inj h)
    exact .stop
  | accept r =>
    obtain ⟨rfl, rfl⟩ := Prod.mk.inj (Except.ok.inj h)
    exact .accept r
  | check c =>
    rcases hth : p.threads c with _ | th
    · rw [step, hth] at h
      exact steps_of_stay h
    · rw [step, hth] at h
      obtain ⟨rfl, rfl⟩ := Prod.mk.inj (Except.ok.inj h)
      exact .check hth
  | wake c r =>
    rcases hth : p.threads c with _ | th
    · rw [step, hth] at h
      exact steps_of_stay h
    rw [step, hth] at h
    dsimp only at h
    rw [wake] at h
    split at h
    · split_ifs at h with hr
      · rcases hwake : th.wake r with e | th'
        · rw [hwake] at h
          cases h
        · rw [hwake] at h
          obtain ⟨rfl, rfl⟩ := Prod.mk.inj (Except.ok.inj h)
          exact .wake hth ‹_› hr hwake
      · exact steps_of_stay h
    · exact steps_of_stay h
  | send c n =>
    rcases hth : p.threads c with _ | th
    · rw [step, hth] at h
      exact steps_of_stay h
    · rw [step, hth] at h
      obtain ⟨rfl, rfl⟩ := Prod.mk.inj (Except.ok.inj h)
      exact .send hth
  | sigpipe c =>
    rcases hth : p.threads c with _ | th
    · rw [step, hth] at h
      exact steps_of_stay h
    rw [step, hth] at h
    dsimp only at h
    split_ifs at h
    exact steps_of_stay h
  | count c =>
    rcases hth : p.threads c with _ | th
    · rw [step, hth] at h
      exact steps_of_stay h
    rw [step, hth] at h
    obtain ⟨rfl, rfl⟩ := Prod.mk.inj (Except.ok.inj h)
    rw [count]
    split
    · exact .enter hth ‹_›
    · exact .answered hth ‹_›
    · exact .reported hth ‹_›
    · exact .stay _
  | route c =>
    rcases hth : p.threads c with _ | th
    · rw [step, hth] at h
      exact steps_of_stay h
    rw [step, hth] at h
    dsimp only at h
    rw [route] at h
    split at h
    · rename_i m apps hphase
      rcases hroute : p.server.route m with e | ⟨srv, evs⟩
      · rw [hroute] at h
        cases h
      · rw [hroute] at h
        obtain ⟨rfl, rfl⟩ := Prod.mk.inj (Except.ok.inj h)
        exact .route hth hphase hroute
    · exact steps_of_stay h

/-- **Inversion of an atom that fails.** -/
theorem step_fails {e : Crash} (h : p.step a = .error e) : Fails p a e := by
  cases a with
  | start ok =>
    rw [step, start.eq_def] at h
    split at h
    · split at h
      · cases h
      · cases h
        exact .reassigned
    · cases h
  | stop => cases h
  | accept r => cases h
  | wake c r =>
    rcases hth : p.threads c with _ | th
    · rw [step, hth] at h
      cases h
    rw [step, hth] at h
    dsimp only at h
    rw [wake] at h
    split at h
    · split_ifs at h with hr
      rcases hwake : th.wake r with e | th'
      · rw [hwake] at h
        cases h
        exact .wake hth ‹_› hr hwake
      · rw [hwake] at h
        cases h
    · cases h
  | sigpipe c =>
    rcases hth : p.threads c with _ | th
    · rw [step, hth] at h
      cases h
    rw [step, hth] at h
    dsimp only at h
    split_ifs at h with hleft
    cases h
    exact .sigpipe hth hleft
  | route c =>
    rcases hth : p.threads c with _ | th
    · rw [step, hth] at h
      cases h
    rw [step, hth] at h
    dsimp only at h
    rw [route] at h
    split at h
    · rename_i m apps hphase
      rcases hroute : p.server.route m with e | ⟨srv, evs⟩
      · rw [hroute] at h
        cases h
        exact .route hth hphase hroute
      · rw [hroute] at h
        cases h
    · cases h
  | _ =>
    rw [step] at h
    split at h <;> cases h

end Step

/-! ## What the owner and the acceptor leave alone -/

section Frame

variable (p : Process)

/-- What a step of the owner keeps. -/
theorem stop_keeps : p.stop.cfg = p.cfg ∧ p.stop.server = p.server ∧ p.stop.threads = p.threads ∧
    p.stop.msgsIn = p.msgsIn ∧ p.stop.msgsOut = p.msgsOut := by
  rw [stop]
  split
  · split <;> exact ⟨rfl, rfl, rfl, rfl, rfl⟩
  · exact ⟨rfl, rfl, rfl, rfl, rfl⟩
  · split <;> exact ⟨rfl, rfl, rfl, rfl, rfl⟩
  · split <;> exact ⟨rfl, rfl, rfl, rfl, rfl⟩
  · exact ⟨rfl, rfl, rfl, rfl, rfl⟩

/-- What a step of the acceptor keeps. -/
theorem accept_keeps (r : Accepted) : (p.accept r).cfg = p.cfg ∧ (p.accept r).server = p.server ∧
    (p.accept r).running = p.running ∧ (p.accept r).owner = p.owner ∧
    (p.accept r).msgsIn = p.msgsIn ∧ (p.accept r).msgsOut = p.msgsOut := by
  rw [accept.eq_def]
  split
  · exact ⟨rfl, rfl, rfl, rfl, rfl, rfl⟩
  · exact ⟨rfl, rfl, rfl, rfl, rfl, rfl⟩
  · exact ⟨rfl, rfl, rfl, rfl, rfl, rfl⟩
  · exact ⟨rfl, rfl, rfl, rfl, rfl, rfl⟩
  · split <;> exact ⟨rfl, rfl, rfl, rfl, rfl, rfl⟩
  · rw [spawn]
    split
    · exact ⟨rfl, rfl, rfl, rfl, rfl, rfl⟩
    · split <;> exact ⟨rfl, rfl, rfl, rfl, rfl, rfl⟩

/-- **The acceptor** adds at most one thread, on a connection that has
none. -/
theorem accept_threads (r : Accepted) :
    (p.accept r).threads = p.threads ∧ (p.accept r).sessions = p.sessions ∨
      ∃ c order now clock, p.acceptor = .spawning c order now clock ∧ p.locked = false ∧
        p.threads c = none ∧ (p.accept r).acceptor = .looping ∧
        (p.accept r).sessions = p.sessions ++ [c] ∧
        (p.accept r).threads = Function.update p.threads c
          (some { session := (TcpServer.new p.cfg).session order now clock }) := by
  rw [accept.eq_def]
  split
  · exact .inl ⟨rfl, rfl⟩
  · exact .inl ⟨rfl, rfl⟩
  · exact .inl ⟨rfl, rfl⟩
  · exact .inl ⟨rfl, rfl⟩
  · split <;> exact .inl ⟨rfl, rfl⟩
  · rename_i c order now clock hspawn
    split_ifs with hlocked
    · exact .inl ⟨rfl, rfl⟩
    · rw [spawn]
      split
      · exact .inl ⟨rfl, rfl⟩
      · exact .inr ⟨c, order, now, clock, hspawn, by simpa using hlocked, ‹_›, rfl, rfl, rfl⟩

end Frame

/-- An invariant of threads is kept where the thread an atom replaces keeps
it. -/
theorem threads_set {P : Conn → Thread → Prop} {p : Process} {c : Conn} {th : Thread}
    (h : ∀ c th, p.threads c = some th → P c th) (hth : P c th) :
    ∀ c' th', (p.set c th).threads c' = some th' → P c' th' := by
  intro c' th' hth'
  change Function.update p.threads c (some th) c' = some th' at hth'
  by_cases hc : c' = c
  · subst hc
    rw [Function.update_self] at hth'
    exact Option.some.inj hth' ▸ hth
  · rw [Function.update_of_ne hc] at hth'
    exact h c' th' hth'

end Process

end Net

end OrderbookFix
