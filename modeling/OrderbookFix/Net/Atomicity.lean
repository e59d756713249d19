import OrderbookFix.Common.Foretold
import OrderbookFix.Net.Helpers.Atoms
import OrderbookFix.Net.Threads
/-!
# Rounds are atomic

Between the turn of the book for a message and the last of its reports a
thread makes many calls of the system, and the others go on meanwhile. All
the same a run of the threads is one in which every round happens at once:
only the book is shared, and a round has one turn of it. How many messages
go out before a write fails is known at the end of the round, and has to be
guessed when it is taken for one act.
-/

namespace OrderbookFix

namespace Net

open OrderbookFix.Core OrderbookFix.Fix

/-- No write of an act on a connection fails. -/
def Act.Whole (c : Conn) : Act → Prop
  | .idle c' _ room | .recv c' _ _ room | .serve c' room => c' = c → room = none
  | _ => True

/-- **The thread as it will be at the end of its round**, if as many more
messages go out as `room` has it. -/
def Thread.foretold (th : Thread) (room : Option ℕ) : Link :=
  match th.phase with
  | .top | .polling =>
    { session := th.session, disconnect := th.disconnect, written := th.written }
  | .answering w _ rest apps =>
    { session := th.session
      pending := apps
      disconnect := th.disconnect || (writeOut room (w :: rest)).2
      written := th.written ++ (writeOut room (w :: rest)).1 : Link }.settle
  | .answered rest apps =>
    { session := th.session
      pending := apps
      disconnect := th.disconnect || (writeOut room rest).2
      written := th.written ++ (writeOut room rest).1 : Link }.settle
  | .entering m apps | .routing m apps =>
    { session := th.session
      pending := m :: apps
      disconnect := th.disconnect
      written := th.written }
  | .reporting w _ rest apps =>
    if room = some 0 then
      { session := th.session
        pending := apps
        disconnect := true
        written := th.written : Link }.settle
    else
      let r := sendReports (room.map Nat.pred) th.session rest
      { session := r.1
        pending := apps
        disconnect := th.disconnect || r.2.2
        written := th.written ++ w :: r.2.1 : Link }.settle
  | .reported rest apps =>
    let r := sendReports room th.session rest
    { session := r.1
      pending := apps
      disconnect := th.disconnect || r.2.2
      written := th.written ++ r.2.1 : Link }.settle
  | .closed =>
    { session := th.session
      disconnect := th.disconnect
      closed := true
      written := th.written }

/-- The process with every round at its end. -/
def Process.foretold (room : Conn → Option ℕ) (p : Process) : TcpServer :=
  ⟨p.cfg, p.server, fun c => (p.threads c).map fun th => th.foretold (room c)⟩

namespace Thread

variable {th : Thread} {apps : List AppMessage} {room : Option ℕ}

theorem foretold_proceed (th : Thread) (apps : List AppMessage) (room : Option ℕ) :
    (th.proceed apps).foretold room =
      { session := th.session
        pending := apps
        disconnect := th.disconnect
        written := th.written : Link }.settle := by
  cases apps with
  | nil =>
    cases hd : th.disconnect with
    | true => simp [proceed, foretold, Link.settle, hd]
    | false => simp [proceed, foretold, Link.settle, hd]
  | cons m apps => simp [proceed, foretold, Link.settle]

theorem foretold_answer (th : Thread) (apps : List AppMessage) (ws : List WireOut)
    (room : Option ℕ) :
    (th.answer apps ws).foretold room =
      { session := th.session
        pending := apps
        disconnect := th.disconnect || (writeOut room ws).2
        written := th.written ++ (writeOut room ws).1 : Link }.settle := by
  cases ws with
  | nil => rw [answer, foretold_proceed, writeOut, Bool.or_false, List.append_nil]
  | cons w rest => rfl

theorem foretold_report (th : Thread) (apps : List AppMessage) (bodies : List Body)
    (room : Option ℕ) :
    (th.report apps bodies).foretold room =
      { session := (sendReports room th.session bodies).1
        pending := apps
        disconnect := th.disconnect || (sendReports room th.session bodies).2.2
        written := th.written ++ (sendReports room th.session bodies).2.1 : Link }.settle := by
  cases bodies with
  | nil => rw [report, foretold_proceed, sendReports, Bool.or_false, List.append_nil]
  | cons body rest =>
    rw [report, foretold, sendReports]
    by_cases hroom : room = some 0
    · simp only [if_pos hroom, Bool.or_true, List.append_nil]
    · simp only [if_neg hroom]

/-- A message that goes out was one of those foretold. -/
theorem foretold_wrote (h : th.Writes) (room : Option ℕ) :
    th.foretold (room.map Nat.succ) = th.wrote.1.foretold room := by
  have hroom : room.map Nat.succ ≠ some 0 := by cases room <;> simp
  have hpred : (room.map Nat.succ).map Nat.pred = room := by cases room <;> rfl
  obtain ⟨s, phase, bye, wire, written⟩ := th
  obtain ⟨w, left, ⟨rest, apps, rfl⟩ | ⟨rest, apps, rfl⟩⟩ := h
  · simp only [foretold, wrote, writeOut, if_neg hroom, hpred, List.append_assoc,
      List.singleton_append]
  · simp only [foretold, wrote, if_neg hroom, hpred, List.append_assoc, List.singleton_append]

/-- A write that fails was the one foretold to fail. -/
theorem foretold_lost (h : th.Writes) (room : Option ℕ) :
    th.foretold (some 0) = th.lost.foretold room := by
  obtain ⟨s, phase, bye, wire, written⟩ := th
  obtain ⟨w, left, ⟨rest, apps, rfl⟩ | ⟨rest, apps, rfl⟩⟩ := h
  · refine Eq.trans ?_ (foretold_proceed _ apps room).symm
    simp only [foretold, writeOut, if_true, Bool.or_true, List.append_nil]
  · refine Eq.trans ?_ (foretold_proceed _ apps room).symm
    simp only [foretold, if_true]

/-- What is left of a message makes no difference. -/
theorem foretold_leaving (th : Thread) (wire left : Bytes) (room : Option ℕ) :
    ({ th with wire := wire }.leaving left).foretold room = th.foretold room := by
  obtain ⟨s, phase, bye, wire, written⟩ := th
  cases phase <;> rfl

/-- **One round of `write_all`** is part of the round foretold. If it does
not fail, a round that was to go out whole still is. -/
theorem foretold_send (th : Thread) (n : Int) (room : Option ℕ) :
    ∃ room', th.foretold room' = (th.send n).1.foretold room ∧
      (0 < n → room = none → room' = none) := by
  by_cases hwrites : th.Writes
  swap
  · rw [send_of_not_writes n hwrites]
    exact ⟨room, rfl, fun _ hr => hr⟩
  rw [send]
  split_ifs with hleft hn hall
  · exact ⟨_, foretold_wrote hwrites room, fun _ hr => by rw [hr]; rfl⟩
  · exact ⟨_, foretold_lost hwrites room, fun hpos => by omega⟩
  · have hwire : ∀ room', ({ th with wire := th.wire ++ th.left.take n.toNat } : Thread).foretold
        room' = th.foretold room' := fun room' => rfl
    have hstill : ({ th with wire := th.wire ++ th.left.take n.toNat } : Thread).Writes := hwrites
    exact ⟨_, (hwire _).symm.trans (foretold_wrote hstill room), fun _ hr => by rw [hr]; rfl⟩
  · exact ⟨room, (th.foretold_leaving _ _ room).symm, fun _ hr => hr⟩

/-- A message that is counted was foretold when it was not. -/
theorem foretold_count {rest : List WireOut} (hphase : th.phase = .answered rest apps)
    (room : Option ℕ) : (th.answer apps rest).foretold room = th.foretold room := by
  rw [foretold_answer, foretold.eq_def th, hphase]

theorem foretold_count_report {rest : List Body} (hphase : th.phase = .reported rest apps)
    (room : Option ℕ) : (th.report apps rest).foretold room = th.foretold room := by
  rw [foretold_report, foretold.eq_def th, hphase]

theorem foretold_enter {m : AppMessage} (hphase : th.phase = .entering m apps)
    (room : Option ℕ) :
    ({ th with phase := .routing m apps } : Thread).foretold room = th.foretold room := by
  rw [foretold.eq_def th, hphase]
  rfl

/-- The head of the loop is passed, or the connection left. -/
theorem foretold_check (th : Thread) (running : Bool) (room : Option ℕ) :
    (th.check running).foretold room = th.foretold room ∨
      (th.foretold room).Ready ∧
        (th.check running).foretold room = { th.foretold room with closed := true } := by
  obtain ⟨s, phase, bye, wire, written⟩ := th
  cases phase with
  | top =>
    cases running with
    | true => exact .inl rfl
    | false => exact .inr ⟨⟨rfl, rfl⟩, rfl⟩
  | _ => exact .inl rfl

end Thread

namespace Process

variable {p p' : Process} {c : Conn} {th : Thread} {room : Conn → Option ℕ}

theorem foretold_links (hth : p.threads c = some th) :
    (p.foretold room).links c = some (th.foretold (room c)) := by
  change (p.threads c).map _ = _
  rw [hth]
  rfl

/-- Replacing a thread replaces its link. -/
theorem foretold_set (p : Process) (c : Conn) (th : Thread) (room : Conn → Option ℕ) :
    (p.set c th).foretold room = (p.foretold room).set c (th.foretold (room c)) := by
  rw [foretold, TcpServer.set]
  congr 1
  funext c'
  change (Function.update p.threads c (some th) c').map _ = _
  by_cases hc : c' = c
  · subst hc
    rw [Function.update_self, Function.update_self]
    rfl
  · rw [Function.update_of_ne hc, Function.update_of_ne hc]
    rfl

/-- A guess about one thread changes its link only. -/
theorem foretold_update (hth : p.threads c = some th) (r : Option ℕ) :
    p.foretold (Function.update room c r) = (p.foretold room).set c (th.foretold r) := by
  rw [foretold, TcpServer.set]
  congr 1
  funext c'
  by_cases hc : c' = c
  · subst hc
    rw [Function.update_self, Function.update_self, hth]
    rfl
  · rw [Function.update_of_ne hc, Function.update_of_ne hc]
    rfl

/-- A thread that is foretold the same changes nothing. -/
theorem foretold_set_of_eq (hth : p.threads c = some th) {th' : Thread}
    (heq : th'.foretold (room c) = th.foretold (room c)) :
    (p.set c th').foretold room = p.foretold room := by
  have hsame := @foretold_update p c th room hth (room c)
  rw [Function.update_eq_self] at hsame
  rw [foretold_set, heq, ← hsame]

theorem foretold_stop (p : Process) (room : Conn → Option ℕ) :
    p.stop.foretold room = p.foretold room := by
  obtain ⟨hcfg, hserver, hthreads, -⟩ := p.stop_keeps
  rw [foretold, foretold, hcfg, hserver, hthreads]

/-- The acceptor's step is no act, or one. -/
theorem foretold_accept (p : Process) (r : Accepted) (room : Conn → Option ℕ) :
    ∃ acts, run TcpServer.act (p.foretold room) acts = .ok ((p.accept r).foretold room, []) ∧
      ∀ c, ∀ a ∈ acts, a.Whole c := by
  obtain ⟨hcfg, hserver, -⟩ := p.accept_keeps r
  rcases p.accept_threads r with ⟨hthreads, -⟩ | ⟨c, order, now, clock, -, -, hnone, -, -, hthreads⟩
  · refine ⟨[], ?_, fun _ _ ha => by cases ha⟩
    rw [foretold, foretold, hcfg, hserver, hthreads]
    rfl
  · have hact : (p.foretold room).act (.accept c order now clock) =
        .ok ((p.set c { session := (TcpServer.new p.cfg).session order now clock }).foretold room,
          []) := by
      have hlink : (p.foretold room).links c = none := by
        change (p.threads c).map _ = none
        rw [hnone]
        rfl
      rw [TcpServer.act, hlink, foretold_set]
      rfl
    refine ⟨[.accept c order now clock], (run_singleton_of_ok hact).trans ?_, fun c' a ha => ?_⟩
    · rw [foretold, foretold, hcfg, hserver, hthreads]
      rfl
    · rw [List.mem_singleton.mp ha]
      trivial

/-- One act, whole where its connection is to be. -/
theorem whole_singleton {a : Act} (h : ∀ c', room c' = none → a.Whole c') :
    ∀ c', room c' = none → ∀ b ∈ [a], b.Whole c' := by
  intro c' hroom b hb
  rw [List.mem_singleton.mp hb]
  exact h c' hroom

/-- **What a thread waits for** is one act at most. -/
theorem foretold_wake (hth : p.threads c = some th) (hphase : th.phase = .polling) {r : Wake}
    (hr : r.Possible) {th' : Thread} (hwake : th.wake r = .ok th') (room : Conn → Option ℕ) :
    ∃ acts, run TcpServer.act (p.foretold room) acts = .ok ((p.set c th').foretold room, []) ∧
      ∀ c', room c' = none → ∀ a ∈ acts, a.Whole c' := by
  have hpolling : ∀ room, th.foretold room =
      { session := th.session, disconnect := th.disconnect, written := th.written } := by
    intro room
    rw [Thread.foretold, hphase]
  have hready : (th.foretold (room c)).Ready := by
    rw [hpolling]
    exact ⟨rfl, rfl⟩
  have hlink := @foretold_links p c th room hth
  cases r with
  | interrupted =>
    obtain rfl := Except.ok.inj hwake
    refine ⟨[], ?_, fun _ _ _ ha => by cases ha⟩
    rw [foretold_set_of_eq hth]
    · rfl
    · rw [hpolling]
      rfl
  | failed =>
    obtain rfl := Except.ok.inj hwake
    have hact : (p.foretold room).act (.leave c) =
        .ok ((p.set c { th with phase := .closed }).foretold room, []) := by
      rw [TcpServer.act, hlink, foretold_set]
      dsimp only
      rw [if_pos hready, hpolling]
      rfl
    exact ⟨[.leave c], run_singleton_of_ok hact, whole_singleton fun _ _ => trivial⟩
  | timeout now =>
    rw [Thread.wake] at hwake
    obtain rfl := Except.ok.inj hwake
    have hact : (p.foretold room).act (.idle c now (room c)) = .ok ((p.set c (({ th with
        session := (th.session.tick now).1
        disconnect := (th.session.tick now).2.disconnect } : Thread).answer []
          (th.session.tick now).2.out)).foretold room, []) := by
      rw [TcpServer.act, hlink, foretold_set, Thread.foretold_answer]
      dsimp only
      rw [if_pos hready, hpolling]
      rfl
    refine ⟨[.idle c now (room c)], run_singleton_of_ok hact, whole_singleton ?_⟩
    rintro c' hroom rfl
    exact hroom
  | readable data now =>
    rw [Thread.wake] at hwake
    rcases hbytes : th.session.onBytes data with e | ⟨s, step⟩
    · rw [hbytes] at hwake
      cases hwake
    rw [hbytes] at hwake
    obtain rfl := Except.ok.inj hwake
    have hact : (p.foretold room).act (.recv c data now (room c)) = .ok ((p.set c (({ th with
        session := (s.tick now).1
        disconnect := step.disconnect || (s.tick now).2.disconnect } : Thread).answer step.app
          (step.out ++ (s.tick now).2.out))).foretold room, []) := by
      rw [TcpServer.act, hlink, foretold_set, Thread.foretold_answer]
      dsimp only
      rw [if_pos ⟨hready, hr⟩, hpolling, Link.recv, hbytes]
    refine ⟨[.recv c data now (room c)], run_singleton_of_ok hact, whole_singleton ?_⟩
    rintro c' hroom rfl
    exact hroom

/-- **Every atom is caught up with.** On a connection where it does not
fail, what was to go out whole does. -/
theorem foretold_step {a : Atom} {out : List Trace} (h : p.step a = .ok (p', out))
    (room : Conn → Option ℕ) :
    ∃ room' acts, run TcpServer.act (p.foretold room') acts =
        .ok (p'.foretold room, out.filterMap Trace.toBook) ∧
      ∀ c, (∀ n, a = .send c n → 0 < n) → room c = none →
        room' c = none ∧ ∀ b ∈ acts, b.Whole c := by
  have hquiet : ∀ c, room c = none → room c = none ∧ ∀ b ∈ ([] : List Act), b.Whole c :=
    fun _ hroom => ⟨hroom, fun _ hb => by cases hb⟩
  cases step_steps h with
  | stay a => exact ⟨room, [], rfl, fun c _ => hquiet c⟩
  | start howner hacceptor => exact ⟨room, [], rfl, fun c _ => hquiet c⟩
  | stop => exact ⟨room, [], by rw [foretold_stop]; rfl, fun c _ => hquiet c⟩
  | accept r =>
    obtain ⟨acts, hrun, hwhole⟩ := p.foretold_accept r room
    exact ⟨room, acts, hrun, fun c _ hroom => ⟨hroom, hwhole c⟩⟩
  | @check c th hth =>
    rcases th.foretold_check p.running (room c) with heq | ⟨hready, heq⟩
    · exact ⟨room, [], by rw [foretold_set_of_eq hth heq]; rfl, fun c _ => hquiet c⟩
    · have hact : (p.foretold room).act (.leave c) =
          .ok ((p.set c (th.check p.running)).foretold room, []) := by
        rw [TcpServer.act, foretold_links hth, foretold_set, heq]
        dsimp only
        rw [if_pos hready]
      have hwhole : ∀ c', room c' = none → (Act.leave c).Whole c' := fun _ _ => trivial
      exact ⟨room, [.leave c], run_singleton_of_ok hact, fun c' _ hroom =>
        ⟨hroom, whole_singleton hwhole c' hroom⟩⟩
  | @wake c r th th' hth hphase hr hwake =>
    obtain ⟨acts, hrun, hwhole⟩ := foretold_wake hth hphase hr hwake room
    exact ⟨room, acts, hrun, fun c' _ hroom => ⟨hroom, hwhole c' hroom⟩⟩
  | @send c n th hth =>
    -- the guess before the write is the guess after it and what became of this write
    obtain ⟨room', heq, hnone⟩ := th.foretold_send n (room c)
    refine ⟨Function.update room c room', [], ?_, fun c' hpos hroom => ⟨?_, (hquiet c' hroom).2⟩⟩
    · have hout : ((th.send n).2.map (Trace.wrote c)).filterMap Trace.toBook = [] := by
        rw [List.filterMap_map]
        exact List.filterMap_eq_nil_iff.mpr fun _ _ => rfl
      rw [hout, foretold_set, ← heq, foretold_update hth]
      rfl
    · by_cases hc : c' = c
      · subst hc
        rw [Function.update_self]
        exact hnone (hpos n rfl) hroom
      · rw [Function.update_of_ne hc]
        exact hroom
  | enter hth hphase =>
    have hsame := @foretold_set_of_eq _ _ _ room hth _ (Thread.foretold_enter hphase _)
    exact ⟨room, [], congrArg (fun t => Except.ok (t, [])) hsame.symm, fun c _ => hquiet c⟩
  | answered hth hphase =>
    have hsame := @foretold_set_of_eq _ _ _ room hth _ (Thread.foretold_count hphase _)
    exact ⟨room, [], congrArg (fun t => Except.ok (t, [])) hsame.symm, fun c _ => hquiet c⟩
  | reported hth hphase =>
    have hsame := @foretold_set_of_eq _ _ _ room hth _ (Thread.foretold_count_report hphase _)
    exact ⟨room, [], congrArg (fun t => Except.ok (t, [])) hsame.symm, fun c _ => hquiet c⟩
  | @route c th m apps srv evs hth hphase hroute =>
    have hlink : (p.foretold room).links c = some
        { session := th.session
          pending := m :: apps
          disconnect := th.disconnect
          written := th.written } := by
      rw [foretold_links hth, Thread.foretold, hphase]
    have hact : (p.foretold room).act (.serve c (room c)) =
        .ok (({ p with server := srv }.set c
          (th.report apps (evs.filterMap Net.report))).foretold room, [(c, m)]) := by
      have hserver : (p.foretold room).server = p.server := rfl
      rw [TcpServer.act, hlink, foretold_set, Thread.foretold_report]
      dsimp only
      rw [Link.serve, respond, hserver, hroute]
      rfl
    have hwhole : ∀ c', room c' = none → (Act.serve c (room c)).Whole c' := by
      rintro c' hroom rfl
      exact hroom
    exact ⟨room, [.serve c (room c)], run_singleton_of_ok hact, fun c' _ hroom =>
      ⟨hroom, whole_singleton hwhole c' hroom⟩⟩

/-- **An exception of a thread** is one of an act. -/
theorem foretold_crash {a : Atom} {e : Fault} (h : p.step a = .error (.uncaught e))
    (room : Conn → Option ℕ) : ∃ b, (p.foretold room).act b = .error e := by
  cases step_fails h with
  | @wake c r th f hth hphase hr hwake =>
    cases r with
    | readable data now =>
      rw [Thread.wake] at hwake
      rcases hbytes : th.session.onBytes data with f | ⟨s, step⟩
      · rw [hbytes] at hwake
        cases hwake
        refine ⟨.recv c data now none, ?_⟩
        rw [TcpServer.act, foretold_links hth, Thread.foretold, hphase]
        dsimp only
        rw [if_pos ⟨⟨rfl, rfl⟩, hr⟩, Link.recv, hbytes]
      · rw [hbytes] at hwake
        cases hwake
    | _ => cases hwake
  | @route c th m apps f hth hphase hroute =>
    have hserver : (p.foretold room).server = p.server := rfl
    refine ⟨.serve c none, ?_⟩
    rw [TcpServer.act, foretold_links hth, Thread.foretold, hphase]
    dsimp only
    rw [Link.serve, respond, hserver, hroute]

end Process

/-- A run of atoms is a run of acts, whatever is still to come of the
rounds that are not over. -/
theorem run_rounds {cfg : ServerConfig} {atoms : List Atom} {p : Process} {trace : List Trace}
    (h : run Process.step (Process.new cfg) atoms = .ok (p, trace)) (room : Conn → Option ℕ) :
    ∃ acts, run TcpServer.act (TcpServer.new cfg) acts =
        .ok (p.foretold room, trace.filterMap Trace.toBook) ∧
      ∀ c, Intact c atoms → room c = none → ∀ a ∈ acts, a.Whole c := by
  obtain ⟨start, acts, hrun, hwhole⟩ := run_foretold
    (P := fun c a => ∀ n, a = .send c n → 0 < n) (G := fun c room => room c = none)
    (B := Act.Whole) (fun p a p' out hstep => Process.foretold_step hstep) h room
  exact ⟨acts, hrun, fun c hintact hroom =>
    (hwhole c (fun a ha n hn => hintact n (hn ▸ ha)) hroom).2⟩

/-- **Rounds are atomic.** Whatever order the threads take their steps in,
the book, the connections and the messages routed are those of a run in
which every round happens at once, and what is still to come of the rounds
that are not over is anybody's guess. No write of a round fails there on a
connection where none did, if none is guessed to. An exception no thread
catches is one of such a run. Nothing else ends the process but the signal
of a `send`, and a second `start`. -/
theorem run_atomic (cfg : ServerConfig) (atoms : List Atom) :
    (∃ p trace, run Process.step (Process.new cfg) atoms = .ok (p, trace) ∧
      ∀ room, ∃ acts, run TcpServer.act (TcpServer.new cfg) acts =
          .ok (p.foretold room, trace.filterMap Trace.toBook) ∧
        ∀ c, Intact c atoms → room c = none → ∀ a ∈ acts, a.Whole c) ∨
    (∃ e, run Process.step (Process.new cfg) atoms = .error (.uncaught e) ∧
      ∃ acts, run TcpServer.act (TcpServer.new cfg) acts = .error e) ∨
    run Process.step (Process.new cfg) atoms = .error .sigpipe ∨
    run Process.step (Process.new cfg) atoms = .error .reassigned := by
  rcases hr : run Process.step (Process.new cfg) atoms with e | ⟨p, trace⟩
  · cases e with
    | sigpipe => exact .inr (.inr (.inl rfl))
    | reassigned => exact .inr (.inr (.inr rfl))
    | uncaught e =>
      obtain ⟨before, a, p, trace, hbefore, ha⟩ := exists_of_run_error hr
      obtain ⟨b, hb⟩ := Process.foretold_crash ha fun _ => none
      obtain ⟨acts, hacts, -⟩ := run_rounds hbefore fun _ => none
      exact .inr (.inl ⟨e, rfl, acts ++ [b],
        run_append_of_error hacts (run_singleton_of_error hb)⟩)
  · exact .inl ⟨p, trace, rfl, run_rounds hr⟩

end Net

end OrderbookFix
