import OrderbookFix.Core.Helpers.Changes
import OrderbookFix.Fix.Legible
import OrderbookFix.Net.Linear
import OrderbookFix.Net.Wire
/-!
# From the book to the client

The end of the way: what a client reads off its connection. Between the
event of the book and the report a client reads lie the thread, which
sends what it has in pieces while others have the book, the session, which
numbers it and puts it between its own messages, and the parser of the
client, which gets the bytes cut in another way. A client reads the
reports of its own messages, in the order in which the book took these,
each once and with the fields the server gave it.
-/

namespace OrderbookFix

namespace Net

open OrderbookFix.Core OrderbookFix.Fix

/-! ## The texts of reports -/

section Texts

variable {srv srv' : Server} {m : Message} {evs : EventList} {soh : Soh}

/-- **A report has no text but those of its message.** -/
theorem route_texts (h : srv.route m = .ok (srv', evs)) (hm : Clean soh.byte m.fields) :
    ∀ ev ∈ evs, ∀ v ∈ reported ev, soh.byte ∉ v := by
  have hclord : soh.byte ∉ Server.field m Tag.clOrdID [] := Session.notMem_get hm _
  have horig : soh.byte ∉ Server.field m Tag.origClOrdID [] := Session.notMem_get hm _
  intro ev hev
  rw [Server.route] at h
  split_ifs at h with horder hcancel
  · rcases hn : srv.newOrder m with e | n
    · rw [hn] at h
      cases h
    rw [hn] at h
    dsimp only at h
    rcases hsubmit : submit srv.engine.algo srv.engine.book n.order with e | ⟨b, evs'⟩
    · rw [hsubmit] at h
      cases h
    rw [hsubmit] at h
    obtain ⟨-, rfl⟩ := Prod.mk.inj (Except.ok.inj h)
    have htext : n.order.clordId = ⟨Server.field m Tag.clOrdID []⟩ := (newOrder_spec hn).2.2
    rcases event_of_submit hsubmit hev with rfl | ⟨t, rfl, ht⟩
    · rw [reported, htext]
      exact List.forall_mem_singleton.mpr hclord
    · rw [reported, ht, htext]
      exact List.forall_mem_singleton.mpr hclord
  · rcases hc : srv.engine.book.cancel 0 ⟨Server.field m Tag.origClOrdID []⟩ with e | ⟨res, b⟩
    · rw [hc] at h
      cases h
    rw [hc] at h
    obtain ⟨-, rfl⟩ := Prod.mk.inj (Except.ok.inj h)
    rw [List.mem_singleton.mp hev, Server.cancelEvent]
    split_ifs
    · exact List.forall_mem_cons.mpr ⟨hclord, List.forall_mem_singleton.mpr horig⟩
    · have hreason : soh.byte ∉ ascii "cancel: unknown order" := by cases soh <;> decide
      exact List.forall_mem_cons.mpr ⟨hclord, List.forall_mem_singleton.mpr hreason⟩
  · obtain ⟨-, rfl⟩ := Prod.mk.inj (Except.ok.inj h)
    cases hev

/-- Every message handled was routed. -/
theorem routed_of_run {h h' : Hub} {reqs : List (Conn × Message)} {outs : List Handling}
    (hrun : run Hub.serve h reqs = .ok (h', outs)) :
    ∀ x ∈ outs, x.before.server.route x.msg = .ok (x.after.server, x.events) := by
  refine run_inv_returns (P := fun _ => True) (J := fun _ outs _ =>
    ∀ x ∈ outs, x.before.server.route x.msg = .ok (x.after.server, x.events)) ?_
    (fun _ hx => by cases hx) (fun _ _ => trivial) hrun
  intro _ outs hub r hub' out hall _ hserve x hx
  rcases List.mem_append.mp hx with hx | hx
  · exact hall x hx
  rw [Hub.serve] at hserve
  rcases hroute : hub.server.route r.2 with e | ⟨srv, evs⟩
  · rw [hroute] at hserve
    cases hserve
  · rw [hroute] at hserve
    obtain ⟨-, rfl⟩ := Prod.mk.inj (Except.ok.inj hserve)
    rw [List.mem_singleton.mp hx]
    exact hroute

end Texts

/-! ## The connection -/

section Connection

variable {cfg : ServerConfig} {acts : List Act} {outs : List Handling} {c : Conn} {l : Link}
  {calls : List Session.Call} {steps : List SessionStep}

/-- The calls of a thread write no separator. -/
theorem Follows.allowed (h : Follows cfg acts outs c l calls steps)
    (hrouted : ∀ x ∈ outs, x.before.server.route x.msg = .ok (x.after.server, x.events)) :
    ∀ call ∈ calls, Session.Allowed .wire call := by
  obtain ⟨order, now, clock, -, hrun⟩ := h.session
  obtain ⟨-, hclean⟩ := Session.run_clean hrun
  intro call hcall
  cases call with
  | sendExecutionReport body =>
    have hmem : body ∈ reportsOf (handled c outs) :=
      h.reports.subset (List.mem_filterMap.mpr ⟨_, hcall, rfl⟩)
    obtain ⟨x, hx, hbody⟩ := List.mem_flatMap.mp hmem
    obtain ⟨ev, hev, hreport⟩ := List.mem_filterMap.mp hbody
    have happ : x.msg ∈ steps.flatMap SessionStep.app := by
      rw [h.handed]
      exact List.mem_append_left _ (List.mem_map_of_mem hx)
    have htexts := route_texts (hrouted x (List.mem_of_mem_filter hx)) (hclean _ happ) ev hev
    obtain ⟨mt, rest, heq, htags, hvalues⟩ := report_plain hreport htexts
    obtain ⟨-, rfl⟩ := List.cons.inj heq
    exact ⟨htags, fun v hv => hvalues v (List.mem_cons_of_mem _ hv)⟩
  | onBytes data => trivial
  | tick now => trivial
  | initiateLogon => trivial
  | sendHeartbeat => trivial
  | sendLogout text => exact absurd (h.kinds _ hcall) id
  | resetSeq => exact absurd (h.kinds _ hcall) id

/-- No event is reported as a possible duplicate. -/
theorem unmarked_report {ev : Event} {body : Body} (h : report ev = some body) :
    Session.Unmarked body = true := by
  cases ev <;> cases h <;> rfl

/-- The reports of a thread are new. -/
theorem Follows.new_reports (h : Follows cfg acts outs c l calls steps) :
    calls.filterMap Session.Call.newReport = calls.filterMap Session.Call.report := by
  refine List.filterMap_congr fun call hcall => ?_
  rw [Session.Call.newReport]
  cases hr : call.report with
  | none => rfl
  | some body =>
    have hmem : body ∈ reportsOf (handled c outs) :=
      h.reports.subset (List.mem_filterMap.mpr ⟨_, hcall, hr⟩)
    obtain ⟨x, -, hbody⟩ := List.mem_flatMap.mp hmem
    obtain ⟨ev, -, hreport⟩ := List.mem_filterMap.mp hbody
    exact Option.filter_some_pos (unmarked_report hreport)

/-- **A client reads the reports of its messages.** -/
theorem Follows.heard (h : Follows cfg acts outs c l calls steps)
    (hrouted : ∀ x ∈ outs, x.before.server.route x.msg = .ok (x.after.server, x.events))
    (hwhole : ∀ a ∈ acts, a.Whole c) (hsender : Soh.wire.byte ∉ cfg.senderCompId)
    (hnow : ∀ n, Soh.wire.byte ∉ l.session.providers.now n) {chunks : List Bytes} {rest : Bytes}
    (hcut : chunks.flatten ++ rest = l.written.flatten) (hlen : l.written.flatten.length < 2 ^ 63) :
    ∃ ms left, feed (receive .wire) () [] chunks = .ok (.more () left (ms.map .ok)) ∧
      Heard .wire l.written (reportsOf (handled c outs)) rest ms left := by
  have hallowed := h.allowed hrouted
  obtain ⟨hreports, hwritten⟩ := h.whole hwhole
  obtain ⟨order, now, clock, -, hrun⟩ := h.session
  obtain ⟨hsame, -⟩ := Session.run_clean hrun
  have hkeeping : ((TcpServer.new cfg).session order now clock).Keeping :=
    ⟨⟨hsender, List.not_mem_nil, fun n => by rw [← hsame]; exact hnow n⟩, fun _ h => by cases h⟩
  rw [hwritten] at hcut hlen ⊢
  rw [← hreports, ← h.new_reports]
  exact heard_of_run hkeeping (fun _ h => by cases h) hallowed hrun hcut hlen

end Connection

/-! ## Threads -/

namespace Thread

/-- No message is being written, and none is about to be. -/
def between (th : Thread) : Bool :=
  match th.phase with
  | .answering _ _ _ _ | .reporting _ _ _ _ => false
  | .answered rest _ => rest.isEmpty
  | .reported rest _ => rest.isEmpty
  | _ => true

theorem now_sendReports (room : Option ℕ) (s : Session) (bodies : List Body) :
    (sendReports room s bodies).1.providers.now = s.providers.now := by
  obtain ⟨steps, hrun, -⟩ := sendReports_run room s bodies
  exact (Session.run_clean hrun).1

/-- A round between two of its reports, if all of them go out. -/
theorem foretold_reported {th : Thread} {rest : List Body} {apps : List AppMessage}
    (hphase : th.phase = .reported rest apps) :
    (th.foretold none).session = (sendReports none th.session rest).1 ∧
      (th.foretold none).written = th.written ++ (sendReports none th.session rest).2.1 := by
  obtain ⟨s, phase, bye, wire, written⟩ := th
  obtain rfl := hphase
  exact ⟨(settle_keeps _).1, (settle_keeps _).2.2⟩

/-- A round in the middle of its reports, if all of them go out. -/
theorem foretold_reporting {th : Thread} {w : WireOut} {left : Bytes} {rest : List Body}
    {apps : List AppMessage} (hphase : th.phase = .reporting w left rest apps) :
    (th.foretold none).session = (sendReports none th.session rest).1 ∧
      (th.foretold none).written = th.written ++ w :: (sendReports none th.session rest).2.1 := by
  obtain ⟨s, phase, bye, wire, written⟩ := th
  obtain rfl := hphase
  exact ⟨(settle_keeps _).1, (settle_keeps _).2.2⟩

/-- The time source is that of the thread. -/
theorem now_foretold (th : Thread) :
    (th.foretold none).session.providers.now = th.session.providers.now := by
  cases hphase : th.phase with
  | answering w left rest apps =>
    rw [foretold, hphase]
    dsimp only
    rw [(settle_keeps _).1]
  | answered rest apps =>
    rw [foretold, hphase]
    dsimp only
    rw [(settle_keeps _).1]
  | reporting w left rest apps =>
    rw [(foretold_reporting hphase).1]
    exact now_sendReports _ _ _
  | reported rest apps =>
    rw [(foretold_reported hphase).1]
    exact now_sendReports _ _ _
  | _ => rw [foretold, hphase]

/-- **The wire has the beginning of what the round writes**, and between
two messages all of it. -/
theorem wire_foretold {th : Thread} (h : th.InOrder) :
    ∃ rest, th.wire ++ rest = (th.foretold none).written.flatten ∧
      (th.between = true → rest = []) := by
  obtain ⟨part, hwire, hpart⟩ := h
  obtain ⟨s, phase, bye, wire, written⟩ := th
  have hbetween : part = [] → wire ++ [] = written.flatten := by
    rintro rfl
    rw [List.append_nil]
    exact hwire.trans (List.append_nil _)
  cases phase with
  | answering w left rest apps =>
    refine ⟨left ++ rest.flatten, ?_, fun hb => by cases hb⟩
    rw [foretold, (settle_keeps _).2.2, writeOut_none, List.flatten_append, List.flatten_cons,
      ← List.append_assoc, ← List.append_assoc]
    congr 1
    rw [hwire, List.append_assoc]
    exact congrArg _ hpart
  | reporting w left rest apps =>
    refine ⟨left ++ (sendReports none s rest).2.1.flatten, ?_, fun hb => by cases hb⟩
    rw [(foretold_reporting rfl).2, List.flatten_append, List.flatten_cons, ← List.append_assoc,
      ← List.append_assoc]
    congr 1
    rw [hwire, List.append_assoc]
    exact congrArg _ hpart
  | answered rest apps =>
    refine ⟨rest.flatten, ?_, fun hb => ?_⟩
    · have hout := hbetween (List.append_eq_nil_iff.mp hpart).1
      rw [List.append_nil] at hout
      rw [foretold, (settle_keeps _).2.2, writeOut_none, List.flatten_append]
      exact congrArg (· ++ rest.flatten) hout
    · rw [List.isEmpty_iff.mp hb, List.flatten_nil]
  | reported rest apps =>
    refine ⟨(sendReports none s rest).2.1.flatten, ?_, fun hb => ?_⟩
    · have hout := hbetween (List.append_eq_nil_iff.mp hpart).1
      rw [List.append_nil] at hout
      rw [(foretold_reported rfl).2, List.flatten_append]
      exact congrArg (· ++ (sendReports none s rest).2.1.flatten) hout
    · rw [List.isEmpty_iff.mp hb, sendReports, List.flatten_nil]
  | top => exact ⟨[], hbetween (List.append_eq_nil_iff.mp hpart).1, fun _ => rfl⟩
  | polling => exact ⟨[], hbetween (List.append_eq_nil_iff.mp hpart).1, fun _ => rfl⟩
  | entering m apps => exact ⟨[], hbetween (List.append_eq_nil_iff.mp hpart).1, fun _ => rfl⟩
  | routing m apps => exact ⟨[], hbetween (List.append_eq_nil_iff.mp hpart).1, fun _ => rfl⟩
  | closed => exact ⟨[], hbetween (List.append_eq_nil_iff.mp hpart).1, fun _ => rfl⟩

end Thread

/-! ## Time sources -/

/-- A time source that writes no separator. -/
def Spotless (now : ℕ → Bytes) : Prop := ∀ n, Soh.wire.byte ∉ now n

/-- The time sources of the sessions to come write no separator. -/
def Stamped (atoms : List Atom) : Prop :=
  ∀ c order now clock, .accept (some (c, order, now, clock)) ∈ atoms → Spotless now

namespace Thread

variable (th : Thread) (apps : List AppMessage)

theorem session_proceed : (th.proceed apps).session = th.session := by cases apps <;> rfl

theorem session_answer (ws : List WireOut) : (th.answer apps ws).session = th.session := by
  cases ws with
  | nil => exact th.session_proceed apps
  | cons w rest => rfl

theorem now_report (bodies : List Body) :
    (th.report apps bodies).session.providers.now = th.session.providers.now := by
  cases bodies with
  | nil => rw [report, session_proceed]
  | cons body rest => exact now_sendReports none th.session [body]

theorem now_check (running : Bool) :
    (th.check running).session.providers.now = th.session.providers.now := by
  obtain ⟨s, phase, bye, wire, written⟩ := th
  cases phase <;> rfl

theorem now_wake {th th' : Thread} {r : Wake} (h : th.wake r = .ok th') :
    th'.session.providers.now = th.session.providers.now := by
  have htick : ∀ (s : Session) (now : Int), (s.tick now).1.providers.now = s.providers.now :=
    fun s now => (Session.perform_keeps (c := .tick now) (s := s) rfl).2
  cases r with
  | interrupted =>
    obtain rfl := Except.ok.inj h
    rfl
  | failed =>
    obtain rfl := Except.ok.inj h
    rfl
  | timeout now =>
    rw [wake] at h
    obtain rfl := Except.ok.inj h
    rw [session_answer]
    exact htick _ _
  | readable data now =>
    rw [wake] at h
    rcases hbytes : th.session.onBytes data with e | ⟨s, step⟩
    · rw [hbytes] at h
      cases h
    rw [hbytes] at h
    obtain rfl := Except.ok.inj h
    have hperform : th.session.perform (.onBytes data) = .ok (s, [step]) := by
      rw [Session.perform, hbytes]
      rfl
    rw [session_answer]
    exact (htick _ _).trans (Session.perform_keeps hperform).2

theorem now_send (n : Int) : (th.send n).1.session.providers.now = th.session.providers.now := by
  have hwrote : ∀ th : Thread, th.wrote.1.session.providers.now = th.session.providers.now := by
    rintro ⟨s, phase, bye, wire, written⟩
    cases phase <;> rfl
  rw [send]
  split_ifs with hleft hn hall
  · exact hwrote th
  · obtain ⟨s, phase, bye, wire, written⟩ := th
    cases phase with
    | answering w left rest apps => exact congrArg (·.providers.now) (session_proceed _ apps)
    | reporting w left rest apps => exact congrArg (·.providers.now) (session_proceed _ apps)
    | _ => rfl
  · exact hwrote _
  · obtain ⟨s, phase, bye, wire, written⟩ := th
    cases phase <;> rfl

end Thread

namespace Process

variable {p p' : Process} {a : Atom} {out : List Trace}

/-- A connection that is about to get a thread was accepted. -/
theorem spawning_of_accept {r : Accepted} {c : Conn} {order : FieldOrder} {now : ℕ → Bytes}
    {clock : ℕ → Int} (h : (p.accept r).acceptor = .spawning c order now clock) :
    p.acceptor = .spawning c order now clock ∨ r = some (c, order, now, clock) := by
  rw [accept.eq_def] at h
  split at h
  · exact .inl h
  · exact .inl h
  · split_ifs at h
  · split_ifs at h
  · split at h
    · split_ifs at h
    · cases h
      exact .inr rfl
  · split_ifs at h
    exact .inl h

theorem spawning_of_stop {c : Conn} {order : FieldOrder} {now : ℕ → Bytes} {clock : ℕ → Int}
    (h : p.stop.acceptor = .spawning c order now clock) :
    p.acceptor = .spawning c order now clock := by
  rw [stop] at h
  split at h
  · split_ifs at h <;> exact h
  · exact h
  · split at h
    · cases h
    · cases h
    · exact h
  · split_ifs at h <;> exact h
  · exact h

/-- Every time source, of a thread or of one that is about to start, writes
no separator. -/
structure Timely (p : Process) : Prop where
  threads : ∀ c th, p.threads c = some th → Spotless th.session.providers.now
  spawning : ∀ c order now clock, p.acceptor = .spawning c order now clock → Spotless now

theorem Timely.set {c : Conn} {th th' : Thread} (h : p.Timely) (hth : p.threads c = some th)
    (hnow : th'.session.providers.now = th.session.providers.now) : (p.set c th').Timely :=
  ⟨threads_set h.threads (by rw [hnow]; exact h.threads c th hth), h.spawning⟩

theorem Timely.step (h : p.Timely) (hstep : p.step a = .ok (p', out))
    (hstamped : ∀ c order now clock, a = .accept (some (c, order, now, clock)) → Spotless now) :
    p'.Timely := by
  cases step_steps hstep with
  | stay a => exact h
  | start howner hacceptor => exact ⟨h.threads, fun _ _ _ _ hspawn => by cases hspawn⟩
  | stop =>
    refine ⟨?_, fun c order now clock hspawn => h.spawning c order now clock
      (spawning_of_stop hspawn)⟩
    rw [p.stop_keeps.2.2.1]
    exact h.threads
  | accept r =>
    refine ⟨?_, fun c order now clock hspawn => ?_⟩
    · rcases p.accept_threads r with ⟨hthreads, -⟩ | ⟨c, order, now, clock, hspawn, -, -, -, -,
        hthreads⟩
      · rw [hthreads]
        exact h.threads
      · rw [hthreads]
        exact threads_set h.threads (h.spawning c order now clock hspawn)
    · rcases spawning_of_accept hspawn with hspawn | rfl
      · exact h.spawning c order now clock hspawn
      · exact hstamped c order now clock rfl
  | @check c th hth => exact h.set hth (th.now_check _)
  | @wake c r th th' hth hphase hr hwake => exact h.set hth (Thread.now_wake hwake)
  | @send c n th hth => exact h.set hth (th.now_send n)
  | @enter c th m apps hth hphase =>
    exact Timely.set (p := { p with msgsIn := _ }) ⟨h.threads, h.spawning⟩ hth rfl
  | @answered c th rest apps hth hphase =>
    exact Timely.set (p := { p with msgsOut := _ }) ⟨h.threads, h.spawning⟩ hth
      (congrArg (·.providers.now) (th.session_answer apps rest))
  | @reported c th rest apps hth hphase =>
    exact Timely.set (p := { p with msgsOut := _ }) ⟨h.threads, h.spawning⟩ hth
      (th.now_report apps rest)
  | @route c th m apps srv evs hth hphase hroute =>
    exact Timely.set (p := { p with server := srv }) ⟨h.threads, h.spawning⟩ hth
      (th.now_report apps _)

end Process

theorem run_timely {cfg : ServerConfig} {atoms : List Atom} {p : Process} {trace : List Trace}
    (h : run Process.step (Process.new cfg) atoms = .ok (p, trace)) (hstamped : Stamped atoms) :
    p.Timely := by
  refine run_inv_returns (P := fun a => ∀ c order now clock,
      a = .accept (some (c, order, now, clock)) → Spotless now)
    (J := fun _ _ p => p.Timely) (fun _ _ _ _ _ _ ht ha hstep => ht.step hstep ha)
    ⟨fun _ _ hth => (by cases hth), fun _ _ _ _ hs => (by cases hs)⟩ ?_ h
  rintro a ha c order now clock rfl
  exact hstamped c order now clock ha

/-- **What the book did for a client is what the client reads.** In every
run of the process the messages routed are a run of the book, and on a
connection where no `send` fails the bytes on the wire, however the client
receives them, are whole messages and a part of the next; and the new
ExecutionReports among them are the first of the reports of the client's
own messages, in order, and all of them when no message is being written. -/
theorem run_delivered (cfg : ServerConfig) (atoms : List Atom) (p : Process) (trace : List Trace)
    (h : run Process.step (Process.new cfg) atoms = .ok (p, trace))
    (hsender : Soh.wire.byte ∉ cfg.senderCompId) (hstamped : Stamped atoms) :
    ∃ hub outs, run Hub.serve (Hub.new cfg.algo) (trace.filterMap Trace.toBook) =
        .ok (hub, outs) ∧ hub.server = p.server ∧
      ∀ c th, p.threads c = some th → Intact c atoms →
        (th.foretold none).written.flatten.length < 2 ^ 63 →
        ∀ chunks : List Bytes, chunks.flatten = th.wire →
        ∃ ms left rest, feed (receive .wire) () [] chunks = .ok (.more () left (ms.map .ok)) ∧
          Heard .wire (th.foretold none).written (reportsOf (handled c outs)) rest ms left ∧
          (th.between = true → rest = []) := by
  obtain ⟨acts, hacts, hwhole⟩ := run_rounds h fun _ => none
  obtain ⟨hub, outs, hcomposed, -⟩ := run_composed hacts
  refine ⟨hub, outs, hcomposed.book, hcomposed.server, ?_⟩
  intro c th hth hintact hlen chunks hchunks
  obtain ⟨rest, hwire, hbetween⟩ := Thread.wire_foretold (run_inOrder h hth hintact)
  obtain ⟨calls, steps, hfollows⟩ :=
    hcomposed.threads c (th.foretold none) (Process.foretold_links hth)
  have hnow : Spotless (th.foretold none).session.providers.now := by
    rw [th.now_foretold]
    exact (run_timely h hstamped).threads c th hth
  obtain ⟨ms, left, hfeed, hheard⟩ := hfollows.heard (routed_of_run hcomposed.book)
    (hwhole c hintact rfl) hsender hnow (hchunks ▸ hwire) hlen
  exact ⟨ms, left, rest, hfeed, hheard, hbetween⟩

/-- The client that sold has its Logon answered and its order
acknowledged, and four bytes of the report of its trade. -/
theorem run_delivered_turns :
    ∃ p trace hub outs th, run Process.step (Process.new {}) turns = .ok (p, trace) ∧
      p.threads 2 = some th ∧ th.wire.length = 196 ∧ th.written.length = 2 ∧
      run Hub.serve (Hub.new .proRata) (trace.filterMap Trace.toBook) = .ok (hub, outs) ∧
      ∃ ms left rest, feed (receive .wire) () [] [th.wire.take 100, th.wire.drop 100] =
          .ok (.more () left (ms.map .ok)) ∧
        Heard .wire (th.foretold none).written (reportsOf (handled 2 outs)) rest ms left := by
  obtain ⟨p, trace, hr, hend⟩ := @exists_of_run_check _ _ _ _ Process.step
    (fun r : Process × List Trace => (r.1.threads 2).any fun th : Thread =>
      decide (th.wire.length = 196 ∧ th.written.length = 2 ∧
        (th.foretold none).written.flatten.length < 2 ^ 63))
    (Process.new {}) turns (by decide +kernel)
  obtain ⟨th, hth, hcheck⟩ := (Option.any_eq_true _ _).mp hend
  obtain ⟨hwire, hwritten, hlen⟩ := of_decide_eq_true hcheck
  have hstamped : Stamped turns := by
    have htime : Soh.wire.byte ∉ ascii "20260513-00:00:00.000" := by decide
    intro c order now clock hmem n
    simp only [turns, arrives, List.cons_append, List.nil_append, List.mem_cons, reduceCtorEq,
      Atom.accept.injEq, Option.some.injEq, Prod.mk.injEq, false_or, or_false,
      List.not_mem_nil] at hmem
    rcases hmem with ⟨-, -, rfl, -⟩ | ⟨-, -, rfl, -⟩ <;> exact htime
  have hintact : Intact 2 turns := by
    intro n hmem
    simp [turns, arrives] at hmem
    omega
  obtain ⟨hub, outs, hbook, -, hread⟩ :=
    run_delivered {} turns p trace hr (by decide) hstamped
  obtain ⟨ms, left, rest, hfeed, hheard, -⟩ := hread 2 th hth hintact hlen
    [th.wire.take 100, th.wire.drop 100] (by simp)
  exact ⟨p, trace, hub, outs, th, hr, hth, hwire, hwritten, hbook, ms, left, rest, hfeed, hheard⟩

end Net

end OrderbookFix
