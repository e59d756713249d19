import OrderbookFix.Fix.Legible
import OrderbookFix.Net.Atomicity
import OrderbookFix.Net.Reporting
import OrderbookFix.Net.Wire
/-!
# The server is one book and many sessions

A run of the threads comes apart into a run of the book and one run of a
session for each connection. The book takes the messages of all
connections one at a time, in an order in which those of one connection
keep theirs, and each exactly once. A session is asked what the rounds of
its thread ask of it, in their order and nothing else: the buffers its
connection received, the ticks, and the reports of the events that the
book returned for its own messages. Nothing of another connection reaches
it.
-/

namespace OrderbookFix

namespace Net

open OrderbookFix.Core OrderbookFix.Fix

/-! ## What belongs to a connection -/

/-- The messages of a connection that were handled. -/
def handled (c : Conn) (outs : List Handling) : List Handling := outs.filter fun x => x.conn = c

/-- The calls of a thread. -/
def IsThreads : Session.Call → Prop
  | .onBytes _ | .tick _ | .sendExecutionReport _ => True
  | _ => False

/-- **A thread is a run of its session**: on what its rounds ask of it, and
on the events of its own messages, nothing twice and nothing out of
turn. -/
structure Follows (cfg : ServerConfig) (acts : List Act) (outs : List Handling) (c : Conn)
    (l : Link) (calls : List Session.Call) (steps : List SessionStep) : Prop where
  session : ∃ order now clock, .accept c order now clock ∈ acts ∧
    run Session.perform ((TcpServer.new cfg).session order now clock) calls =
      .ok (l.session, steps)
  asked : calls = gathered TcpServer.act (TcpServer.asks c) (TcpServer.new cfg) acts
  kinds : ∀ call ∈ calls, IsThreads call
  handed : steps.flatMap SessionStep.app = (handled c outs).map Handling.msg ++ l.pending
  reports : (calls.filterMap Session.Call.report).Sublist (reportsOf (handled c outs))
  written : l.written.Sublist (steps.flatMap SessionStep.out)
  whole : (∀ a ∈ acts, a.Whole c) →
    calls.filterMap Session.Call.report = reportsOf (handled c outs) ∧
      l.written = steps.flatMap SessionStep.out

/-! ## The pieces of a round -/

theorem tick_app (s : Session) (now : Int) : (s.tick now).2.app = [] := by
  obtain ⟨s', step, ht⟩ : ∃ s' step, s.tick now = (s', step) := ⟨_, _, rfl⟩
  rw [ht]
  cases Session.tick_ticksAt ht <;> rfl

theorem writeOut_none (ws : List WireOut) : writeOut none ws = (ws, false) := by
  induction ws with
  | nil => rfl
  | cons w ws ih =>
    rw [writeOut, if_neg (by simp), Option.map_none, ih]

theorem attempted_initial (room : Option ℕ) (bodies : List Body) :
    attempted room bodies <+: bodies := by
  cases room with
  | none => exact List.prefix_rfl
  | some k => exact List.take_prefix _ _

theorem attempted_cons {room : Option ℕ} (h : room ≠ some 0) (body : Body) (rest : List Body) :
    attempted room (body :: rest) = body :: attempted (room.map Nat.pred) rest := by
  rcases room with _ | _ | k
  · rfl
  · exact absurd rfl h
  · rfl

/-- **Sending reports** is a run of the session, over those of them that
were built. -/
theorem sendReports_run (room : Option ℕ) (s : Session) (bodies : List Body) :
    ∃ steps, run Session.perform s ((attempted room bodies).map .sendExecutionReport) =
        .ok ((sendReports room s bodies).1, steps) ∧
      steps.flatMap SessionStep.app = [] ∧
      (sendReports room s bodies).2.1 <+: steps.flatMap SessionStep.out ∧
      (room = none → (sendReports room s bodies).2.1 = steps.flatMap SessionStep.out) := by
  induction bodies generalizing room s with
  | nil =>
    have hnil : attempted room [] = [] := List.prefix_nil.mp (attempted_initial room [])
    rw [hnil]
    exact ⟨[], rfl, rfl, List.prefix_rfl, fun _ => rfl⟩
  | cons body rest ih =>
    have hone : s.perform (.sendExecutionReport body) =
        .ok ((s.sendExecutionReport body).1, [{ out := [(s.sendExecutionReport body).2] }]) := rfl
    have hsend : sendReports room s (body :: rest) =
        if room = some 0 then ((s.sendExecutionReport body).1, [], true)
        else
          ((sendReports (room.map Nat.pred) (s.sendExecutionReport body).1 rest).1,
            (s.sendExecutionReport body).2 ::
              (sendReports (room.map Nat.pred) (s.sendExecutionReport body).1 rest).2.1,
            (sendReports (room.map Nat.pred) (s.sendExecutionReport body).1 rest).2.2) := rfl
    by_cases hroom : room = some 0
    · refine ⟨[{ out := [(s.sendExecutionReport body).2] }], ?_, rfl, ?_, ?_⟩
      · rw [hsend, if_pos hroom, hroom]
        exact run_singleton_of_ok hone
      · rw [hsend, if_pos hroom]
        exact List.nil_prefix
      · rintro rfl
        cases hroom
    · obtain ⟨steps, hrun, happ, hout, hwhole⟩ :=
        ih (room.map Nat.pred) (s.sendExecutionReport body).1
      refine ⟨{ out := [(s.sendExecutionReport body).2] } :: steps, ?_, happ, ?_, ?_⟩
      · rw [hsend, if_neg hroom, attempted_cons hroom, List.map_cons, run_cons_of_ok hone, hrun]
        rfl
      · rw [hsend, if_neg hroom]
        exact List.prefix_cons_inj _ |>.mpr hout
      · rintro rfl
        rw [hsend, if_neg hroom]
        exact congrArg (List.cons _) (hwhole rfl)

theorem settle_keeps (l : Link) : l.settle.session = l.session ∧ l.settle.pending = l.pending ∧
    l.settle.written = l.written := by
  rw [Link.settle]
  split_ifs <;> exact ⟨rfl, rfl, rfl⟩

theorem handled_append (c : Conn) (outs outs' : List Handling) :
    handled c (outs ++ outs') = handled c outs ++ handled c outs' := List.filter_append ..

theorem reportsOf_handled_append (c : Conn) (outs outs' : List Handling) :
    reportsOf (handled c (outs ++ outs')) =
      reportsOf (handled c outs) ++ reportsOf (handled c outs') := by
  rw [handled_append, reportsOf, List.flatMap_append]
  rfl

section Rounds

variable {cfg : ServerConfig} {acts : List Act} {outs out : List Handling} {c : Conn} {l l' : Link}
  {calls calls' : List Session.Call} {steps steps' : List SessionStep} {a : Act}
  {t : TcpServer} {routed : List (Conn × Message)}

/-- **A thread goes on** with a piece of its run. -/
theorem Follows.extend (h : Follows cfg acts outs c l calls steps)
    (hacts : run TcpServer.act (TcpServer.new cfg) acts = .ok (t, routed))
    (hasks : t.asks c a = calls')
    {s : Session} (hrun : run Session.perform l.session calls' = .ok (s, steps'))
    (hsession : l'.session = s) (hkinds : ∀ call ∈ calls', IsThreads call)
    (hhanded : l.pending ++ steps'.flatMap SessionStep.app =
      (handled c out).map Handling.msg ++ l'.pending)
    (hreports : (calls'.filterMap Session.Call.report).Sublist (reportsOf (handled c out)))
    {ws : List WireOut} (hwritten : l'.written = l.written ++ ws)
    (hws : ws.Sublist (steps'.flatMap SessionStep.out))
    (hwhole : a.Whole c → calls'.filterMap Session.Call.report = reportsOf (handled c out) ∧
      ws = steps'.flatMap SessionStep.out) :
    Follows cfg (acts ++ [a]) (outs ++ out) c l' (calls ++ calls') (steps ++ steps') where
  session := by
    obtain ⟨order, now, clock, hmem, hr⟩ := h.session
    exact ⟨order, now, clock, List.mem_append_left _ hmem, hsession ▸ run_append_of_ok hr hrun⟩
  asked := by rw [gathered_concat _ hacts, hasks, h.asked]
  kinds call hcall := (List.mem_append.mp hcall).elim (h.kinds call) (hkinds call)
  handed := by
    rw [List.flatMap_append, h.handed, handled_append, List.map_append, List.append_assoc,
      List.append_assoc, hhanded]
  reports := by
    rw [List.filterMap_append, reportsOf_handled_append]
    exact h.reports.append hreports
  written := by
    rw [hwritten, List.flatMap_append]
    exact h.written.append hws
  whole hall := by
    obtain ⟨hr, hw⟩ := h.whole fun b hb => hall b (List.mem_append_left _ hb)
    obtain ⟨hr', hw'⟩ := hwhole (hall a (List.mem_append_right _ (List.mem_singleton_self a)))
    refine ⟨?_, ?_⟩
    · rw [List.filterMap_append, hr, hr', reportsOf_handled_append]
    · rw [hwritten, hw, hw', List.flatMap_append]

/-- An act that asks nothing of a session leaves its thread alone. -/
theorem Follows.other (h : Follows cfg acts outs c l calls steps)
    (hacts : run TcpServer.act (TcpServer.new cfg) acts = .ok (t, routed))
    (hasks : t.asks c a = []) (hout : handled c out = []) :
    Follows cfg (acts ++ [a]) (outs ++ out) c l calls steps := by
  have hwritten : l.written = l.written ++ ([] : List WireOut) := (List.append_nil _).symm
  have hext : Follows cfg (acts ++ [a]) (outs ++ out) c l (calls ++ []) (steps ++ []) :=
    h.extend hacts hasks rfl rfl (fun _ hm => by cases hm)
      (by rw [hout]; exact List.append_nil _) (List.nil_sublist _) hwritten
      (List.nil_sublist _) fun _ => by rw [hout]; exact ⟨rfl, rfl⟩
  rwa [List.append_nil, List.append_nil] at hext

/-- A round without a buffer. -/
theorem Follows.idle (h : Follows cfg acts outs c l calls steps)
    (hacts : run TcpServer.act (TcpServer.new cfg) acts = .ok (t, routed))
    (hlink : t.links c = some l) (hready : l.Ready) (now : Int) (room : Option ℕ) :
    Follows cfg (acts ++ [.idle c now room]) (outs ++ []) c (l.idle now room)
      (calls ++ [.tick now]) (steps ++ [(l.session.tick now).2]) := by
  have hone : l.session.perform (.tick now) =
      .ok ((l.session.tick now).1, [(l.session.tick now).2]) := rfl
  have hkeeps : (l.idle now room).session = (l.session.tick now).1 ∧
      (l.idle now room).pending = l.pending ∧
      (l.idle now room).written = l.written ++ (writeOut room (l.session.tick now).2.out).1 :=
    settle_keeps _
  obtain ⟨hsession, hpending, hwritten⟩ := hkeeps
  have hasks : t.asks c (.idle c now room) = [.tick now] :=
    (TcpServer.asks_of_link hlink rfl).trans (if_pos hready)
  refine h.extend hacts hasks (run_singleton_of_ok hone) hsession (by simp [IsThreads]) ?_
    (List.nil_sublist _) hwritten ?_ ?_
  · rw [List.flatMap_singleton, tick_app, hpending]
    exact List.append_nil _
  · rw [List.flatMap_singleton]
    exact (writeOut_initial _).sublist
  · intro hwhole
    obtain rfl := hwhole rfl
    rw [writeOut_none, List.flatMap_singleton]
    exact ⟨rfl, rfl⟩

/-- A round with a buffer, up to its first application message. -/
theorem Follows.recv (h : Follows cfg acts outs c l calls steps)
    (hacts : run TcpServer.act (TcpServer.new cfg) acts = .ok (t, routed))
    (hlink : t.links c = some l) {data : Bytes} {now : Int} {room : Option ℕ}
    (hready : l.Ready ∧ 0 < data.length ∧ data.length ≤ bufSize)
    (hrecv : l.recv data now room = .ok l') :
    ∃ calls' steps', Follows cfg (acts ++ [.recv c data now room]) (outs ++ []) c l'
      (calls ++ calls') (steps ++ steps') := by
  rw [Link.recv] at hrecv
  rcases hbytes : l.session.onBytes data with e | ⟨s, step⟩
  · rw [hbytes] at hrecv
    cases hrecv
  rw [hbytes] at hrecv
  have hl' := Except.ok.inj hrecv
  have hkeeps : l'.session = (s.tick now).1 ∧ l'.pending = step.app ∧
      l'.written = l.written ++ (writeOut room (step.out ++ (s.tick now).2.out)).1 :=
    hl' ▸ settle_keeps _
  obtain ⟨hsession, hpending, hwritten⟩ := hkeeps
  have htwo : run Session.perform l.session [.onBytes data, .tick now] =
      .ok ((s.tick now).1, [step, (s.tick now).2]) := by
    have hfirst : l.session.perform (.onBytes data) = .ok (s, [step]) := by
      rw [Session.perform, hbytes]
      rfl
    have hsecond : s.perform (.tick now) = .ok ((s.tick now).1, [(s.tick now).2]) := rfl
    rw [run_cons_of_ok hfirst, run_singleton_of_ok hsecond]
    rfl
  have hout : [step, (s.tick now).2].flatMap SessionStep.out = step.out ++ (s.tick now).2.out := by
    simp
  have hasks : t.asks c (.recv c data now room) = [.onBytes data, .tick now] :=
    (TcpServer.asks_of_link hlink rfl).trans (if_pos hready)
  refine ⟨[.onBytes data, .tick now], [step, (s.tick now).2],
    h.extend hacts hasks htwo hsession (by simp [IsThreads]) ?_ (List.nil_sublist _) hwritten
      ?_ ?_⟩
  · rw [hready.1.2, hpending, List.flatMap_cons, List.flatMap_singleton, tick_app, List.append_nil]
    rfl
  · rw [hout]
    exact (writeOut_initial _).sublist
  · intro hwhole
    obtain rfl := hwhole rfl
    rw [writeOut_none, hout]
    exact ⟨rfl, rfl⟩

theorem filterMap_report (bodies : List Body) :
    (bodies.map Session.Call.sendExecutionReport).filterMap Session.Call.report = bodies := by
  rw [List.filterMap_map]
  exact List.filterMap_some

/-- An application message of the round. -/
theorem Follows.serve (h : Follows cfg acts outs c l calls steps)
    (hacts : run TcpServer.act (TcpServer.new cfg) acts = .ok (t, routed))
    (hlink : t.links c = some l) {srv' : Server} {m : AppMessage} {rest : List AppMessage}
    {room : Option ℕ} (hpending : l.pending = m :: rest)
    (hserve : l.serve t.server m rest room = .ok (srv', l')) {x : Handling} (hconn : x.conn = c)
    (hmsg : x.msg = m) (hevents : t.server.route m = .ok (srv', x.events)) :
    ∃ calls' steps', Follows cfg (acts ++ [.serve c room]) (outs ++ [x]) c l' (calls ++ calls')
      (steps ++ steps') := by
  obtain ⟨evs, hroute, hl'⟩ := Link.serve_route hserve
  obtain ⟨-, rfl⟩ := Prod.mk.inj (Except.ok.inj (hevents.symm.trans hroute))
  obtain ⟨steps', hrun, happ, hout, hwhole⟩ :=
    sendReports_run room l.session (x.events.filterMap report)
  have hkeeps : l'.session = (sendReports room l.session (x.events.filterMap report)).1 ∧
      l'.pending = rest ∧ l'.written = l.written ++
        (sendReports room l.session (x.events.filterMap report)).2.1 :=
    hl' ▸ settle_keeps _
  obtain ⟨hsession, hrest, hwritten⟩ := hkeeps
  have hone : handled c [x] = [x] := by simp [handled, hconn]
  have hreports : reportsOf (handled c [x]) = x.events.filterMap report := by
    rw [hone, reportsOf, List.flatMap_singleton]
  have hasks : t.asks c (.serve c room) =
      (attempted room (x.events.filterMap report)).map .sendExecutionReport := by
    refine (TcpServer.asks_of_link hlink rfl).trans ?_
    rw [Link.asks, hpending]
    dsimp only
    rw [hroute]
  refine ⟨_, steps', h.extend hacts hasks hrun hsession ?_ ?_ ?_ hwritten hout.sublist ?_⟩
  · intro call hcall
    obtain ⟨body, -, rfl⟩ := List.mem_map.mp hcall
    trivial
  · rw [happ, List.append_nil, hpending, hone, hrest, List.map_singleton, hmsg]
    rfl
  · rw [filterMap_report, hreports]
    exact (attempted_initial _ _).sublist
  · intro hall
    obtain rfl := hall rfl
    rw [filterMap_report, hreports]
    exact ⟨rfl, hwhole rfl⟩

end Rounds

/-! ## Runs -/

/-- **The book has taken what was routed, and every thread follows it.** -/
structure Composed (cfg : ServerConfig) (acts : List Act) (routed : List (Conn × Message))
    (t : TcpServer) (hub : Hub) (outs : List Handling) : Prop where
  book : run Hub.serve (Hub.new cfg.algo) routed = .ok (hub, outs)
  server : hub.server = t.server
  accepted : ∀ c order now clock, .accept c order now clock ∈ acts → ∃ l, t.links c = some l
  threads : ∀ c l, t.links c = some l → ∃ calls steps, Follows cfg acts outs c l calls steps

section Steps

variable {cfg : ServerConfig} {acts : List Act} {routed out : List (Conn × Message)}
  {t t' : TcpServer} {hub : Hub} {outs : List Handling} {a : Act} {c : Conn} {l l' : Link}

/-- A link is replaced, and the others are there still. -/
theorem accepted_set (h : ∀ c order now clock, .accept c order now clock ∈ acts →
      ∃ l, t.links c = some l) (l : Link) :
    ∀ c order now clock, .accept c order now clock ∈ acts ++ [a] →
      ∃ l', Function.update t.links a.conn (some l) c = some l' := by
  intro c order now clock hmem
  by_cases hc : c = a.conn
  · exact ⟨l, by rw [hc, Function.update_self]⟩
  · rw [Function.update_of_ne hc]
    rcases List.mem_append.mp hmem with hmem | hmem
    · exact h c order now clock hmem
    · exact absurd (congrArg Act.conn (List.mem_singleton.mp hmem)) hc

/-- One link is replaced, and its thread has gone on. -/
theorem threads_set (hacts : run TcpServer.act (TcpServer.new cfg) acts = .ok (t, routed))
    (h : ∀ c l, t.links c = some l → ∃ calls steps, Follows cfg acts outs c l calls steps)
    {xs : List Handling} (hxs : ∀ c, c ≠ a.conn → handled c xs = [])
    (hl : ∃ calls steps, Follows cfg (acts ++ [a]) (outs ++ xs) a.conn l calls steps) :
    ∀ c l', Function.update t.links a.conn (some l) c = some l' →
      ∃ calls steps, Follows cfg (acts ++ [a]) (outs ++ xs) c l' calls steps := by
  intro c l' hlink
  by_cases hc : c = a.conn
  · subst hc
    rw [Function.update_self] at hlink
    exact Option.some.inj hlink ▸ hl
  · rw [Function.update_of_ne hc] at hlink
    obtain ⟨calls, steps, hf⟩ := h c l' hlink
    exact ⟨calls, steps, hf.other hacts (TcpServer.asks_of_ne fun he => hc he.symm) (hxs c hc)⟩

/-- Nothing was asked or handled on a connection before it is accepted. -/
def Unheard (cfg : ServerConfig) (acts : List Act) (links : Conn → Option Link)
    (outs : List Handling) : Prop :=
  ∀ c, links c = none → handled c outs = [] ∧
    gathered TcpServer.act (TcpServer.asks c) (TcpServer.new cfg) acts = []

theorem Unheard.set (h : Unheard cfg acts t.links outs)
    (hacts : run TcpServer.act (TcpServer.new cfg) acts = .ok (t, routed)) (l : Link)
    {xs : List Handling} (hxs : ∀ c, c ≠ a.conn → handled c xs = []) :
    Unheard cfg (acts ++ [a]) (Function.update t.links a.conn (some l)) (outs ++ xs) := by
  intro c hlink
  have hc : c ≠ a.conn := by
    rintro rfl
    rw [Function.update_self] at hlink
    cases hlink
  rw [Function.update_of_ne hc] at hlink
  obtain ⟨hhandled, hasked⟩ := h c hlink
  rw [handled_append, hhandled, hxs c hc, gathered_concat _ hacts, hasked,
    TcpServer.asks_of_none hlink]
  exact ⟨rfl, rfl⟩

/-- An act that routes nothing, where one link is replaced. -/
theorem Composed.quiet (h : Composed cfg acts routed t hub outs)
    (hacts : run TcpServer.act (TcpServer.new cfg) acts = .ok (t, routed))
    (hnew : Unheard cfg acts t.links outs)
    (hl : ∃ calls steps, Follows cfg (acts ++ [a]) (outs ++ []) a.conn l calls steps) :
    Composed cfg (acts ++ [a]) (routed ++ []) (t.set a.conn l) hub (outs ++ []) ∧
      Unheard cfg (acts ++ [a]) (t.set a.conn l).links (outs ++ []) :=
  ⟨⟨by rw [List.append_nil, List.append_nil]; exact h.book, h.server,
    accepted_set h.accepted l, threads_set hacts h.threads (fun _ _ => rfl) hl⟩,
    hnew.set hacts l fun _ _ => rfl⟩

/-- A thread starts with a session nothing was asked of. -/
theorem follows_accept {order : FieldOrder} {now : ℕ → Bytes} {clock : ℕ → Int}
    (hacts : run TcpServer.act (TcpServer.new cfg) acts = .ok (t, routed))
    (hcfg : t.cfg = cfg) (hlink : t.links c = none) (hnew : Unheard cfg acts t.links outs) :
    Follows cfg (acts ++ [.accept c order now clock]) outs c
      { session := t.session order now clock } [] [] where
  session := ⟨order, now, clock, List.mem_append_right _ (List.mem_singleton_self _), hcfg ▸ rfl⟩
  asked := by
    rw [gathered_concat _ hacts, (hnew c hlink).2, TcpServer.asks_of_none hlink]
    rfl
  kinds call hcall := by cases hcall
  handed := by rw [(hnew c hlink).1]; rfl
  reports := List.nil_sublist _
  written := List.nil_sublist _
  whole _ := by rw [(hnew c hlink).1]; exact ⟨rfl, rfl⟩

/-- An act that changes nothing. -/
theorem Composed.stay (h : Composed cfg acts routed t hub outs)
    (hacts : run TcpServer.act (TcpServer.new cfg) acts = .ok (t, routed))
    (hnew : Unheard cfg acts t.links outs) (hact : t.act a = .ok (t, []))
    (hasks : ∀ c, t.asks c a = []) :
    Composed cfg (acts ++ [a]) (routed ++ []) t hub (outs ++ []) ∧
      Unheard cfg (acts ++ [a]) t.links (outs ++ []) := by
  refine ⟨⟨?_, h.server, ?_, fun c l hlink => ?_⟩, fun c hlink => ?_⟩
  · rw [List.append_nil, List.append_nil]
    exact h.book
  · intro c order now clock hmem
    rcases List.mem_append.mp hmem with hmem | hmem
    · exact h.accepted c order now clock hmem
    -- a connection that has no thread gets one when it is accepted
    · obtain rfl := List.mem_singleton.mp hmem
      cases hlink : t.links c with
      | some l => exact ⟨l, rfl⟩
      | none =>
        rw [TcpServer.act, hlink] at hact
        have hset : Function.update t.links c _ c = t.links c :=
          congrArg (fun t : TcpServer => t.links c) (Prod.mk.inj (Except.ok.inj hact)).1
        rw [hlink, Function.update_self] at hset
        cases hset
  · obtain ⟨calls, steps, hf⟩ := h.threads c l hlink
    exact ⟨calls, steps, hf.other hacts (hasks c) rfl⟩
  · rw [List.append_nil, gathered_concat _ hacts, hasks c, List.append_nil]
    exact hnew c hlink

/-- **One act**, by the book and by its thread. -/
theorem Composed.act (h : Composed cfg acts routed t hub outs)
    (hacts : run TcpServer.act (TcpServer.new cfg) acts = .ok (t, routed)) (hcfg : t.cfg = cfg)
    (hnew : Unheard cfg acts t.links outs) (hact : t.act a = .ok (t', out)) :
    t'.cfg = cfg ∧ ∃ hub' xs, Composed cfg (acts ++ [a]) (routed ++ out) t' hub' (outs ++ xs) ∧
      Unheard cfg (acts ++ [a]) t'.links (outs ++ xs) := by
  cases TcpServer.act_acts hact with
  | stay a hlink =>
    exact ⟨hcfg, hub, [], h.stay hacts hnew hact fun c => TcpServer.asks_of_stay hlink⟩
  | @accept c order now clock hlink =>
    refine ⟨hcfg, hub, [], h.quiet (a := .accept c order now clock) hacts hnew ⟨[], [], ?_⟩⟩
    rw [List.append_nil]
    exact follows_accept hacts hcfg hlink hnew
  | @idle c now room l hlink hready =>
    obtain ⟨calls, steps, hf⟩ := h.threads c l hlink
    exact ⟨hcfg, hub, [], h.quiet (a := .idle c now room) hacts hnew
      ⟨_, _, hf.idle hacts hlink hready now room⟩⟩
  | @recv c data now room l l' hlink hready hrecv =>
    obtain ⟨calls, steps, hf⟩ := h.threads c l hlink
    obtain ⟨calls', steps', hf'⟩ := hf.recv hacts hlink hready hrecv
    exact ⟨hcfg, hub, [], h.quiet (a := .recv c data now room) hacts hnew ⟨_, _, hf'⟩⟩
  | @serve c room l l' m rest srv hlink hpending hserve =>
    obtain ⟨evs, hroute, -⟩ := Link.serve_route hserve
    have hhub : hub.serve (c, m) = .ok (⟨srv, hub.logged c m⟩,
        [⟨hub, c, m, evs, ⟨srv, hub.logged c m⟩⟩]) := by
      rw [Hub.serve, h.server, hroute]
    have hxs : ∀ c', c' ≠ c →
        handled c' [⟨hub, c, m, evs, ⟨srv, hub.logged c m⟩⟩] = [] := by
      intro c' hc
      simp [handled, hc.symm]
    obtain ⟨calls, steps, hf⟩ := h.threads c l hlink
    obtain ⟨calls', steps', hf'⟩ := hf.serve hacts hlink hpending hserve
      (x := ⟨hub, c, m, evs, ⟨srv, hub.logged c m⟩⟩) rfl rfl hroute
    refine ⟨hcfg, _, _, ⟨run_concat_of_ok h.book hhub, rfl, ?_, ?_⟩, ?_⟩
    · exact accepted_set (a := .serve c room) h.accepted l'
    · exact threads_set (a := .serve c room) hacts h.threads hxs ⟨_, _, hf'⟩
    · exact hnew.set (a := .serve c room) hacts l' hxs
  | @leave c l hlink hready =>
    obtain ⟨calls, steps, hf⟩ := h.threads c l hlink
    have hon : Follows cfg (acts ++ [.leave c]) (outs ++ []) c l calls steps :=
      hf.other hacts (TcpServer.asks_of_link hlink rfl) rfl
    refine ⟨hcfg, hub, [], h.quiet (a := .leave c) hacts hnew ⟨calls, steps, ?_⟩⟩
    exact ⟨hon.session, hon.asked, hon.kinds, hon.handed, hon.reports, hon.written, hon.whole⟩

end Steps

/-- A run of the threads, taken apart. -/
theorem run_composed {cfg : ServerConfig} {acts : List Act} {t : TcpServer}
    {routed : List (Conn × Message)}
    (h : run TcpServer.act (TcpServer.new cfg) acts = .ok (t, routed)) :
    ∃ hub outs, Composed cfg acts routed t hub outs ∧ Unheard cfg acts t.links outs := by
  refine (run_inv_returns (P := fun _ => True)
    (J := fun past routed t => run TcpServer.act (TcpServer.new cfg) past = .ok (t, routed) ∧
      t.cfg = cfg ∧ ∃ hub outs, Composed cfg past routed t hub outs ∧
        Unheard cfg past t.links outs) ?_ ?_ (fun _ _ => trivial) h).2.2
  · rintro past routed t a t' out ⟨hpast, hcfg, hub, outs, hcomposed, hnew⟩ - hact
    obtain ⟨hcfg', hub', xs, hnext⟩ := hcomposed.act hpast hcfg hnew hact
    exact ⟨run_concat_of_ok hpast hact, hcfg', hub', outs ++ xs, hnext⟩
  · exact ⟨rfl, rfl, Hub.new cfg.algo, [], ⟨rfl, rfl, fun _ _ _ _ hmem => (by cases hmem),
      fun _ _ hlink => (by cases hlink)⟩, fun _ _ => ⟨rfl, rfl⟩⟩

/-- **The server is one book and a session for each connection.** Whatever
the interleaving, what the threads routed is a run of the book; and each
connection that was accepted has a thread, which is a run of its own
session on what the rounds of the connection ask of it, call by call. The
reports among these are of its own messages, in their order. Where no write
of the connection failed, all of these reports were sent and all that the
session put out was written. -/
theorem run_linear (cfg : ServerConfig) (acts : List Act) (t : TcpServer)
    (routed : List (Conn × Message))
    (h : run TcpServer.act (TcpServer.new cfg) acts = .ok (t, routed)) :
    ∃ hub outs, Composed cfg acts routed t hub outs := by
  obtain ⟨hub, outs, hcomposed, -⟩ := run_composed h
  exact ⟨hub, outs, hcomposed⟩

/-- Two clients log on. The one sells what the other bid for. -/
def crossing : List Act :=
  [arrival, .accept 2 .stored (fun _ => ascii "20260513-00:00:00.000") fun _ => 0,
    .recv 1 logsOn 0 none, .recv 2 logsOn 0 none, .recv 1 buys 0 none,
    .recv 2 (clientBytes MsgType.newOrderSingle "2" [(Tag.clOrdID, ascii "B"),
      (Tag.side, ascii "2"), (Tag.price, ascii "100"), (Tag.orderQty, ascii "5")]) 0 none,
    .serve 1 none, .serve 2 none]

/-- The reports of the sell do not reach the other: its session is asked
for two buffers, each with its tick, and one report. -/
theorem run_linear_crossing :
    ∃ t routed, run TcpServer.act (TcpServer.new {}) crossing = .ok (t, routed) ∧
      routed.map Prod.fst = [1, 2] ∧
      (gathered TcpServer.act (TcpServer.asks 1) (TcpServer.new {}) crossing).length = 5 ∧
      ((t.links 1).map fun l => l.written.map fun w => thirdField 0x01 w) =
        some [ascii "35=A", ascii "35=8"] ∧
      ∃ hub outs, Composed {} crossing routed t hub outs := by
  obtain ⟨t, routed, hr, hend⟩ := @exists_of_run_check _ _ _ _ TcpServer.act
    (fun r : TcpServer × List (Conn × Message) => decide (r.2.map Prod.fst = [1, 2] ∧
      ((r.1.links 1).map fun l => l.written.map fun w => thirdField 0x01 w) =
        some [ascii "35=A", ascii "35=8"])) (TcpServer.new {}) crossing (by decide +kernel)
  obtain ⟨hconns, hwritten⟩ := of_decide_eq_true hend
  exact ⟨t, routed, hr, hconns, by decide +kernel, hwritten, run_linear {} crossing t routed hr⟩

end Net

end OrderbookFix
