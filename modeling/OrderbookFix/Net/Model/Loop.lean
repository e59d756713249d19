import OrderbookFix.Net.Model.Hub
/-!
# The loop of a connection

`TcpServer::session_loop`: one thread a connection, each with a session
of its own, all over one server. A thread reads a buffer, lets the session
answer it, writes the answers, and then routes the application messages of
the buffer one after another, writing the reports of each before the next.
Only the routing is under the lock, so threads interleave between any two
of these. What the network does is an input of each act: the bytes
received, the time, and how many messages are written before a write
fails.
-/

namespace OrderbookFix

namespace Net

open OrderbookFix.Core OrderbookFix.Fix

structure ServerConfig where
  senderCompId : Bytes := ascii "OBFIX"
  heartbeatSecs : Int := 30
  algo : MatchAlgo := .proRata

/-- `sizeof(buf)`. -/
def bufSize : ℕ := 8192

/-! ## Writing -/

/-- Write messages in turn until one fails; `room` is how many go out
before that, if any fails. -/
def writeOut : Option ℕ → List WireOut → List WireOut × Bool
  | _, [] => ([], false)
  | room, w :: rest =>
    if room = some 0 then ([], true)
    else
      let (ws, failed) := writeOut (room.map Nat.pred) rest
      (w :: ws, failed)

/-- Send reports in turn until a write fails. The one that fails was
built. -/
def sendReports : Option ℕ → Session → List Body → Session × List WireOut × Bool
  | _, s, [] => (s, [], false)
  | room, s, body :: rest =>
    let (s, w) := s.sendExecutionReport body
    if room = some 0 then (s, [], true)
    else
      let (s, ws, failed) := sendReports (room.map Nat.pred) s rest
      (s, w :: ws, failed)

/-- **One application message**: routed to the book, its events reported
on its own connection. -/
def respond (room : Option ℕ) (srv : Server) (s : Session) (m : Message) :
    Except Fault (Server × Session × List WireOut × Bool) :=
  match srv.route m with
  | .error e => .error e
  | .ok (srv, evs) => .ok (srv, sendReports room s (evs.filterMap report))

/-! ## One thread -/

/-- **A thread**: its session, the application messages of the buffer at
hand that are still to be routed, whether the loop ends after them and
whether it has ended, and what was written so far. -/
structure Link where
  session : Session
  pending : List AppMessage := []
  disconnect : Bool := false
  closed : Bool := false
  written : List WireOut := []

namespace Link

/-- At the head of the loop. -/
def Ready (l : Link) : Prop := l.closed = false ∧ l.pending = []

instance (l : Link) : Decidable l.Ready := inferInstanceAs (Decidable (_ ∧ _))

/-- `if (step.disconnect) break;`, once nothing is left to route. -/
def settle (l : Link) : Link :=
  if l.pending = [] ∧ l.disconnect = true then { l with closed := true } else l

/-- Nothing came in: the timers only. -/
def idle (l : Link) (now : Int) (room : Option ℕ) : Link :=
  let (s, tstep) := l.session.tick now
  let (ws, failed) := writeOut room tstep.out
  { l with
    session := s
    disconnect := tstep.disconnect || failed
    written := l.written ++ ws }.settle

/-- A buffer came in: the session's answers, with those of its timers. -/
def recv (l : Link) (data : Bytes) (now : Int) (room : Option ℕ) : Except Fix.Fault Link :=
  match l.session.onBytes data with
  | .error e => .error e
  | .ok (s, step) =>
    let (s, tstep) := s.tick now
    let (ws, failed) := writeOut room (step.out ++ tstep.out)
    .ok { l with
      session := s
      pending := step.app
      disconnect := step.disconnect || tstep.disconnect || failed
      written := l.written ++ ws }.settle

/-- The next application message of the buffer. -/
def serve (l : Link) (srv : Server) (m : AppMessage) (rest : List AppMessage)
    (room : Option ℕ) : Except Fault (Server × Link) :=
  match respond room srv l.session m with
  | .error e => .error e
  | .ok (srv, s, ws, failed) =>
    .ok (srv, { l with
      session := s
      pending := rest
      disconnect := l.disconnect || failed
      written := l.written ++ ws }.settle)

end Link

/-! ## All threads -/

/-- **The server with its threads.** -/
structure TcpServer where
  cfg : ServerConfig
  server : Server
  links : Conn → Option Link

/-- What can happen next. An act that is not possible in a state changes
nothing. -/
inductive Act where
  | accept (c : Conn) (order : FieldOrder) (now : ℕ → Bytes) (clock : ℕ → Int)
  | idle (c : Conn) (now : Int) (room : Option ℕ)
  | recv (c : Conn) (data : Bytes) (now : Int) (room : Option ℕ)
  | serve (c : Conn) (room : Option ℕ)
  | leave (c : Conn)

namespace TcpServer

/-- A server nobody is connected to. -/
def new (cfg : ServerConfig) : TcpServer := ⟨cfg, Server.new cfg.algo, fun _ => none⟩

def set (t : TcpServer) (c : Conn) (l : Link) : TcpServer :=
  { t with links := Function.update t.links c (some l) }

/-- The session of a new connection. Its target is adopted from the
peer's Logon. -/
def session (t : TcpServer) (order : FieldOrder) (now : ℕ → Bytes) (clock : ℕ → Int) : Session :=
  let cfg : SessionConfig := {
    senderCompId := t.cfg.senderCompId
    targetCompId := []
    heartbeatSecs := t.cfg.heartbeatSecs }
  makeSession cfg .wire order now clock

/-- **One act**, with the message it routes, if any. An exception of a
thread is not caught and ends the server. -/
def act (t : TcpServer) : Act → Except Fault (TcpServer × List (Conn × Message))
  | .accept c order now clock =>
    match t.links c with
    | some _ => .ok (t, [])
    | none => .ok (t.set c { session := t.session order now clock }, [])
  | .idle c now room =>
    match t.links c with
    | none => .ok (t, [])
    | some l => if l.Ready then .ok (t.set c (l.idle now room), []) else .ok (t, [])
  | .recv c data now room =>
    match t.links c with
    | none => .ok (t, [])
    | some l =>
      if l.Ready ∧ 0 < data.length ∧ data.length ≤ bufSize then
        match l.recv data now room with
        | .error e => .error (.field e)
        | .ok l => .ok (t.set c l, [])
      else .ok (t, [])
  | .serve c room =>
    match t.links c with
    | none => .ok (t, [])
    | some l =>
      match l.pending with
      | [] => .ok (t, [])
      | m :: rest =>
        match l.serve t.server m rest room with
        | .error e => .error e
        | .ok (srv, l) => .ok ({ t with server := srv }.set c l, [(c, m)])
  | .leave c =>
    match t.links c with
    | none => .ok (t, [])
    | some l => if l.Ready then .ok (t.set c { l with closed := true }, []) else .ok (t, [])

end TcpServer

end Net

end OrderbookFix
