import OrderbookFix.Net.Model.Loop
/-!
# The process

`net/tcp_server.{h,cpp}` with its threads: the owner in `start` and `stop`,
the acceptor in `accept_loop`, and one thread in `session_loop` for each
connection. A thread goes on by one call of the system, one access of an
atomic (a load, an exchange or a `fetch_add`) or one turn under a lock at a
time, and the threads interleave between any two of these. What only one
thread can see, its own session and its own loops, goes with the step
before it. A call of the system that does not answer is a step that is not
taken.
-/

namespace OrderbookFix

namespace Net

open OrderbookFix.Core OrderbookFix.Fix

/-! ## The thread of a connection -/

/-- What `poll` answers, and then `recv`. -/
inductive Wake where
  /-- `EINTR` -/
  | interrupted
  /-- another error, or the end of the stream -/
  | failed
  | timeout (now : Int)
  | readable (data : Bytes) (now : Int)

/-- What is received fits the buffer. -/
def Wake.Possible : Wake → Prop
  | .readable data _ => 0 < data.length ∧ data.length ≤ bufSize
  | _ => True

instance : (r : Wake) → Decidable r.Possible
  | .readable _ _ => inferInstanceAs (Decidable (_ ∧ _))
  | .interrupted | .failed | .timeout _ => isTrue trivial

/-- **Where a thread is in its loop.** In the middle of a `write_all` it
has the message and what is left of it to send. -/
inductive Phase where
  /-- before `running_.load()` -/
  | top
  /-- in `poll` or `recv` -/
  | polling
  /-- writing a message of the session, with more of them behind it and the
  application messages behind these -/
  | answering (w : WireOut) (left : Bytes) (rest : List WireOut) (apps : List AppMessage)
  /-- past its `write_all`, before `msgs_out_.fetch_add(1)` -/
  | answered (rest : List WireOut) (apps : List AppMessage)
  /-- before `msgs_in_.fetch_add(1)` -/
  | entering (m : AppMessage) (apps : List AppMessage)
  /-- before the lock on the book -/
  | routing (m : AppMessage) (apps : List AppMessage)
  /-- writing a report, with more of them behind it -/
  | reporting (w : WireOut) (left : Bytes) (rest : List Body) (apps : List AppMessage)
  /-- past its `write_all`, before `msgs_out_.fetch_add(1)` -/
  | reported (rest : List Body) (apps : List AppMessage)
  /-- past `close(fd)` -/
  | closed

/-- **A thread**: its session, where it is, `step.disconnect`, the bytes
the system took from it, and the messages it took whole. -/
structure Thread where
  session : Session
  phase : Phase := .top
  disconnect : Bool := false
  wire : Bytes := []
  written : List WireOut := []

namespace Thread

/-- On to the next application message, or to the end of the round:
`if (step.disconnect) break;`. -/
def proceed (th : Thread) : List AppMessage → Thread
  | m :: apps => { th with phase := .entering m apps }
  | [] => { th with phase := if th.disconnect then .closed else .top }

/-- On to the next message of the session. -/
def answer (th : Thread) (apps : List AppMessage) : List WireOut → Thread
  | w :: rest => { th with phase := .answering w w rest apps }
  | [] => th.proceed apps

/-- On to the next report. -/
def report (th : Thread) (apps : List AppMessage) : List Body → Thread
  | body :: rest =>
    let (s, w) := th.session.sendExecutionReport body
    { th with session := s, phase := .reporting w w rest apps }
  | [] => th.proceed apps

/-- `while (running_.load())`. -/
def check (th : Thread) (running : Bool) : Thread :=
  match th.phase with
  | .top => { th with phase := if running then .polling else .closed }
  | _ => th

/-- `poll` returns. -/
def wake (th : Thread) : Wake → Except Fix.Fault Thread
  | .interrupted => .ok { th with phase := .top }
  | .failed => .ok { th with phase := .closed }
  | .timeout now =>
    let ticked := th.session.tick now
    .ok ({ th with
      session := ticked.1
      disconnect := ticked.2.disconnect }.answer [] ticked.2.out)
  | .readable data now =>
    match th.session.onBytes data with
    | .error e => .error e
    | .ok (s, step) =>
      let ticked := s.tick now
      .ok ({ th with
        session := ticked.1
        disconnect := step.disconnect || ticked.2.disconnect }.answer step.app
          (step.out ++ ticked.2.out))

/-- `write_all` returns true. -/
def wrote (th : Thread) : Thread × List WireOut :=
  match th.phase with
  | .answering w _ rest apps =>
    ({ th with phase := .answered rest apps, written := th.written ++ [w] }, [w])
  | .reporting w _ rest apps =>
    ({ th with phase := .reported rest apps, written := th.written ++ [w] }, [w])
  | _ => (th, [])

/-- `write_all` returns false, which ends the loop it is called from. -/
def lost (th : Thread) : Thread :=
  match th.phase with
  | .answering _ _ _ apps | .reporting _ _ _ apps => { th with disconnect := true }.proceed apps
  | _ => th

/-- What `write_all` has still to send. -/
def left (th : Thread) : Bytes :=
  match th.phase with
  | .answering _ left _ _ | .reporting _ left _ _ => left
  | _ => []

/-- The same with less of it. -/
def leaving (th : Thread) (left : Bytes) : Thread :=
  match th.phase with
  | .answering w _ rest apps => { th with phase := .answering w left rest apps }
  | .reporting w _ rest apps => { th with phase := .reporting w left rest apps }
  | _ => th

/-- **One round of `write_all`**, `n` being what `send` answers, and the
message that is now out, if it is. -/
def send (th : Thread) (n : Int) : Thread × List WireOut :=
  if th.left = [] then th.wrote
  else if n ≤ 0 then (th.lost, [])
  else
    let th' := { th with wire := th.wire ++ th.left.take n.toNat }
    if th.left.length ≤ n.toNat then th'.wrote else (th'.leaving (th.left.drop n.toNat), [])

end Thread

/-! ## The acceptor and the owner -/

/-- **Where the acceptor is.** -/
inductive Acceptor where
  /-- there is no such thread, or it was joined -/
  | none
  /-- before `running_.load()` -/
  | looping
  /-- before `listen_fd_.load()` -/
  | loading
  /-- in `accept` -/
  | accepting
  /-- before the lock on the threads -/
  | spawning (c : Conn) (order : FieldOrder) (now : ℕ → Bytes) (clock : ℕ → Int)
  | ended

/-- **Where the owner is in `stop`.** -/
inductive Owner where
  /-- not in it -/
  | idle
  /-- before `listen_fd_.exchange(-1)` -/
  | closing
  /-- in `acceptor_.join()` -/
  | waiting
  /-- under the lock on the threads, with those still to be joined -/
  | joining (rest : List Conn)
  deriving DecidableEq

/-- What `accept` answers: a connection, or an error. -/
abbrev Accepted := Option (Conn × FieldOrder × (ℕ → Bytes) × (ℕ → Int))

/-! ## The process -/

/-- **The process.** `sessions` is `session_threads_`. -/
structure Process where
  cfg : ServerConfig
  server : Server
  threads : Conn → Option Thread
  sessions : List Conn := []
  running : Bool := false
  listening : Bool := false
  acceptor : Acceptor := .none
  owner : Owner := .idle
  msgsIn : UInt64 := 0
  msgsOut : UInt64 := 0

/-- How the process can end: by an exception that no thread catches, by the
signal of a `send` to a peer that is gone, which nothing handles or keeps
off, or because a thread object is assigned over a thread. -/
inductive Crash where
  | uncaught (e : Fault)
  | sigpipe
  | reassigned

/-- **What happens next**, and in which thread. What is not possible in a
state changes nothing. -/
inductive Atom where
  /-- `start()`, with whether the socket could be bound and listened on -/
  | start (ok : Bool)
  /-- the next of `stop()` -/
  | stop
  /-- the next of `accept_loop()`, with what `accept` answers where it is
  called -/
  | accept (r : Accepted)
  | check (c : Conn)
  | wake (c : Conn) (r : Wake)
  /-- `send` answers -/
  | send (c : Conn) (n : Int)
  /-- `send` raises `SIGPIPE` -/
  | sigpipe (c : Conn)
  /-- the `fetch_add` a thread is before -/
  | count (c : Conn)
  | route (c : Conn)

/-- What can be told from outside: a message went to the book, or one went
out whole. -/
inductive Trace where
  | routed (c : Conn) (m : Message)
  | wrote (c : Conn) (w : WireOut)

/-- The message that went to the book. -/
def Trace.toBook : Trace → Option (Conn × Message)
  | .routed c m => some (c, m)
  | .wrote _ _ => none

/-- The message that went out on a connection. -/
def Trace.toPeer (c : Conn) : Trace → Option WireOut
  | .routed _ _ => none
  | .wrote c' w => if c' = c then some w else none

namespace Process

/-- A process that was not started. -/
def new (cfg : ServerConfig) : Process where
  cfg := cfg
  server := Server.new cfg.algo
  threads _ := none

def set (p : Process) (c : Conn) (th : Thread) : Process :=
  { p with threads := Function.update p.threads c (some th) }

/-- Whether the owner holds the lock on the threads. -/
def locked (p : Process) : Bool :=
  match p.owner with
  | .joining _ => true
  | _ => false

/-- Whether a thread can be joined. -/
def done (p : Process) (c : Conn) : Bool :=
  match (p.threads c).map Thread.phase with
  | some .closed => true
  | _ => false

/-- **`start`**, by an owner that is not in `stop`. -/
def start (p : Process) (ok : Bool) : Except Crash Process :=
  match p.owner, ok with
  | .idle, true =>
    match p.acceptor with
    | .none => .ok { p with listening := true, running := true, acceptor := .looping }
    | _ => .error .reassigned
  | _, _ => .ok p

/-- **The next of `stop`.** A join waits for its thread to end. -/
def stop (p : Process) : Process :=
  match p.owner with
  | .idle => if p.running then { p with running := false, owner := .closing } else p
  | .closing => { p with listening := false, owner := .waiting }
  | .waiting =>
    match p.acceptor with
    | .none | .ended => { p with acceptor := .none, owner := .joining p.sessions }
    | _ => p
  | .joining (c :: rest) => if p.done c then { p with owner := .joining rest } else p
  | .joining [] => { p with sessions := [], owner := .idle }

/-- A new thread, on a connection that has none. -/
def spawn (p : Process) (c : Conn) (order : FieldOrder) (now : ℕ → Bytes) (clock : ℕ → Int) :
    Process :=
  match p.threads c with
  | some _ => p
  | none =>
    { p.set c { session := (TcpServer.new p.cfg).session order now clock } with
      sessions := p.sessions ++ [c] }

/-- **The next of `accept_loop`.** -/
def accept (p : Process) (r : Accepted) : Process :=
  match p.acceptor with
  | .none | .ended => p
  | .looping => { p with acceptor := if p.running then .loading else .ended }
  | .loading => { p with acceptor := if p.listening then .accepting else .ended }
  | .accepting =>
    match r with
    | none => { p with acceptor := if p.running then .looping else .ended }
    | some (c, order, now, clock) => { p with acceptor := .spawning c order now clock }
  | .spawning c order now clock =>
    if p.locked then p else { p.spawn c order now clock with acceptor := .looping }

/-- What a thread was waiting for. -/
def wake (p : Process) (c : Conn) (th : Thread) (r : Wake) :
    Except Crash (Process × List Trace) :=
  match th.phase with
  | .polling =>
    if r.Possible then
      match th.wake r with
      | .error e => .error (.uncaught (.field e))
      | .ok th => .ok (p.set c th, [])
    else .ok (p, [])
  | _ => .ok (p, [])

/-- The book's turn for the message at hand. -/
def route (p : Process) (c : Conn) (th : Thread) :
    Except Crash (Process × List Trace) :=
  match th.phase with
  | .routing m apps =>
    match p.server.route m with
    | .error e => .error (.uncaught e)
    | .ok (srv, evs) =>
      .ok ({ p with server := srv }.set c (th.report apps (evs.filterMap Net.report)),
        [.routed c m])
  | _ => .ok (p, [])

/-- `fetch_add(1)`, and on to the lock or to the next message. -/
def count (p : Process) (c : Conn) (th : Thread) : Process :=
  match th.phase with
  | .entering m apps =>
    { p with msgsIn := p.msgsIn + 1 }.set c { th with phase := .routing m apps }
  | .answered rest apps => { p with msgsOut := p.msgsOut + 1 }.set c (th.answer apps rest)
  | .reported rest apps => { p with msgsOut := p.msgsOut + 1 }.set c (th.report apps rest)
  | _ => p

/-- **One atom**, with what can be told of it. -/
def step (p : Process) : Atom → Except Crash (Process × List Trace)
  | .start ok => (p.start ok).map fun p => (p, [])
  | .stop => .ok (p.stop, [])
  | .accept r => .ok (p.accept r, [])
  | .check c =>
    match p.threads c with
    | none => .ok (p, [])
    | some th => .ok (p.set c (th.check p.running), [])
  | .wake c r =>
    match p.threads c with
    | none => .ok (p, [])
    | some th => p.wake c th r
  | .send c n =>
    match p.threads c with
    | none => .ok (p, [])
    | some th =>
      let (th, ws) := th.send n
      .ok (p.set c th, ws.map (.wrote c))
  | .sigpipe c =>
    match p.threads c with
    | none => .ok (p, [])
    | some th => if th.left = [] then .ok (p, []) else .error .sigpipe
  | .count c =>
    match p.threads c with
    | none => .ok (p, [])
    | some th => .ok (p.count c th, [])
  | .route c =>
    match p.threads c with
    | none => .ok (p, [])
    | some th => p.route c th

end Process

end Net

end OrderbookFix
