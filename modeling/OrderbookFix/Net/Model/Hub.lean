import OrderbookFix.Net.Model.Server
/-!
# The server and its clients

Messages of any number of connections, handled one at a time under the
lock on the book, so that a run is an interleaving of them. Beside the
server stands what no member of it keeps: who submitted what.
-/

namespace OrderbookFix

namespace Net

open OrderbookFix.Core OrderbookFix.Fix

/-- A connection. -/
abbrev Conn := ℕ

/-- A NewOrderSingle that was taken, with the id its order was given. -/
structure Submission where
  conn : Conn
  clordId : ClOrdID
  id : OrderId

/-- **The server and what its clients submitted**, latest first. -/
structure Hub where
  server : Server
  log : List Submission

/-- **A message handled**: who sent it, what came of it, and the server
before and after. -/
structure Handling where
  before : Hub
  conn : Conn
  msg : Message
  events : EventList
  after : Hub

namespace Hub

/-- A server nobody has used. -/
def new (algo : MatchAlgo) : Hub := ⟨Server.new algo, []⟩

abbrev book (h : Hub) : OrderBook := h.server.engine.book

/-- The connection an order came from. -/
def submitter (h : Hub) (id : OrderId) : Option Conn :=
  (h.log.find? fun x => x.id = id).map Submission.conn

/-- The connection that used a ClOrdID last. -/
def lastUser (h : Hub) (clord : ClOrdID) : Option Conn :=
  (h.log.find? fun x => x.clordId = clord).map Submission.conn

/-- The log with a message taken. -/
def logged (h : Hub) (c : Conn) (m : Message) : List Submission :=
  if m.msgType = MsgType.newOrderSingle then
    ⟨c, ⟨Server.field m Tag.clOrdID []⟩, h.server.nextOrderId⟩ :: h.log
  else h.log

/-- **One message of one client.** -/
def serve (h : Hub) (r : Conn × Message) : Except Fault (Hub × List Handling) :=
  match h.server.route r.2 with
  | .error e => .error e
  | .ok (srv, evs) =>
    let h' : Hub := ⟨srv, h.logged r.1 r.2⟩
    .ok (h', [⟨h, r.1, r.2, evs, h'⟩])

/-- An order does not come in under the ClOrdID of a live one. -/
def Fresh (h : Hub) (r : Conn × Message) : Prop :=
  r.2.msgType = MsgType.newOrderSingle →
    h.book.find 0 ⟨Server.field r.2 Tag.clOrdID []⟩ = none

instance (h : Hub) (r : Conn × Message) : Decidable (h.Fresh r) :=
  inferInstanceAs (Decidable (_ → _))

end Hub

end Net

end OrderbookFix
