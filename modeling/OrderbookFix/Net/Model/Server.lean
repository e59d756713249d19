import OrderbookFix.Core.Model.Engine
import OrderbookFix.Net.Model.Reports
/-!
# The server

`net/tcp_server.{h,cpp}`: the book and the matcher that all connections
share, and the routing of one application message to them. A message is
handled whole, under the lock on the book.
-/

namespace OrderbookFix

namespace Net

open OrderbookFix.Core OrderbookFix.Fix

/-- What handling a message can end with besides returning: an exception
of a conversion, or a fault of the book. -/
inductive Fault where
  | field (e : Fix.Fault)
  | book (e : Core.Fault)
  deriving DecidableEq

/-- The members of the server that messages reach. -/
structure Server where
  engine : Engine
  nextOrderId : OrderId := 1

namespace Server

/-- The server as it starts. -/
def new (algo : MatchAlgo) : Server := { engine := Engine.new algo }

/-- `m.get(t).value_or(d)`. -/
def field (m : Message) (t : Int) (d : Bytes) : Bytes := (m.get t).getD d

/-- The order of a NewOrderSingle. The session is the one an `Order` is
constructed with, 0. The first byte of an empty string is its
terminator. -/
def newOrder (srv : Server) (m : Message) : Except Fix.Fault NewOrder :=
  match stoll (field m Tag.price (ascii "0")) with
  | .error e => .error e
  | .ok price =>
    match stoull (field m Tag.orderQty (ascii "0")) with
    | .error e => .error e
    | .ok qty => .ok {
        id := srv.nextOrderId
        session := 0
        clordId := ⟨field m Tag.clOrdID []⟩
        side := Side.ofByte ((field m Tag.side (ascii "1")).headD 0)
        price := price
        qty := qty }

/-- The answer to an OrderCancelRequest. -/
def cancelEvent (m : Message) (res : CancelResult) : Event :=
  if res.ok then .cancelAck ⟨0, ⟨field m Tag.clOrdID []⟩, ⟨field m Tag.origClOrdID []⟩⟩
  else .ordReject ⟨⟨field m Tag.clOrdID []⟩, ascii "cancel: unknown order"⟩

/-- **Route one application message** to the book. -/
def route (srv : Server) (m : Message) : Except Fault (Server × EventList) :=
  if m.msgType = MsgType.newOrderSingle then
    match srv.newOrder m with
    | .error e => .error (.field e)
    | .ok n =>
      match submit srv.engine.algo srv.engine.book n.order with
      | .error e => .error (.book e)
      | .ok (book, evs) =>
        .ok ({ engine := { srv.engine with book := book },
               nextOrderId := srv.nextOrderId + 1 }, evs)
  else if m.msgType = MsgType.orderCancelRequest then
    match srv.engine.book.cancel 0 ⟨field m Tag.origClOrdID []⟩ with
    | .error e => .error (.book e)
    | .ok (res, book) =>
      .ok ({ srv with engine := { srv.engine with book := book } }, [cancelEvent m res])
  else .ok (srv, [])

end Server

end Net

end OrderbookFix
