import OrderbookFix.Core.Model.Types
import OrderbookFix.Fix.Model.Session
/-!
# ExecutionReports

`net/tcp_server.cpp`: the bodies the server sends for the matcher's
events. MsgType is the session's to add.
-/

namespace OrderbookFix

namespace Net

open OrderbookFix.Core OrderbookFix.Fix

def execReportForAck (a : Ack) (id : OrderId) : Body :=
  [(Tag.orderID, dec id), (Tag.clOrdID, a.clordId.value), (Tag.execID, dec id ++ ascii "-A"),
    (Tag.execType, ascii "0"), (Tag.ordStatus, ascii "0"), (Tag.leavesQty, ascii "0"),
    (Tag.cumQty, ascii "0"), (Tag.avgPx, ascii "0")]

def execReportForTrade (t : Trade) (restingId aggressorId : OrderId) (forAggressor : Bool) :
    Body :=
  let oid := if forAggressor then aggressorId else restingId
  let cl := if forAggressor then t.aggressorClord else t.restingClord
  [(Tag.orderID, dec oid), (Tag.clOrdID, cl.value),
    (Tag.execID, dec oid ++ ascii "-T" ++ dec t.qty), (Tag.execType, ascii "F"),
    (Tag.ordStatus, ascii "1"), (Tag.lastQty, dec t.qty), (Tag.lastPx, decimalInt t.price)]

/-- **The report of an event.** A ReplaceAck has none. -/
def report : Event → Option Body
  | .ack a => some (execReportForAck a a.id)
  | .trade t => some (execReportForTrade t t.restingId t.aggressorId true)
  | .ordReject r =>
    some [(Tag.clOrdID, r.clordId.value), (Tag.execType, ascii "8"), (Tag.ordStatus, ascii "8"),
      (Tag.text, r.reason)]
  | .cancelAck c =>
    some [(Tag.clOrdID, c.clordId.value), (Tag.origClOrdID, c.origClordId.value),
      (Tag.execType, ascii "4"), (Tag.ordStatus, ascii "4")]
  | .replaceAck _ => none

/-- The texts of an event that its report carries. -/
def reported : Event → List Bytes
  | .ack a => [a.clordId.value]
  | .trade t => [t.aggressorClord.value]
  | .ordReject r => [r.clordId.value, r.reason]
  | .cancelAck c => [c.clordId.value, c.origClordId.value]
  | .replaceAck _ => []

end Net

end OrderbookFix
