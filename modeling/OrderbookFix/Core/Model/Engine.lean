import OrderbookFix.Common.Run
import OrderbookFix.Core.Model.Depth
/-!
# The book and its matcher under calls

One book and one matcher, as the server and the tests drive them: orders
come in with nothing of them filled, orders are cancelled by key, and the
algorithm may be switched between any two calls.
-/

namespace OrderbookFix

namespace Core

/-- An order as it is handed in: all of its quantity is open. -/
structure NewOrder where
  id : OrderId
  session : SessionId
  clordId : ClOrdID
  side : Side
  price : Price
  qty : Quantity
  deriving DecidableEq

/-- The node built for a new order. -/
def NewOrder.order (n : NewOrder) : Order where
  id := n.id
  session := n.session
  clordId := n.clordId
  side := n.side
  price := n.price
  origQty := n.qty
  leavesQty := n.qty

/-- The calls on a book and its matcher. -/
inductive Call where
  | submit (n : NewOrder)
  | cancel (s : SessionId) (clord : ClOrdID)
  | setAlgo (a : MatchAlgo)

/-- A book and the matcher that works on it. -/
structure Engine where
  book : OrderBook
  algo : MatchAlgo

namespace Engine

/-- An empty book and a matcher. -/
def new (algo : MatchAlgo) : Engine := ⟨OrderBook.new, algo⟩

/-- **One call.** -/
def step (e : Engine) : Call → Except Fault (Engine × EventList)
  | .submit n =>
    match Core.submit e.algo e.book n.order with
    | .error f => .error f
    | .ok (b, evs) => .ok ({ e with book := b }, evs)
  | .cancel s clord =>
    match e.book.cancel s clord with
    | .error f => .error f
    | .ok (_, b) => .ok ({ e with book := b }, [])
  | .setAlgo a => .ok ({ e with algo := a }, [])

/-- A submitted order does not carry the key of a live one. -/
def Fresh (e : Engine) : Call → Prop
  | .submit n => e.book.find n.session n.clordId = none
  | _ => True

end Engine

/-- The order a call submits. -/
def Call.submitted : Call → Option NewOrder
  | .submit n => some n
  | _ => none

/-- The orders a list of calls submits. -/
def submitted (calls : List Call) : List NewOrder := calls.filterMap Call.submitted

/-- The quantity a list of calls submits, unbounded. -/
def submittedQty (calls : List Call) : ℕ := ((submitted calls).map fun n => n.qty.toNat).sum

/-! ## The journal of a run -/

/-- A line of the journal: an event put out, or an order as it was when a
cancel took it off the book. -/
inductive Record where
  | event (ev : Event)
  | cancelled (o : Order)
  deriving DecidableEq

namespace Engine

/-- The order a call is about to cancel. -/
def cancelling (e : Engine) : Call → Option Order
  | .cancel s clord => (e.book.find s clord).bind e.book.heap.cells
  | _ => none

/-- A call with its journal lines. -/
def record (e : Engine) (c : Call) : Except Fault (Engine × List Record) :=
  match e.step c with
  | .error f => .error f
  | .ok (e', evs) => .ok (e', (e.cancelling c).toList.map .cancelled ++ evs.map .event)

end Engine

/-- The trades of a journal. -/
def tradesIn (rs : List Record) : List Trade :=
  rs.filterMap fun
    | .event (.trade t) => some t
    | _ => none

/-- The orders cancelled, as they were. -/
def cancelledIn (rs : List Record) : List Order :=
  rs.filterMap fun
    | .cancelled o => some o
    | _ => none

/-- The quantity traded with an order as the aggressor. -/
def aggressorQty (ts : List Trade) (id : OrderId) : ℕ :=
  ((ts.filter fun t => t.aggressorId = id).map fun t => t.qty.toNat).sum

/-- The quantity traded with an order as the resting one. -/
def restingQty (ts : List Trade) (id : OrderId) : ℕ :=
  ((ts.filter fun t => t.restingId = id).map fun t => t.qty.toNat).sum

/-! ## Reading a book -/

namespace OrderBook

/-- The orders linked on one ladder, best price first. -/
def ordersOn (b : OrderBook) (s : BookSide) : List Order :=
  (b.linkedOn s).filterMap b.heap.cells

/-- Their prices. -/
def prices (b : OrderBook) (s : BookSide) : List Price := (b.ordersOn s).map Order.price

/-- The orders linked in the book. -/
def orders (b : OrderBook) : List Order := b.linked.filterMap b.heap.cells

/-- The orders queued at a level. -/
def ordersAt (b : OrderBook) (l : PriceLevel) : List Order := l.queue.filterMap b.heap.cells

/-- What the nodes queued at a price hold, oldest first. A freed node
holds nothing. -/
def queueAt (b : OrderBook) (s : BookSide) (px : Price) : List (Option Order) :=
  match (b.levels s).find? px with
  | none => []
  | some l => l.queue.map b.heap.cells

/-- What is open of an order: its leaves if it is live, else those it had
when it was cancelled, else nothing. -/
def openQty (b : OrderBook) (rs : List Record) (id : OrderId) : ℕ :=
  match b.orders.find? fun o => o.id = id with
  | some o => o.leavesQty.toNat
  | none =>
    match (cancelledIn rs).find? fun o => o.id = id with
    | some o => o.leavesQty.toNat
    | none => 0

/-- **A well-formed book.** -/
structure WellFormed (b : OrderBook) : Prop where
  /-- every bid is below every ask -/
  uncrossed : ∀ x ∈ b.prices .bid, ∀ y ∈ b.prices .ask, x < y
  /-- a linked order is open, and sits on its own side at its own price -/
  placed : ∀ s, ∀ e ∈ (b.levels s).entries, ∀ p ∈ e.2.queue, ∃ o, b.heap.cells p = some o ∧
    0 < o.leavesQty ∧ o.leavesQty ≤ o.origQty ∧ o.side.book = s ∧ o.price = e.1
  /-- the cached figures of a level are exact -/
  cached : ∀ s, ∀ e ∈ (b.levels s).entries, e.2.count = e.2.queue.length ∧
    e.2.totalQty.toNat = ((b.ordersAt e.2).map fun o => o.leavesQty.toNat).sum
  bestBid : b.bestBid = (b.prices .bid).max?
  bestAsk : b.bestAsk = (b.prices .ask).min?

/-- **The levels and the index hold the same orders**: what is linked is
linked once and is the order the index has under its own key, and what
the index has is linked. -/
structure Owned (b : OrderBook) : Prop where
  nodup : b.linked.Nodup
  indexed : ∀ p ∈ b.linked, ∃ o, b.heap.cells p = some o ∧ b.find o.session o.clordId = some p
  linked : ∀ k p, b.index.lookup k = some p →
    p ∈ b.linked ∧ ∃ o, b.heap.cells p = some o ∧ o.key = k

end OrderBook

end Core

end OrderbookFix
