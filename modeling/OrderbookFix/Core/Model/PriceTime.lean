import OrderbookFix.Common.StableSort
import OrderbookFix.Core.Model.Engine
/-!
# Price-time priority

What a first-come match is for, on lists of orders: the live orders of a
side are listed best price first and, within a price, in the order they
were rested; those the aggressor crosses are used up one after another.

When an order was rested is in no field of the book, so it is kept beside
the engine. After each call the keys no longer live are struck out and
the one that came to rest goes to the end.
-/

namespace OrderbookFix

namespace Core

/-- The keys of the live orders. -/
def Engine.liveKeys (e : Engine) : List IndexKey := e.book.orders.map Order.key

/-- **The engine with the keys of its live orders** in the order they
were rested. -/
structure Timed where
  engine : Engine
  rested : List IndexKey

namespace Timed

def new (algo : MatchAlgo) : Timed := ⟨Engine.new algo, []⟩

/-- A call, and who is resting after it. -/
def step (t : Timed) (c : Call) : Except Fault (Timed × EventList) :=
  match t.engine.step c with
  | .error f => .error f
  | .ok (e, evs) =>
    .ok (⟨e, t.rested.filter (· ∈ e.liveKeys) ++ e.liveKeys.filter (· ∉ t.rested)⟩, evs)

/-- The live orders in the order they were rested. -/
def arrivals (t : Timed) : List Order :=
  t.rested.filterMap fun k => (t.engine.book.index.lookup k).bind t.engine.book.heap.cells

end Timed

/-- **One side listed by price and time**: best price first and, within a
price, in the order of `os`. -/
def priceTime (s : BookSide) (os : List Order) : List Order :=
  stableSort s.before Order.price (os.filter fun o => o.side.book = s)

/-- What using up a list of orders comes to. -/
structure Consumed where
  trades : List Trade
  /-- the orders, less the exhausted ones -/
  orders : List Order
  /-- the quantity not used -/
  left : Quantity
  deriving DecidableEq

/-- **Use up a list of orders in one pass**, each by as much as it has
and as is left, at its own price. -/
def consume (aggr : Order) : Quantity → List Order → Consumed
  | left, [] => ⟨[], [], left⟩
  | left, o :: os =>
    let q := min left o.leavesQty
    let rest := consume aggr (left - q) os
    { trades := if q = 0 then rest.trades else trade aggr o o.price q :: rest.trades
      orders := if o.leavesQty - q = 0 then rest.orders else o.fill q :: rest.orders
      left := rest.left }

end Core

end OrderbookFix
