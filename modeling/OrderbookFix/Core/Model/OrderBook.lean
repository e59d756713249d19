import OrderbookFix.Core.Model.Types
import OrderbookFix.Common.Heap
import OrderbookFix.Common.OrderedMap
import Mathlib.Data.List.AList
import Mathlib.Order.Defs.Unbundled
import Mathlib.Algebra.Order.Ring.Int
/-!
# The order book

`core/price_level.h` and `core/order_book.{h,cpp}`. An order is a node of
a heap; a level's queue holds addresses, oldest first, and the index maps
a key to the address it owns. Reading through an address nothing owns is
a fault, which is how a pointer left behind shows.
-/

namespace OrderbookFix

namespace Core

/-- An address of an order. -/
abbrev Ptr := ℕ

/-- The value of a 64-bit word cast to a signed one. -/
def toI64 (q : Quantity) : Int :=
  if q.toNat < 2 ^ 63 then q.toNat else (q.toNat : Int) - 2 ^ 64

/-- A signed 64-bit sum, out of range undefined. -/
def i64 (x : Int) : Except Fault Int :=
  if -2 ^ 63 ≤ x ∧ x < 2 ^ 63 then .ok x else .error .signedOverflow

/-! ## Price levels -/

/-- **A price level**: the queue of the intrusive list, head first, and
the two cached figures. -/
structure PriceLevel where
  queue : List Ptr
  count : ℕ
  totalQty : Quantity
  deriving DecidableEq

namespace PriceLevel

/-- A default-constructed level. -/
def new : PriceLevel := ⟨[], 0, 0⟩

def pushBack (l : PriceLevel) (p : Ptr) (o : Order) : PriceLevel :=
  { queue := l.queue ++ [p], count := l.count + 1, totalQty := l.totalQty + o.leavesQty }

def unlink (l : PriceLevel) (p : Ptr) (o : Order) : PriceLevel :=
  { queue := l.queue.erase p, count := l.count - 1, totalQty := l.totalQty - o.leavesQty }

/-- Adjust the cached total by a signed delta. -/
def noteQtyDelta (l : PriceLevel) (delta : Int) : Except Fault PriceLevel := do
  let sum ← i64 (toI64 l.totalQty + delta)
  return { l with totalQty := UInt64.ofInt sum }

/-- `head_ == nullptr`. -/
def empty (l : PriceLevel) : Bool := l.queue.isEmpty

end PriceLevel

/-! ## The book -/

instance (s : BookSide) : IsStrictTotalOrder Price s.before :=
  match s with
  | .bid => inferInstanceAs (IsStrictTotalOrder Int (· > ·))
  | .ask => inferInstanceAs (IsStrictTotalOrder Int (· < ·))

/-- `std::map<Price, PriceLevel>` with the comparator of its side. -/
abbrev LevelMap (s : BookSide) := OrderedMap Price PriceLevel s.before

/-- **The order book.** The heap holds the nodes the index owns. -/
structure OrderBook where
  heap : Heap Order
  bids : LevelMap .bid
  asks : LevelMap .ask
  index : AList fun _ : IndexKey => Ptr

structure CancelResult where
  ok : Bool
  reason : Bytes
  deriving DecidableEq

namespace OrderBook

/-- The book nothing was submitted to. -/
def new : OrderBook := ⟨Heap.empty, OrderedMap.empty, OrderedMap.empty, ∅⟩

/-- The levels of one ladder. -/
def levels (b : OrderBook) : (s : BookSide) → LevelMap s
  | .bid => b.bids
  | .ask => b.asks

/-- Replace one ladder. -/
def setLevels (b : OrderBook) : (s : BookSide) → LevelMap s → OrderBook
  | .bid, m => { b with bids := m }
  | .ask, m => { b with asks := m }

/-- Change one level, where the ladder has it. -/
def modifyLevel (b : OrderBook) (s : BookSide) (p : Price) (f : PriceLevel → PriceLevel) :
    OrderBook :=
  b.setLevels s ((b.levels s).modify p f)

/-- `*o`. -/
def deref (b : OrderBook) (p : Ptr) : Except Fault Order :=
  match b.heap.cells p with
  | some o => .ok o
  | none => .error .danglingRead

/-- `index_.emplace(k, order)`, the outcome ignored. Where the key is
taken the new node is destroyed: the index keeps the pointer it had and
the order at `p` is freed. -/
def emplace (b : OrderBook) (k : IndexKey) (p : Ptr) : OrderBook :=
  match b.index.lookup k with
  | none => { b with index := b.index.insert k p }
  | some _ => { b with heap := b.heap.free p }

/-- Insert without matching. The order is linked before it is indexed. -/
def rest (b : OrderBook) (o : Order) : OrderBook :=
  let p := b.heap.next
  let b := { b with heap := b.heap.alloc o }
  let s := o.side.book
  let b := b.setLevels s ((b.levels s).upsert o.price PriceLevel.new (·.pushBack p o))
  b.emplace o.key p

/-- Look up by session and ClOrdID. -/
def find (b : OrderBook) (s : SessionId) (clord : ClOrdID) : Option Ptr :=
  b.index.lookup ⟨s, clord.value⟩

/-- `index_.erase(k)`: the entry goes and the order it owned is freed. -/
def eraseKey (b : OrderBook) (k : IndexKey) : OrderBook :=
  match b.index.lookup k with
  | none => b
  | some p => { b with heap := b.heap.free p, index := b.index.erase k }

/-- Cancel an order by its key. -/
def cancel (b : OrderBook) (s : SessionId) (clord : ClOrdID) :
    Except Fault (CancelResult × OrderBook) :=
  let k : IndexKey := ⟨s, clord.value⟩
  match b.index.lookup k with
  | none => .ok (⟨false, ascii "unknown order"⟩, b)
  | some p => do
    let o ← b.deref p
    let b := b.modifyLevel o.side.book o.price (·.unlink p o)
    return (⟨true, []⟩, b.eraseKey k)

/-- Erase an order entirely, through the key it carries. -/
def remove (b : OrderBook) (p : Ptr) : Except Fault OrderBook := do
  let o ← b.deref p
  let b := b.modifyLevel o.side.book o.price (·.unlink p o)
  return b.eraseKey o.key

/-- The first price with a non-empty level. -/
def best (b : OrderBook) (s : BookSide) : Option Price :=
  ((b.levels s).entries.find? fun e => !e.2.empty).map Prod.fst

def bestBid (b : OrderBook) : Option Price := b.best .bid

def bestAsk (b : OrderBook) : Option Price := b.best .ask

/-- The addresses linked in the levels of one ladder. -/
def linkedOn (b : OrderBook) (s : BookSide) : List Ptr :=
  (b.levels s).entries.flatMap fun e => e.2.queue

/-- Every linked address, bids first. -/
def linked (b : OrderBook) : List Ptr := b.linkedOn .bid ++ b.linkedOn .ask

end OrderBook

end Core

end OrderbookFix
