import OrderbookFix.Core.Model.OrderBook
/-!
# Price levels as nodes and links

`core/price_level.h` and the links of `core/order.h`, pointer by pointer.
The queue of `OrderBook`'s levels is a list of addresses; here it is what
the source has, a head and a tail and two links in every node, changed one
assignment at a time.
-/

namespace OrderbookFix

namespace Core

namespace Linked

/-- An order with the links of the list it is in. -/
structure Node where
  order : Order
  prev : Option Ptr := none
  next : Option Ptr := none
  deriving DecidableEq

/-- `class PriceLevel`. -/
structure PriceLevel where
  head : Option Ptr := none
  tail : Option Ptr := none
  count : ℕ := 0
  totalQty : Quantity := 0
  deriving DecidableEq

/-- `*p`. -/
def deref (h : Heap Node) (p : Ptr) : Except Fault Node :=
  match h.cells p with
  | some n => .ok n
  | none => .error .danglingRead

/-- The two links. -/
inductive Link where
  | prev
  | next
  deriving DecidableEq

/-- A link of a node. -/
def Node.get (n : Node) : Link → Option Ptr
  | .prev => n.prev
  | .next => n.next

/-- A node with one link changed. -/
def Node.set (n : Node) (k : Link) (v : Option Ptr) : Node :=
  match k with
  | .prev => { n with prev := v }
  | .next => { n with next := v }

/-- The nodes with one link changed. -/
def relink (h : Heap Node) (k : Link) (p : Ptr) (v : Option Ptr) : Heap Node :=
  h.modify p fun n => n.set k v

/-- An assignment to a link. -/
def assign (k : Link) (h : Heap Node) (p : Ptr) (v : Option Ptr) : Except Fault (Heap Node) := do
  let _ ← deref h p
  return relink h k p v

/-- `p->prev = v`. -/
def setPrev : Heap Node → Ptr → Option Ptr → Except Fault (Heap Node) := assign .prev

/-- `p->next = v`. -/
def setNext : Heap Node → Ptr → Option Ptr → Except Fault (Heap Node) := assign .next

/-- `if (p) p->k = v; else stop = v;`, where `stop` is an end of the list. -/
def assignOr (k : Link) (h : Heap Node) (p v stop : Option Ptr) :
    Except Fault (Heap Node × Option Ptr) :=
  match p with
  | some p => do
    let h ← assign k h p v
    return (h, stop)
  | none => return (h, v)

namespace PriceLevel

def pushBack (h : Heap Node) (l : PriceLevel) (o : Ptr) :
    Except Fault (Heap Node × PriceLevel) := do
  let h ← setPrev h o l.tail
  let h ← setNext h o none
  let (h, head) ← assignOr .next h l.tail (some o) l.head
  let n ← deref h o
  return (h, ⟨head, some o, l.count + 1, l.totalQty + n.order.leavesQty⟩)

def unlink (h : Heap Node) (l : PriceLevel) (o : Ptr) :
    Except Fault (Heap Node × PriceLevel) := do
  let n ← deref h o
  let (h, head) ← assignOr .next h n.prev n.next l.head
  let n ← deref h o
  let (h, tail) ← assignOr .prev h n.next n.prev l.tail
  let h ← setNext h o none
  let h ← setPrev h o none
  let n ← deref h o
  return (h, ⟨head, tail, l.count - 1, l.totalQty - n.order.leavesQty⟩)

/-- `head_ == nullptr`. -/
def empty (l : PriceLevel) : Bool := l.head.isNone

end PriceLevel

/-- What is done to a level. -/
inductive Op where
  | pushBack (o : Ptr)
  | unlink (o : Ptr)
  deriving DecidableEq

/-- **One operation** on the nodes and the level. -/
def step (m : Heap Node × PriceLevel) : Op → Except Fault ((Heap Node × PriceLevel) × List Empty)
  | .pushBack o => (m.2.pushBack m.1 o).map fun m => (m, [])
  | .unlink o => (m.2.unlink m.1 o).map fun m => (m, [])

end Linked

end Core

end OrderbookFix
