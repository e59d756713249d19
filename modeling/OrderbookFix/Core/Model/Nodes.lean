import OrderbookFix.Core.Model.Engine
import OrderbookFix.Core.Model.Linked
/-!
# The book and the matcher over nodes and links

`core/order_book.{h,cpp}` and `core/matcher.cpp` once more, this time with
the levels the source has: a head, a tail, and links in the nodes. Where
`OrderBook` runs along a list of addresses, the loops here follow `next`
from the head, as `for (Order* o = level.head(); o; o = o->next)` does,
and the sweep reads `next` before it removes the node it stands on. A
loop along links may never end. A chain that does not come back to itself
has no more nodes than addresses were ever handed out, so a loop that has
gone on for longer is endless.
-/

namespace OrderbookFix

namespace Core

namespace Linked

/-- How a call can end besides returning: in undefined behaviour, or
never. -/
inductive Halt where
  | fault (f : Fault)
  | endless
  deriving DecidableEq

/-- A step without a loop. -/
def once {α : Type*} (r : Except Fault α) : Except Halt α := r.mapError .fault

/-- Adjust the cached total by a signed delta. -/
def PriceLevel.noteQtyDelta (l : PriceLevel) (delta : Int) : Except Fault PriceLevel := do
  let sum ← i64 (toI64 l.totalQty + delta)
  return { l with totalQty := UInt64.ofInt sum }

/-! ## The book -/

/-- `std::map<Price, PriceLevel>` with the comparator of its side. -/
abbrev LevelMap (s : BookSide) := OrderedMap Price PriceLevel s.before

/-- **The order book over nodes.** -/
structure OrderBook where
  heap : Heap Node
  bids : LevelMap .bid
  asks : LevelMap .ask
  index : AList fun _ : IndexKey => Ptr

namespace OrderBook

/-- The book nothing was submitted to. -/
def new : OrderBook := ⟨Heap.empty, OrderedMap.empty, OrderedMap.empty, ∅⟩

/-- The levels of one ladder. -/
def levels (b : OrderBook) : (s : BookSide) → LevelMap s
  | .bid => b.bids
  | .ask => b.asks

/-- Replace one ladder. -/
def setLevels (b : OrderBook) : (s : BookSide) → LevelMap s → OrderBook
  | .bid, m => { b with bids := m }
  | .ask, m => { b with asks := m }

/-- `index_.emplace(k, order)`; where the key is taken the new node is
destroyed. -/
def emplace (b : OrderBook) (k : IndexKey) (p : Ptr) : OrderBook :=
  match b.index.lookup k with
  | none => { b with index := b.index.insert k p }
  | some _ => { b with heap := b.heap.free p }

/-- Insert without matching. `operator[]` makes the level if there is
none. -/
def rest (b : OrderBook) (o : Order) : Except Halt OrderBook := do
  let p := b.heap.next
  let s := o.side.book
  let level := ((b.levels s).find? o.price).getD {}
  let (h, level) ← once (level.pushBack (b.heap.alloc { order := o }) p)
  let b := { b with heap := h }.setLevels s ((b.levels s).upsert o.price {} fun _ => level)
  return b.emplace o.key p

/-- Look up by session and ClOrdID. -/
def find (b : OrderBook) (s : SessionId) (clord : ClOrdID) : Option Ptr :=
  b.index.lookup ⟨s, clord.value⟩

/-- `index_.erase(k)`. -/
def eraseKey (b : OrderBook) (k : IndexKey) : OrderBook :=
  match b.index.lookup k with
  | none => b
  | some p => { b with heap := b.heap.free p, index := b.index.erase k }

/-- Take a node out of the level it names, where the ladder has it. -/
def unlinkAt (b : OrderBook) (p : Ptr) (o : Order) : Except Halt OrderBook :=
  let s := o.side.book
  match (b.levels s).find? o.price with
  | none => .ok b
  | some level => do
    let (h, level) ← once (level.unlink b.heap p)
    return { b with heap := h }.setLevels s ((b.levels s).modify o.price fun _ => level)

/-- Cancel an order by its key. -/
def cancel (b : OrderBook) (s : SessionId) (clord : ClOrdID) :
    Except Halt (CancelResult × OrderBook) :=
  let k : IndexKey := ⟨s, clord.value⟩
  match b.index.lookup k with
  | none => .ok (⟨false, ascii "unknown order"⟩, b)
  | some p => do
    let n ← once (deref b.heap p)
    let b ← b.unlinkAt p n.order
    return (⟨true, []⟩, b.eraseKey k)

/-- Erase an order entirely. -/
def remove (b : OrderBook) (p : Ptr) : Except Halt OrderBook := do
  let n ← once (deref b.heap p)
  let b ← b.unlinkAt p n.order
  return b.eraseKey n.order.key

end OrderBook

/-! ## The matcher -/

/-- What the closures of `submit` and `match_aggressive` share. -/
structure MatchState where
  book : OrderBook
  aggr : Order
  out : EventList

namespace OrderBook

/-- One ladder, best price first, until the callback returns false. -/
def walkFrom (s : BookSide) (fn : Price → MatchState → Except Halt (Bool × MatchState)) :
    List Price → MatchState → Except Halt MatchState
  | [], st => .ok st
  | p :: ps, st =>
    match (st.book.levels s).find? p with
    | none => .error (.fault .danglingRead)
    | some level =>
      if level.empty then
        walkFrom s fn ps { st with book := st.book.setLevels s ((st.book.levels s).erase p) }
      else do
        let (go, st) ← fn p st
        if !go then return st
        match (st.book.levels s).find? p with
        | none => .error (.fault .danglingRead)
        | some level =>
          if level.empty then
            walkFrom s fn ps { st with book := st.book.setLevels s ((st.book.levels s).erase p) }
          else walkFrom s fn ps st

/-- Walk a whole ladder. -/
def walk (s : BookSide) (fn : Price → MatchState → Except Halt (Bool × MatchState))
    (st : MatchState) : Except Halt MatchState :=
  walkFrom s fn ((st.book.levels s).entries.map Prod.fst) st

end OrderBook

/-- `o->leaves_qty -= q`. -/
def take (h : Heap Node) (p : Ptr) (q : Quantity) : Heap Node :=
  h.modify p fun n => { n with order := { n.order with leavesQty := n.order.leavesQty - q } }

/-- A fill of `q`: its trade is emitted and the order written. -/
def MatchState.fill (st : MatchState) (px : Price) (p : Ptr) (o : Order) (q : Quantity) :
    MatchState :=
  { st with
    out := emitTrade st.out st.aggr o px q
    book := { st.book with heap := take st.book.heap p q } }

/-- The snapshot of `fill_level_prorata`, along `next`. -/
def snapshot (h : Heap Node) : ℕ → Option Ptr → Except Halt (List Slot × Quantity)
  | _, none => .ok ([], 0)
  | 0, some _ => .error .endless
  | fuel + 1, some p => do
    let n ← once (deref h p)
    let (slots, total) ← snapshot h fuel n.next
    return (⟨p, n.order.leavesQty, 0⟩ :: slots, n.order.leavesQty + total)

/-- Step 3 of `fill_level_prorata`. -/
def applySlots (px : Price) : List Slot → MatchState → Quantity → Int →
    Except Halt (MatchState × Quantity × Int)
  | [], st, filled, delta => .ok (st, filled, delta)
  | s :: slots, st, filled, delta =>
    if s.alloc = 0 then applySlots px slots st filled delta
    else do
      let n ← once (deref st.book.heap s.o)
      let delta ← once (i64 (delta - toI64 s.alloc))
      applySlots px slots (st.fill px s.o n.order s.alloc) (filled + s.alloc) delta

/-- The close both allocators share. -/
def settle (s : BookSide) (px : Price) (st : MatchState) (filled : Quantity) (delta : Int) :
    Except Halt MatchState :=
  match (st.book.levels s).find? px with
  | none => .error (.fault .danglingRead)
  | some level => do
    let level ← once (level.noteQtyDelta delta)
    return { st with
      book := st.book.setLevels s ((st.book.levels s).modify px fun _ => level)
      aggr := { st.aggr with leavesQty := st.aggr.leavesQty - filled } }

def fillLevelProrata (s : BookSide) (px : Price) (level : PriceLevel) (available : Quantity)
    (st : MatchState) : Except Halt MatchState := do
  let (slots, total) ← snapshot st.book.heap st.book.heap.next level.head
  if total = 0 ∨ available = 0 then return st
  let toFill := min available total
  let slots := floorShares toFill total slots
  let allocated := (slots.map Slot.alloc).sum
  let slots := topUp (toFill - allocated) slots
  let (st, filled, delta) ← applySlots px slots st 0 0
  settle s px st filled delta

/-- The loop of `fill_level_fifo`, along `next`. -/
def fifoLoop (px : Price) (available : Quantity) : ℕ → Option Ptr → MatchState → Quantity → Int →
    Except Halt (MatchState × Quantity × Int)
  | _, none, st, filled, delta => .ok (st, filled, delta)
  | 0, some _, st, filled, delta =>
    if filled < available then .error .endless else .ok (st, filled, delta)
  | fuel + 1, some p, st, filled, delta =>
    if filled < available then do
      let n ← once (deref st.book.heap p)
      let q := min (available - filled) n.order.leavesQty
      if q = 0 then fifoLoop px available fuel n.next st filled delta
      else
        let delta ← once (i64 (delta - toI64 q))
        fifoLoop px available fuel n.next (st.fill px p n.order q) (filled + q) delta
    else .ok (st, filled, delta)

def fillLevelFifo (s : BookSide) (px : Price) (level : PriceLevel) (available : Quantity)
    (st : MatchState) : Except Halt MatchState := do
  let (st, filled, delta) ← fifoLoop px available st.book.heap.next level.head st 0 0
  settle s px st filled delta

/-- The callback of `match_aggressive`. -/
def onLevel (algo : MatchAlgo) (s : BookSide) (px : Price) (st : MatchState) :
    Except Halt (Bool × MatchState) :=
  if st.aggr.leavesQty = 0 then .ok (false, st)
  else if !crosses st.aggr.side st.aggr.price px then .ok (false, st)
  else
    match (st.book.levels s).find? px with
    | none => .error (.fault .danglingRead)
    | some level => do
      let st ←
        match algo with
        | .proRata => fillLevelProrata s px level st.aggr.leavesQty st
        | .fifo => fillLevelFifo s px level st.aggr.leavesQty st
      return (decide (st.aggr.leavesQty > 0), st)

def matchAggressive (algo : MatchAlgo) (st : MatchState) : Except Halt MatchState :=
  if st.aggr.side = .buy then OrderBook.walk .ask (onLevel algo .ask) st
  else OrderBook.walk .bid (onLevel algo .bid) st

/-- Drop the exhausted orders of one level. The next node is read before
the one at hand is removed. -/
def sweepQueue : ℕ → Option Ptr → OrderBook → Except Halt OrderBook
  | _, none, b => .ok b
  | 0, some _, _ => .error .endless
  | fuel + 1, some p, b => do
    let n ← once (deref b.heap p)
    if n.order.leavesQty = 0 then
      let b ← b.remove p
      sweepQueue fuel n.next b
    else sweepQueue fuel n.next b

/-- The callback of the sweep. -/
def sweepLevel (s : BookSide) (px : Price) (st : MatchState) : Except Halt (Bool × MatchState) :=
  match (st.book.levels s).find? px with
  | none => .error (.fault .danglingRead)
  | some level => do
    let b ← sweepQueue st.book.heap.next level.head st.book
    return (true, { st with book := b })

/-- **Submit an order.** -/
def submit (algo : MatchAlgo) (b : OrderBook) (incoming : Order) :
    Except Halt (OrderBook × EventList) := do
  let st : MatchState := ⟨b, incoming, [.ack ⟨incoming.id, incoming.clordId⟩]⟩
  let st ← matchAggressive algo st
  let st ←
    if incoming.side = .buy then OrderBook.walk .ask (sweepLevel .ask) st
    else OrderBook.walk .bid (sweepLevel .bid) st
  if st.aggr.leavesQty > 0 then do
    let b ← st.book.rest st.aggr
    return (b, st.out)
  else return (st.book, st.out)

/-! ## Calls -/

/-- A book over nodes and the matcher that works on it. -/
structure Engine where
  book : OrderBook
  algo : MatchAlgo

namespace Engine

/-- An empty book and a matcher. -/
def new (algo : MatchAlgo) : Engine := ⟨OrderBook.new, algo⟩

/-- **One call.** -/
def step (e : Engine) : Call → Except Halt (Engine × EventList)
  | .submit n =>
    match submit e.algo e.book n.order with
    | .error f => .error f
    | .ok (b, evs) => .ok ({ e with book := b }, evs)
  | .cancel s clord =>
    match e.book.cancel s clord with
    | .error f => .error f
    | .ok (_, b) => .ok ({ e with book := b }, [])
  | .setAlgo a => .ok ({ e with algo := a }, [])

end Engine

end Linked

end Core

end OrderbookFix
