import OrderbookFix.Core.Model.OrderBook
/-!
# The matcher

`core/matcher.{h,cpp}`. The two allocators, the walk over a ladder that
drives them, and `submit`. The walk is the source's iterator loop: it
erases an empty level when it reaches it, and the callback may change the
book under it, so a level is read back through its price.
-/

namespace OrderbookFix

namespace Core

/-- What the closures of `submit` and `match_aggressive` share. -/
structure MatchState where
  book : OrderBook
  aggr : Order
  out : EventList

/-- A buy crosses an ask at or below its limit, anything else a bid at or
above it. -/
def crosses (aggrSide : Side) (aggrPrice levelPrice : Price) : Bool :=
  if aggrSide = .buy then decide (levelPrice ≤ aggrPrice) else decide (levelPrice ≥ aggrPrice)

/-- The trade of `q` between the aggressor and a resting order. -/
def trade (aggr resting : Order) (px : Price) (q : Quantity) : Trade where
  aggressorId := aggr.id
  restingId := resting.id
  aggressorClord := aggr.clordId
  restingClord := resting.clordId
  price := px
  qty := q
  aggressorSide := aggr.side

def emitTrade (out : EventList) (aggr resting : Order) (px : Price) (q : Quantity) : EventList :=
  out ++ [.trade (trade aggr resting px q)]

namespace OrderBook

/-- One ladder, best price first, until the callback returns false.
`prices` are the keys the iterator has still to visit. -/
def walkFrom (s : BookSide) (fn : Price → MatchState → Except Fault (Bool × MatchState)) :
    List Price → MatchState → Except Fault MatchState
  | [], st => .ok st
  | p :: ps, st =>
    match (st.book.levels s).find? p with
    | none => .error .danglingRead
    | some level =>
      if level.empty then
        walkFrom s fn ps
          { st with book := st.book.setLevels s ((st.book.levels s).erase p) }
      else do
        let (go, st) ← fn p st
        if !go then return st
        match (st.book.levels s).find? p with
        | none => .error .danglingRead
        | some level =>
          if level.empty then
            walkFrom s fn ps
              { st with book := st.book.setLevels s ((st.book.levels s).erase p) }
          else walkFrom s fn ps st

/-- Walk a whole ladder. -/
def walk (s : BookSide) (fn : Price → MatchState → Except Fault (Bool × MatchState))
    (st : MatchState) : Except Fault MatchState :=
  walkFrom s fn ((st.book.levels s).entries.map Prod.fst) st

def walkBids (fn : Price → MatchState → Except Fault (Bool × MatchState)) (st : MatchState) :
    Except Fault MatchState :=
  walk .bid fn st

def walkAsks (fn : Price → MatchState → Except Fault (Bool × MatchState)) (st : MatchState) :
    Except Fault MatchState :=
  walk .ask fn st

end OrderBook

/-! ## Pro-rata -/

/-- One row of the snapshot. -/
structure Slot where
  o : Ptr
  origLeaves : Quantity
  alloc : Quantity
  deriving DecidableEq

/-- Snapshot the queue and sum its leaves. -/
def snapshot (b : OrderBook) : List Ptr → Except Fault (List Slot × Quantity)
  | [] => .ok ([], 0)
  | p :: ps => do
    let o ← b.deref p
    let (slots, total) ← snapshot b ps
    return (⟨p, o.leavesQty, 0⟩ :: slots, o.leavesQty + total)

/-- Step 1: `floor(to_fill * size_i / total)`, the product a 64-bit one. -/
def floorShares (toFill total : Quantity) (slots : List Slot) : List Slot :=
  slots.map fun s => { s with alloc := toFill * s.origLeaves / total }

/-- Step 2: hand the rounding residual out head to tail. -/
def topUp : Quantity → List Slot → List Slot
  | _, [] => []
  | residual, s :: slots =>
    if residual = 0 then s :: slots
    else
      let take := min (s.origLeaves - s.alloc) residual
      { s with alloc := s.alloc + take } :: topUp (residual - take) slots

/-- Step 3: emit the trades and write the leaves back. -/
def applySlots (px : Price) : List Slot → MatchState → Quantity → Int →
    Except Fault (MatchState × Quantity × Int)
  | [], st, filled, delta => .ok (st, filled, delta)
  | s :: slots, st, filled, delta =>
    if s.alloc = 0 then applySlots px slots st filled delta
    else do
      let o ← st.book.deref s.o
      let delta ← i64 (delta - toI64 s.alloc)
      applySlots px slots
        { st with
          out := emitTrade st.out st.aggr o px s.alloc
          book := { st.book with
            heap := st.book.heap.write s.o { o with leavesQty := o.leavesQty - s.alloc } } }
        (filled + s.alloc) delta

/-- The close both allocators share: book the delta on the level and take
the fill off the aggressor. -/
def settle (s : BookSide) (px : Price) (st : MatchState) (filled : Quantity) (delta : Int) :
    Except Fault MatchState :=
  match (st.book.levels s).find? px with
  | none => .error .danglingRead
  | some level => do
    let level ← level.noteQtyDelta delta
    return { st with
      book := st.book.modifyLevel s px fun _ => level
      aggr := { st.aggr with leavesQty := st.aggr.leavesQty - filled } }

/-- Allocate `available` across one level in proportion to the snapshot. -/
def fillLevelProrata (s : BookSide) (px : Price) (level : PriceLevel) (available : Quantity)
    (st : MatchState) : Except Fault MatchState := do
  let (slots, total) ← snapshot st.book level.queue
  if total = 0 ∨ available = 0 then return st
  let toFill := min available total
  let slots := floorShares toFill total slots
  let allocated := (slots.map Slot.alloc).sum
  let slots := topUp (toFill - allocated) slots
  let (st, filled, delta) ← applySlots px slots st 0 0
  settle s px st filled delta

/-! ## FIFO -/

/-- The queue in order until `available` is used up. -/
def fifoLoop (px : Price) (available : Quantity) : List Ptr → MatchState → Quantity → Int →
    Except Fault (MatchState × Quantity × Int)
  | [], st, filled, delta => .ok (st, filled, delta)
  | p :: ps, st, filled, delta =>
    if filled < available then do
      let o ← st.book.deref p
      let q := min (available - filled) o.leavesQty
      if q = 0 then fifoLoop px available ps st filled delta
      else
        let delta ← i64 (delta - toI64 q)
        fifoLoop px available ps
          { st with
            out := emitTrade st.out st.aggr o px q
            book := { st.book with
              heap := st.book.heap.write p { o with leavesQty := o.leavesQty - q } } }
          (filled + q) delta
    else .ok (st, filled, delta)

def fillLevelFifo (s : BookSide) (px : Price) (level : PriceLevel) (available : Quantity)
    (st : MatchState) : Except Fault MatchState := do
  let (st, filled, delta) ← fifoLoop px available level.queue st 0 0
  settle s px st filled delta

/-! ## Matching and submitting -/

/-- The callback of `match_aggressive`. -/
def onLevel (algo : MatchAlgo) (s : BookSide) (px : Price) (st : MatchState) :
    Except Fault (Bool × MatchState) :=
  if st.aggr.leavesQty = 0 then .ok (false, st)
  else if !crosses st.aggr.side st.aggr.price px then .ok (false, st)
  else
    match (st.book.levels s).find? px with
    | none => .error .danglingRead
    | some level => do
      let st ←
        match algo with
        | .proRata => fillLevelProrata s px level st.aggr.leavesQty st
        | .fifo => fillLevelFifo s px level st.aggr.leavesQty st
      return (decide (st.aggr.leavesQty > 0), st)

def matchAggressive (algo : MatchAlgo) (st : MatchState) : Except Fault MatchState :=
  if st.aggr.side = .buy then OrderBook.walkAsks (onLevel algo .ask) st
  else OrderBook.walkBids (onLevel algo .bid) st

/-- Drop the exhausted orders of one level. -/
def sweepQueue : List Ptr → OrderBook → Except Fault OrderBook
  | [], b => .ok b
  | p :: ps, b => do
    let o ← b.deref p
    if o.leavesQty = 0 then
      let b ← b.remove p
      sweepQueue ps b
    else sweepQueue ps b

/-- The callback of the sweep. -/
def sweepLevel (s : BookSide) (px : Price) (st : MatchState) :
    Except Fault (Bool × MatchState) :=
  match (st.book.levels s).find? px with
  | none => .error .danglingRead
  | some level => do
    let b ← sweepQueue level.queue st.book
    return (true, { st with book := b })

/-- **Submit an order**: acknowledge it, match it against the other
ladder, sweep what that exhausted, and rest what is left of it. -/
def submit (algo : MatchAlgo) (b : OrderBook) (incoming : Order) :
    Except Fault (OrderBook × EventList) := do
  let st : MatchState := ⟨b, incoming, [.ack ⟨incoming.id, incoming.clordId⟩]⟩
  let st ← matchAggressive algo st
  let st ←
    if incoming.side = .buy then OrderBook.walkAsks (sweepLevel .ask) st
    else OrderBook.walkBids (sweepLevel .bid) st
  if st.aggr.leavesQty > 0 then return (st.book.rest st.aggr, st.out)
  else return (st.book, st.out)

end Core

end OrderbookFix
