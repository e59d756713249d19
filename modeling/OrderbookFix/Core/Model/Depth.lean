import OrderbookFix.Core.Model.Matcher
/-!
# The book as values

The purpose of the book, without its nodes: each ladder is the list of
its prices, best first, with the orders queued at each, oldest first.
Matching is an allocation of quantities over a queue, applied level by
level; no address, index or cached figure is left.
-/

namespace OrderbookFix

namespace Core

/-- A ladder: prices best first, each with its queue. -/
abbrev Ladder := List (Price × List Order)

/-- **The book as values.** -/
structure Depth where
  bids : Ladder
  asks : Ladder
  deriving DecidableEq

/-! ## Allocations -/

/-- What a first-come allocator gives each of a queue of leaves, `filled`
having gone already. -/
def fifoFills (available : Quantity) : Quantity → List Quantity → List Quantity
  | _, [] => []
  | filled, q :: qs =>
    let f := if filled < available then min (available - filled) q else 0
    f :: fifoFills available (filled + f) qs

/-- The rounding residual handed out head to tail, over leaves paired
with their floor shares. -/
def topUpFills : Quantity → List (Quantity × Quantity) → List Quantity
  | _, [] => []
  | residual, (q, f) :: rest =>
    if residual = 0 then f :: rest.map Prod.snd
    else
      let take := min (q - f) residual
      (f + take) :: topUpFills (residual - take) rest

/-- What the proportional allocator gives each of a queue of leaves. -/
def prorataFills (available : Quantity) (qs : List Quantity) : List Quantity :=
  let total := qs.sum
  if total = 0 ∨ available = 0 then qs.map fun _ => 0
  else
    let toFill := min available total
    let shares := qs.map fun q => toFill * q / total
    topUpFills (toFill - shares.sum) (qs.zip shares)

/-- The fills of either allocator. -/
def fills : MatchAlgo → Quantity → List Quantity → List Quantity
  | .proRata, available, qs => prorataFills available qs
  | .fifo, available, qs => fifoFills available 0 qs

/-- An order less a fill. -/
def Order.fill (o : Order) (f : Quantity) : Order := { o with leavesQty := o.leavesQty - f }

/-- The queue after its fills. -/
def fillQueue (os : List Order) (fs : List Quantity) : List Order :=
  List.zipWith Order.fill os fs

/-- One trade for each order with a fill. -/
def tradesOf (aggr : Order) (px : Price) (os : List Order) (fs : List Quantity) : List Trade :=
  ((os.zip fs).filter fun x => x.2 ≠ 0).map fun x => trade aggr x.1 px x.2

/-! ## Matching -/

/-- Fill one level. -/
def fillsAt (algo : MatchAlgo) (aggr : Order) (os : List Order) : List Quantity :=
  fills algo aggr.leavesQty (os.map Order.leavesQty)

/-- **Match down a ladder**: the ladder, the aggressor and the trades. -/
def matchLadder (algo : MatchAlgo) : Ladder → Order → Ladder × Order × List Trade
  | [], aggr => ([], aggr, [])
  | (px, os) :: rest, aggr =>
    if os = [] then matchLadder algo rest aggr
    else if aggr.leavesQty = 0 ∨ !crosses aggr.side aggr.price px then ((px, os) :: rest, aggr, [])
    else
      let fs := fillsAt algo aggr os
      let aggr' := aggr.fill fs.sum
      let ts := tradesOf aggr px os fs
      if aggr'.leavesQty = 0 then ((px, fillQueue os fs) :: rest, aggr', ts)
      else
        let (rest, aggr', ts') := matchLadder algo rest aggr'
        ((px, fillQueue os fs) :: rest, aggr', ts ++ ts')

/-- Drop the exhausted orders, and the levels they leave empty. -/
def sweepLadder (l : Ladder) : Ladder :=
  (l.map fun e => (e.1, e.2.filter fun o => o.leavesQty ≠ 0)).filter fun e => e.2 ≠ []

/-- Queue an order at its price. -/
def restLadder (s : BookSide) (o : Order) (l : Ladder) : Ladder :=
  OrderedMap.upsertList (r := s.before) o.price [] (· ++ [o]) l

/-- Drop the orders of a key. -/
def dropKey (k : IndexKey) (l : Ladder) : Ladder :=
  l.map fun e => (e.1, e.2.filter fun o => o.key ≠ k)

namespace Depth

/-- The empty book. -/
def new : Depth := ⟨[], []⟩

/-- One ladder. -/
def ladder (d : Depth) : BookSide → Ladder
  | .bid => d.bids
  | .ask => d.asks

/-- Replace one ladder. -/
def setLadder (d : Depth) : BookSide → Ladder → Depth
  | .bid, l => { d with bids := l }
  | .ask, l => { d with asks := l }

/-- The orders on one ladder. -/
def ordersOn (d : Depth) (s : BookSide) : List Order := (d.ladder s).flatMap Prod.snd

/-- Every order, bids first. -/
def orders (d : Depth) : List Order := d.ordersOn .bid ++ d.ordersOn .ask

/-- Submit an order to the book as values. -/
def submit (algo : MatchAlgo) (d : Depth) (incoming : Order) : Depth × EventList :=
  let opp := incoming.side.book.opposite
  let (l, aggr, ts) := matchLadder algo (d.ladder opp) incoming
  let d := d.setLadder opp (sweepLadder l)
  let own := aggr.side.book
  let d := if aggr.leavesQty > 0 then d.setLadder own (restLadder own aggr (d.ladder own)) else d
  (d, .ack ⟨incoming.id, incoming.clordId⟩ :: ts.map .trade)

/-- Cancel the order of a key. -/
def cancel (d : Depth) (k : IndexKey) : Depth :=
  ⟨dropKey k d.bids, dropKey k d.asks⟩

end Depth

end Core

end OrderbookFix
