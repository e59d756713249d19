import OrderbookFix.Common.Bytes
import Mathlib.Data.UInt
/-!
# Orders and events

The data of `core/types.h`, `core/order.h` and `core/events.h`. Prices
are integer ticks, only ever compared; quantities, identifiers and
sequence numbers are the 64-bit words of the source, so that every
operation on them wraps as it does there.
-/

namespace OrderbookFix

namespace Core

abbrev OrderId := UInt64
abbrev Quantity := UInt64
abbrev Price := Int
abbrev SessionId := UInt64

/-- `enum class Side : char`. The underlying type is fixed, so a cast
from a byte other than the two enumerators is a value of its own. -/
inductive Side where
  | buy
  | sell
  | other (c : { c : UInt8 // c ≠ 0x31 ∧ c ≠ 0x32 })
  deriving DecidableEq

/-- `static_cast<Side>(c)`. -/
def Side.ofByte (c : UInt8) : Side :=
  if hb : c = 0x31 then .buy
  else if hs : c = 0x32 then .sell
  else .other ⟨c, hb, hs⟩

/-- The two ladders of the book. -/
inductive BookSide where
  | bid
  | ask
  deriving DecidableEq

/-- The ladder an order of this side rests on: `side == Side::Buy`
selects the bids, anything else the asks. -/
def Side.book : Side → BookSide
  | .buy => .bid
  | _ => .ask

/-- The ladder an order of this side is matched against. -/
def BookSide.opposite : BookSide → BookSide
  | .bid => .ask
  | .ask => .bid

/-- The iteration order of a ladder, best price first: `std::greater` on
the bids, `std::less` on the asks. -/
def BookSide.before : BookSide → Price → Price → Prop
  | .bid => (· > ·)
  | .ask => (· < ·)

instance (s : BookSide) : DecidableRel s.before :=
  match s with
  | .bid => fun a b => inferInstanceAs (Decidable (a > b))
  | .ask => fun a b => inferInstanceAs (Decidable (a < b))

inductive MatchAlgo where
  | proRata
  | fifo
  deriving DecidableEq

structure ClOrdID where
  value : Bytes
  deriving DecidableEq

/-- One order. The links of the intrusive list are in the queue of its
level, not here. -/
structure Order where
  id : OrderId
  session : SessionId
  clordId : ClOrdID
  side : Side
  price : Price
  origQty : Quantity
  leavesQty : Quantity
  deriving DecidableEq

/-- The key of the book's index. -/
structure IndexKey where
  s : SessionId
  c : Bytes
  deriving DecidableEq

/-- The key an order is indexed under. -/
def Order.key (o : Order) : IndexKey := ⟨o.session, o.clordId.value⟩

structure Trade where
  aggressorId : OrderId
  restingId : OrderId
  aggressorClord : ClOrdID
  restingClord : ClOrdID
  price : Price
  qty : Quantity
  aggressorSide : Side
  deriving DecidableEq

structure Ack where
  id : OrderId
  clordId : ClOrdID
  deriving DecidableEq

structure OrdReject where
  clordId : ClOrdID
  reason : Bytes
  deriving DecidableEq

structure CancelAck where
  id : OrderId
  clordId : ClOrdID
  origClordId : ClOrdID
  deriving DecidableEq

structure ReplaceAck where
  id : OrderId
  clordId : ClOrdID
  origClordId : ClOrdID
  newQty : Quantity
  newPrice : Price
  deriving DecidableEq

/-- `std::variant<Trade, Ack, OrdReject, CancelAck, ReplaceAck>`. -/
inductive Event where
  | trade (t : Trade)
  | ack (a : Ack)
  | ordReject (r : OrdReject)
  | cancelAck (c : CancelAck)
  | replaceAck (r : ReplaceAck)
  deriving DecidableEq

abbrev EventList := List Event

/-- What a call of the book or the matcher can run into besides
returning: a node read through a pointer nothing owns any more, or a
signed 64-bit sum out of range. Both are undefined behaviour. -/
inductive Fault where
  | danglingRead
  | signedOverflow
  deriving DecidableEq

end Core

end OrderbookFix
