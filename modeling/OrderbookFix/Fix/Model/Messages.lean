import OrderbookFix.Common.Decimal
import Mathlib.Data.List.AList
/-!
# FIX messages

`fix/messages.h`: the tags the engine acts on, the message types, and a
parsed message, which is a map from tags to values. Numbers in fields are
read with `std::stoull` and `std::stoll`, which raise; what they accept is
spelled out here.
-/

namespace OrderbookFix

namespace Fix

/-- `SeqNum`. -/
abbrev SeqNum := UInt64

/-- What a call can end with besides returning: the two exceptions of the
standard conversions, and a read past the end of a buffer, which is
undefined. -/
inductive Fault where
  | invalidArgument
  | outOfRange
  | outOfBounds
  deriving DecidableEq

namespace Tag

abbrev beginString : Int := 8
abbrev bodyLength : Int := 9
abbrev msgType : Int := 35
abbrev senderCompID : Int := 49
abbrev targetCompID : Int := 56
abbrev msgSeqNum : Int := 34
abbrev sendingTime : Int := 52
abbrev checkSum : Int := 10
abbrev testReqID : Int := 112
abbrev refSeqNum : Int := 45
abbrev text : Int := 58
abbrev beginSeqNo : Int := 7
abbrev endSeqNo : Int := 16
abbrev possDupFlag : Int := 43
abbrev origSendingTime : Int := 122
abbrev newSeqNo : Int := 36
abbrev gapFillFlag : Int := 123
abbrev clOrdID : Int := 11
abbrev origClOrdID : Int := 41
abbrev side : Int := 54
abbrev ordType : Int := 40
abbrev orderQty : Int := 38
abbrev price : Int := 44
abbrev orderID : Int := 37
abbrev execID : Int := 17
abbrev execType : Int := 150
abbrev ordStatus : Int := 39
abbrev leavesQty : Int := 151
abbrev cumQty : Int := 14
abbrev avgPx : Int := 6
abbrev lastPx : Int := 31
abbrev lastQty : Int := 32

end Tag

namespace MsgType

def heartbeat : Bytes := ascii "0"
def testRequest : Bytes := ascii "1"
def resendRequest : Bytes := ascii "2"
def reject : Bytes := ascii "3"
def sequenceReset : Bytes := ascii "4"
def logout : Bytes := ascii "5"
def executionReport : Bytes := ascii "8"
def logon : Bytes := ascii "A"
def newOrderSingle : Bytes := ascii "D"
def orderCancelRequest : Bytes := ascii "F"
def orderCancelReplace : Bytes := ascii "G"

end MsgType

/-! ## Conversions -/

/-- `std::isspace` in the C locale. -/
def isSpace (c : UInt8) : Bool := c == 0x20 || (0x09 ≤ c && c ≤ 0x0d)

/-- The sign and the digits of a numeral as `strtoull` takes them: blanks
are skipped, one sign may follow, and the digits end at the first byte
that is none. -/
def scanNumber (s : Bytes) : Bool × Bytes :=
  match s.dropWhile isSpace with
  | [] => (false, [])
  | c :: rest =>
    if c = 0x2d then (true, rest.takeWhile isDigit)
    else if c = 0x2b then (false, rest.takeWhile isDigit)
    else (false, (c :: rest).takeWhile isDigit)

/-- `std::stoull`. A minus sign negates the word it reads. -/
def stoull (s : Bytes) : Except Fault UInt64 :=
  let (neg, ds) := scanNumber s
  if ds = [] then .error .invalidArgument
  else if digitsValue ds < 2 ^ 64 then
    .ok (if neg then 0 - UInt64.ofNat (digitsValue ds) else UInt64.ofNat (digitsValue ds))
  else .error .outOfRange

/-- `std::stoll`. -/
def stoll (s : Bytes) : Except Fault Int :=
  let (neg, ds) := scanNumber s
  if ds = [] then .error .invalidArgument
  else
    let v : Int := if neg then -(digitsValue ds : Int) else digitsValue ds
    if -2 ^ 63 ≤ v ∧ v < 2 ^ 63 then .ok v else .error .outOfRange

/-! ## Messages -/

/-- `std::unordered_map<int, std::string>`. -/
abbrev Fields := AList fun _ : Int => Bytes

/-- A parsed message. -/
structure Message where
  fields : Fields
  deriving DecidableEq

namespace Message

def get (m : Message) (t : Int) : Option Bytes := m.fields.lookup t

def msgType (m : Message) : Bytes := (m.get Tag.msgType).getD []

/-- The sequence number, 0 where there is none. -/
def seq (m : Message) : Except Fault SeqNum :=
  match m.get Tag.msgSeqNum with
  | none => .ok 0
  | some v => stoull v

end Message

end Fix

end OrderbookFix
