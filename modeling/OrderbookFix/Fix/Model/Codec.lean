import OrderbookFix.Fix.Model.Messages
/-!
# The codec

`fix/parser.{h,cpp}` and `fix/serializer.{h,cpp}`. Positions are `size_t`
values; the two sums that take the length field of the message wrap, the
others are of positions inside the buffer. A read outside it is a fault.
-/

namespace OrderbookFix

namespace Fix

open Bytes

/-- The separators: `kSohWire` on the wire, `kSohText` in tests. -/
inductive Soh where
  | wire
  | text
  deriving DecidableEq

/-- The separator's byte. -/
def Soh.byte : Soh → UInt8
  | .wire => 0x01
  | .text => 0x7c

inductive ParseError where
  | none
  | incomplete
  | badHeader
  | badBodyLength
  | badCheckSum
  | malformedField
  | duplicateField
  deriving DecidableEq

structure ParseResult where
  err : ParseError
  consumed : ℕ
  msg : Message
  deriving DecidableEq

/-- A result with nothing in it but its verdict. -/
def ParseResult.failed (e : ParseError) : ParseResult := ⟨e, 0, ⟨∅⟩⟩

/-! ## Checksums -/

/-- The sum of the bytes modulo 256. -/
def checksum (bytes : Bytes) : UInt32 := bytes.foldl (fun s c => s + c.toUInt32) 0 &&& 0xff

/-- `"%03u"`. -/
def formatChecksum (v : UInt32) : Bytes :=
  let n := (v &&& 0xff).toNat
  [(0x30 + n / 100).toUInt8, (0x30 + n / 10 % 10).toUInt8, (0x30 + n % 10).toUInt8]

/-! ## Parsing -/

/-- The loop of `parse_uint`. -/
def parseUintFrom (v : UInt64) : Bytes → Option UInt64
  | [] => some v
  | c :: s => if isDigit c then parseUintFrom (v * 10 + (c - 0x30).toUInt64) s else none

/-- An unsigned number with no byte but digits. -/
def parseUint (s : Bytes) : Option UInt64 := if s = [] then none else parseUintFrom 0 s

/-- `static_cast<int>` of a 64-bit word. -/
def toInt32 (v : UInt64) : Int :=
  let m : ℕ := v.toNat % 2 ^ 32
  if m < 2 ^ 31 then m else (m : Int) - 2 ^ 32

/-- `buf[i]`. -/
def read (buf : Bytes) (i : ℕ) : Except Fault UInt8 :=
  match buf[i]? with
  | some c => .ok c
  | none => .error .outOfBounds

/-- `"8=FIX.4.4"`. -/
def kBegin : Bytes := ascii "8=FIX.4.4"

/-- The walk over the fields of `[i, bodyEnd)`. A field takes a byte or
more, so `bodyEnd` rounds are enough. -/
def walkFields (soh : UInt8) (buf : Bytes) (bodyEnd : ℕ) :
    ℕ → ℕ → Fields → ParseError × Fields
  | 0, _, fields => (.none, fields)
  | fuel + 1, i, fields =>
    if i < bodyEnd then
      match findFrom 0x3d i buf with
      | none => (.malformedField, fields)
      | some eq =>
        if bodyEnd ≤ eq then (.malformedField, fields)
        else
          match parseUint (substr buf i (eq - i)) with
          | none => (.malformedField, fields)
          | some tag =>
            match findFrom soh (eq + 1) buf with
            | none => (.malformedField, fields)
            | some sohAt =>
              if bodyEnd < sohAt then (.malformedField, fields)
              else if toInt32 tag ∈ fields then (.duplicateField, fields)
              else
                walkFields soh buf bodyEnd fuel (sohAt + 1)
                  (fields.insert (toInt32 tag) (substr buf (eq + 1) (sohAt - (eq + 1))))
    else (.none, fields)

/-- The fields, once the trailer of the message is found to hold. -/
def parseFields (soh : UInt8) (buf : Bytes) (bodyEnd : ℕ) (want : UInt32) : ParseResult :=
  match walkFields soh buf bodyEnd bodyEnd 0 ∅ with
  | (.none, fields) =>
    -- `emplace`: a field 10 of the body stays
    let fields :=
      if Tag.checkSum ∈ fields then fields else fields.insert Tag.checkSum (formatChecksum want)
    ⟨.none, bodyEnd + 7, ⟨fields⟩⟩
  | (e, fields) => ⟨e, 0, ⟨fields⟩⟩

/-- The trailer `10=NNN` and its separator at `bodyEnd`. -/
def parseTrailer (soh : UInt8) (buf : Bytes) (bodyEnd : ℕ) : Except Fault ParseResult := do
  let c₀ ← read buf bodyEnd
  if c₀ ≠ 0x31 then return .failed .badCheckSum
  let c₁ ← read buf (bodyEnd + 1)
  if c₁ ≠ 0x30 then return .failed .badCheckSum
  let c₂ ← read buf (bodyEnd + 2)
  if c₂ ≠ 0x3d then return .failed .badCheckSum
  match parseUint (substr buf (bodyEnd + 3) 3) with
  | none => return .failed .badCheckSum
  | some cs =>
    let c₆ ← read buf (bodyEnd + 6)
    if c₆ ≠ soh then return .failed .badCheckSum
    let want := cs.toUInt32
    if want ≠ checksum (substr buf 0 bodyEnd) then return .failed .badCheckSum
    return parseFields soh buf bodyEnd want

/-- The frame: the length field at position 12, and the trailer where it
points. -/
def parseFrame (soh : UInt8) (buf : Bytes) : Except Fault ParseResult :=
  match findFrom soh 12 buf with
  | none => .ok (.failed .incomplete)
  | some bodyLenEnd =>
    match parseUint (substr buf 12 (bodyLenEnd - 12)) with
    | none => .ok (.failed .badBodyLength)
    | some bodyLen =>
      let pos := bodyLenEnd + 1
      if (pos + bodyLen.toNat + 7) % 2 ^ 64 > buf.length then .ok (.failed .incomplete)
      else parseTrailer soh buf ((pos + bodyLen.toNat) % 2 ^ 64)

/-- **Try to take one message off the front of a buffer.** -/
def parseOne (soh : Soh) (buf : Bytes) : Except Fault ParseResult :=
  if buf.length < 20 then .ok (.failed .incomplete)
  else if substr buf 0 9 ≠ kBegin then .ok (.failed .badHeader)
  else if buf[9]? ≠ some soh.byte then .ok (.failed .badHeader)
  else if buf[10]? ≠ some 0x39 ∨ buf[11]? ≠ some 0x3d then .ok (.failed .badHeader)
  else parseFrame soh.byte buf

/-! ## Serializing -/

/-- The fields of a message to build, in order. -/
abbrev Body := List (Int × Bytes)

/-- One field with its separator. -/
def field (soh : UInt8) (kv : Int × Bytes) : Bytes :=
  decimalInt kv.1 ++ 0x3d :: (kv.2 ++ [soh])

/-- The fields of a body, one after another. -/
def fieldBytes (soh : UInt8) (body : Body) : Bytes := body.flatMap (field soh)

/-- `8=FIX.4.4` and `9=<len>`. -/
def header (soh : UInt8) (len : ℕ) : Bytes :=
  kBegin ++ soh :: ascii "9=" ++ decimal len ++ [soh]

/-- **The wire bytes of a message.** -/
def build (soh : Soh) (body : Body) : Bytes :=
  let b := fieldBytes soh.byte body
  let out := header soh.byte b.length ++ b
  out ++ ascii "10=" ++ formatChecksum (checksum out) ++ [soh.byte]

end Fix

end OrderbookFix
