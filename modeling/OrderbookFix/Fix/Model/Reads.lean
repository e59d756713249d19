import OrderbookFix.Common.Traced
import OrderbookFix.Fix.Model.Codec
/-!
# The parser, with what it reads

`Parser::parse_one` again, with the positions it subscripts the buffer
at and the offsets it takes substrings from, in the order it does. What
`find` scans and what the loops over a substring visit is inside the
buffer whatever the arguments. A subscript out of bounds is undefined, a
substring from past the end raises.
-/

namespace OrderbookFix

namespace Fix

open Bytes

/-- A place where the parser looks into its buffer. -/
inductive Access where
  /-- `buf[i]` -/
  | index (i : ℕ)
  /-- `buf.substr(i, n)` -/
  | substr (i : ℕ)
  deriving DecidableEq

/-- **An access inside a buffer of this size.** -/
def Access.Safe (size : ℕ) : Access → Prop
  | .index i => i < size
  | .substr i => i ≤ size

instance (size : ℕ) (a : Access) : Decidable (a.Safe size) :=
  match a with
  | .index i => inferInstanceAs (Decidable (i < size))
  | .substr i => inferInstanceAs (Decidable (i ≤ size))

abbrev Reads := Traced Access Fault

/-- `buf[i]`. -/
def indexAt (buf : Bytes) (i : ℕ) : Reads UInt8 := .access (.index i) (read buf i)

/-- `buf.substr(i, n)`. -/
def substrAt (buf : Bytes) (i n : ℕ) : Reads Bytes :=
  .access (.substr i) (if i ≤ buf.length then .ok (substr buf i n) else .error .outOfRange)

/-- The walk over the fields of `[i, bodyEnd)`. -/
def walkFieldsReads (soh : UInt8) (buf : Bytes) (bodyEnd : ℕ) :
    ℕ → ℕ → Fields → Reads (ParseError × Fields)
  | 0, _, fields => pure (.none, fields)
  | fuel + 1, i, fields =>
    if i < bodyEnd then
      match findFrom 0x3d i buf with
      | none => pure (.malformedField, fields)
      | some eq =>
        if bodyEnd ≤ eq then pure (.malformedField, fields)
        else do
          let tag ← substrAt buf i (eq - i)
          match parseUint tag with
          | none => pure (.malformedField, fields)
          | some tag =>
            match findFrom soh (eq + 1) buf with
            | none => pure (.malformedField, fields)
            | some sohAt =>
              if bodyEnd < sohAt then pure (.malformedField, fields)
              else do
                let val ← substrAt buf (eq + 1) (sohAt - (eq + 1))
                if toInt32 tag ∈ fields then pure (.duplicateField, fields)
                else
                  walkFieldsReads soh buf bodyEnd fuel (sohAt + 1)
                    (fields.insert (toInt32 tag) val)
    else pure (.none, fields)

/-- The fields, once the trailer of the message is found to hold. -/
def parseFieldsReads (soh : UInt8) (buf : Bytes) (bodyEnd : ℕ) (want : UInt32) :
    Reads ParseResult := do
  match ← walkFieldsReads soh buf bodyEnd bodyEnd 0 ∅ with
  | (.none, fields) =>
    let fields :=
      if Tag.checkSum ∈ fields then fields else fields.insert Tag.checkSum (formatChecksum want)
    pure ⟨.none, bodyEnd + 7, ⟨fields⟩⟩
  | (e, fields) => pure ⟨e, 0, ⟨fields⟩⟩

/-- The trailer `10=NNN` and its separator at `bodyEnd`. -/
def parseTrailerReads (soh : UInt8) (buf : Bytes) (bodyEnd : ℕ) : Reads ParseResult := do
  let c₀ ← indexAt buf bodyEnd
  if c₀ ≠ 0x31 then return .failed .badCheckSum
  let c₁ ← indexAt buf (bodyEnd + 1)
  if c₁ ≠ 0x30 then return .failed .badCheckSum
  let c₂ ← indexAt buf (bodyEnd + 2)
  if c₂ ≠ 0x3d then return .failed .badCheckSum
  let cs ← substrAt buf (bodyEnd + 3) 3
  match parseUint cs with
  | none => return .failed .badCheckSum
  | some cs =>
    let c₆ ← indexAt buf (bodyEnd + 6)
    if c₆ ≠ soh then return .failed .badCheckSum
    let want := cs.toUInt32
    let front ← substrAt buf 0 bodyEnd
    if want ≠ checksum front then return .failed .badCheckSum
    parseFieldsReads soh buf bodyEnd want

/-- The frame: the length field at position 12, and the trailer where it
points. -/
def parseFrameReads (soh : UInt8) (buf : Bytes) : Reads ParseResult :=
  match findFrom soh 12 buf with
  | none => pure (.failed .incomplete)
  | some bodyLenEnd => do
    let len ← substrAt buf 12 (bodyLenEnd - 12)
    match parseUint len with
    | none => pure (.failed .badBodyLength)
    | some bodyLen =>
      let pos := bodyLenEnd + 1
      if (pos + bodyLen.toNat + 7) % 2 ^ 64 > buf.length then pure (.failed .incomplete)
      else parseTrailerReads soh buf ((pos + bodyLen.toNat) % 2 ^ 64)

/-- **`parse_one`**, with what it reads. -/
def parseOneReads (soh : Soh) (buf : Bytes) : Reads ParseResult := do
  if buf.length < 20 then return .failed .incomplete
  let front ← substrAt buf 0 9
  if front ≠ kBegin then return .failed .badHeader
  let c₉ ← indexAt buf 9
  if c₉ ≠ soh.byte then return .failed .badHeader
  let c₁₀ ← indexAt buf 10
  if c₁₀ ≠ 0x39 then return .failed .badHeader
  let c₁₁ ← indexAt buf 11
  if c₁₁ ≠ 0x3d then return .failed .badHeader
  parseFrameReads soh.byte buf

end Fix

end OrderbookFix
