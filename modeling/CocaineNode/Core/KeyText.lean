import CocaineNode.Core.Json

/-!
# Keys Typed by Hand

The two decoders of hexadecimal text that a secret key may go through:
`wipeable_string::parse_hexstr`, which searches a C string for each digit, and
`from_hex::to_string`, which looks it up in a table.
-/

namespace CocaineNode

namespace KeyText

/-! ## Hexadecimal text -/

/-- The loop over pairs of digits; a byte takes the low eight bits of what the digits give. -/
def hexPairs (digit : UInt8 → Option Nat) : Blob → Option Blob
  | hi :: lo :: rest => do
    let h ← digit hi
    let l ← digit lo
    let bytes ← hexPairs digit rest
    return UInt8.ofNat (h <<< 4 ||| l) :: bytes
  | _ => some []

/-- A decoder of text of even length. -/
def decodeHex (digit : UInt8 → Option Nat) (s : Blob) : Option Blob :=
  if s.length % 2 ≠ 0 then none else hexPairs digit s

/-- `atolower`. -/
def atolower (c : UInt8) : UInt8 :=
  if 0x41 ≤ c ∧ c ≤ 0x5a then c ||| 32 else c

/-- `hex`, with the terminator that ends the literal. -/
def hex : Blob :=
  [0x30, 0x31, 0x32, 0x33, 0x34, 0x35, 0x36, 0x37, 0x38, 0x39, 0x61, 0x62, 0x63, 0x64,
    0x65, 0x66, 0]

/-- `strchr(hex, c)`, as an offset. The terminator is part of the string that is searched. -/
def strchr (c : UInt8) : Option Nat :=
  hex.idxOf? c

/-- `wipeable_string::parse_hexstr`. -/
def parseHexstr : Blob → Option Blob :=
  decodeHex fun c => strchr (atolower c)

/-- `from_hex::to_string`. -/
def fromHex : Blob → Option Blob :=
  decodeHex fun c => if Json.isx c = 0xff then none else some (Json.isx c).toNat

end KeyText

end CocaineNode
