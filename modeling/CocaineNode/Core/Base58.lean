import CocaineNode.Core.Types
import CocaineNode.Lib.CodecWords

/-!
# Base 58

The encoding of binary data as text (`common/base58.cpp`). Data is cut into
blocks of 8 bytes, and each block is written as a number in base 58 with 11
symbols. The last block may be shorter, and then takes fewer symbols.

`encode_block` writes into a buffer that its caller has filled with the symbol
for zero, from the right, and stops when nothing is left of the number. A
number with too many digits would be written before the start of the buffer,
which is `none` here. `decode_block` adds digits times powers of 58, and refuses
a sum that does not fit in 64 bits or in the bytes of the block.

An address is a tag, written as a varint, and data, with the first bytes of
their hash as a checksum. The hash is a parameter.

Strings are lists of bytes. A symbol outside ASCII is a foreign symbol whether
`char` is signed or not.

## Main definitions

* `Base58.encodeBlock`, `Base58.decodeBlock`: One block.
* `Base58.encode`, `Base58.decode`: A whole string.
* `Base58.encodeAddr`, `Base58.decodeAddr`: An address.
-/

namespace CocaineNode

namespace Base58

/-- `alphabet`: the digits from 1, and the letters without `I`, `O` and `l`. -/
def alphabet : List UInt8 :=
  "123456789ABCDEFGHJKLMNPQRSTUVWXYZabcdefghijkmnopqrstuvwxyz".toList.map fun c =>
    UInt8.ofNat c.toNat

/-- `alphabet_size`. -/
def alphabetSize : Nat := 58

/-- `alphabet[digit]`. -/
def letter (digit : Nat) : UInt8 :=
  alphabet.getD digit 0

/-- `encoded_block_sizes`. -/
def encodedBlockSizes : List Nat := [0, 2, 3, 5, 6, 7, 9, 10, 11]

def fullBlockSize : Nat := 8

def fullEncodedBlockSize : Nat := 11

/-- The table of `reverse_alphabet`: for each symbol from the first of the alphabet to the last,
    its digit. -/
def reverseData : List (Option Nat) :=
  (List.range alphabetSize).foldl
    (fun data i => data.set ((letter i).toNat - (letter 0).toNat) (some i))
    (List.replicate ((letter (alphabetSize - 1)).toNat - (letter 0).toNat + 1) none)

/-- `reverse_alphabet`, with `none` for -1. A symbol before the first has an index too large for
    the table. -/
def reverseAlphabet (symbol : UInt8) : Option Nat :=
  if symbol < letter 0 then none else reverseData.getD (symbol.toNat - (letter 0).toNat) none

/-- `decoded_block_sizes`, with `none` for -1. -/
def decodedBlockSizes (encodedBlockSize : Nat) : Option Nat :=
  ((List.range (fullBlockSize + 1)).foldl
    (fun data i => data.set (encodedBlockSizes.getD i 0) (some i))
    (List.replicate (fullEncodedBlockSize + 1) none)).getD encodedBlockSize none

/-- `uint_8be_to_64`. -/
def uint8beTo64 (data : Blob) : UInt64 :=
  data.foldl (fun res b => res * 256 + b.toUInt64) 0

/-- `uint_64_to_8be`. -/
def uint64To8be (num : UInt64) (size : Nat) : Blob :=
  (List.range size).map fun i => UInt8.ofNat (num.toNat / 256 ^ (size - 1 - i))

/-- The loop of `encode_block`, with room for `i` more symbols before those written. -/
def encodeLoop : Nat → UInt64 → Blob → Option Blob
  | 0, num, res => if 0 < num then none else some res
  | i + 1, num, res =>
    if 0 < num then
      encodeLoop i (num / 58) (res.set i (letter (num % 58).toNat))
    else some res

/-- `encode_block`, into a buffer that holds nothing but the first symbol. -/
def encodeBlock (block : Blob) : Option Blob :=
  let size := encodedBlockSizes.getD block.length 0
  encodeLoop size (uint8beTo64 block) (List.replicate size (letter 0))

/-- The loop of `decode_block`, over the symbols from the right. -/
def decodeLoop : Blob → UInt64 → UInt64 → Option UInt64
  | [], resNum, _ => some resNum
  | symbol :: rest, resNum, order =>
    match reverseAlphabet symbol with
    | none => none
    | some digit =>
      -- `mul128`, as the low word and the high word.
      let product := order.toNat * digit
      let tmp := resNum + UInt64.ofNat product
      if tmp < resNum || product / 2 ^ 64 ≠ 0 then none
      else decodeLoop rest tmp (order * 58)

/-- `decode_block`. -/
def decodeBlock (block : Blob) : Option Blob :=
  match decodedBlockSizes block.length with
  | none => none
  | some 0 => none
  | some resSize =>
    match decodeLoop block.reverse 0 1 with
    | none => none
    | some resNum =>
      if resSize < fullBlockSize ∧ 2 ^ (8 * resSize) ≤ resNum.toNat then none
      else some (uint64To8be resNum resSize)

/-- The blocks of `encode`: `count` full ones, and what is left when it is not empty. -/
def encodeBlocks : Nat → Blob → Option Blob
  | 0, data => if data.isEmpty then some [] else encodeBlock data
  | count + 1, data => do
      let first ← encodeBlock (data.take fullBlockSize)
      let rest ← encodeBlocks count (data.drop fullBlockSize)
      return first ++ rest

/-- `encode`. -/
def encode (data : Blob) : Option Blob :=
  encodeBlocks (data.length / fullBlockSize) data

/-- The blocks of `decode`. -/
def decodeBlocks : Nat → Blob → Option Blob
  | 0, enc => if enc.isEmpty then some [] else decodeBlock enc
  | count + 1, enc => do
      let first ← decodeBlock (enc.take fullEncodedBlockSize)
      let rest ← decodeBlocks count (enc.drop fullEncodedBlockSize)
      return first ++ rest

/-- `decode`, with `none` for false. -/
def decode (enc : Blob) : Option Blob :=
  match decodedBlockSizes (enc.length % fullEncodedBlockSize) with
  | none => none
  | some _ => decodeBlocks (enc.length / fullEncodedBlockSize) enc

/-- `addr_checksum_size`. -/
def addrChecksumSize : Nat := 4

section Addresses

variable (cnFastHash : Blob → Hash)

/-- The first bytes of the hash, which are the checksum. -/
def addrChecksum (buf : Blob) : Blob :=
  (Codec.littleEndian 32 (cnFastHash buf).toNat).reverse.take addrChecksumSize

/-- `encode_addr`. -/
def encodeAddr (tag : BitVec 64) (data : Blob) : Option Blob :=
  let buf := Codec.writeVarint tag.toNat ++ data
  encode (buf ++ addrChecksum cnFastHash buf)

/-- `decode_addr`, with `none` for false. A tag that takes no byte is refused like one that cannot
    be read. -/
def decodeAddr (addr : Blob) : Option (BitVec 64 × Blob) := do
  let addrData ← decode addr
  if addrData.length ≤ addrChecksumSize then none
  else
    let checksum := addrData.drop (addrData.length - addrChecksumSize)
    let addrData := addrData.take (addrData.length - addrChecksumSize)
    if addrChecksum cnFastHash addrData ≠ checksum then none
    else
      let (tag, data) ← (Codec.readVarint 64 0 0 addrData).value
      if data.length < addrData.length then some (tag, data) else none

end Addresses

end Base58

end CocaineNode
