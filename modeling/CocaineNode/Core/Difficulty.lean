import CocaineNode.Core.Types
import Mathlib.Data.UInt

/-!
# Difficulty

The proof-of-work test and the retargeting rule of
`cryptonote_basic/difficulty.cpp`. Timestamps are 64-bit and cumulative
difficulties 128-bit, with the subtractions of the source wrapping at those
widths; the product of work and target is taken in 256 bits, where it cannot
overflow.

## Main definitions

* `mul128`, `portableMul`: The two definitions of `mul`.
* `checkHash`: A hash is small enough for a difficulty.
-/

namespace CocaineNode

def difficultyTargetV2 : Nat := 120
def difficultyTargetV1 : Nat := 60
def difficultyWindow : Nat := 720
def difficultyLag : Nat := 15
def difficultyCut : Nat := 60
def difficultyBlocksCount : Nat := difficultyWindow + difficultyLag

namespace Difficulty

/-- `mul`: the low and high words of a 128-bit product. -/
def mul (a b : UInt64) : UInt64 × UInt64 :=
  (a * b, UInt64.ofNat (a.toNat * b.toNat / 2 ^ 64))

/-- `hi_dword`. -/
def hiDword (val : UInt64) : UInt64 :=
  val >>> 32

/-- `lo_dword`. -/
def loDword (val : UInt64) : UInt64 :=
  val &&& 0xffffffff

/-- `mul128`, which is `mul` on x86-64: the low word and the high word. -/
def mul128 (multiplier multiplicand : UInt64) : UInt64 × UInt64 :=
  let a := hiDword multiplier
  let b := loDword multiplier
  let c := hiDword multiplicand
  let d := loDword multiplicand
  let ac := a * c
  let ad := a * d
  let bc := b * c
  let bd := b * d
  let adbc := ad + bc
  let adbcCarry : UInt64 := if adbc < ad then 1 else 0
  let productLo := bd + (adbc <<< 32)
  let productLoCarry : UInt64 := if productLo < bd then 1 else 0
  (productLo, ac + (adbc >>> 32) + (adbcCarry <<< 32) + productLoCarry)

/-- `mul` on the other platforms. -/
def portableMul (a b : UInt64) : UInt64 × UInt64 :=
  let aLow := a &&& 0xffffffff
  let aHigh := a >>> 32
  let bLow := b &&& 0xffffffff
  let bHigh := b >>> 32
  let res := aLow * bLow
  let lowRes1 := res &&& 0xffffffff
  let carry := res >>> 32
  let res := aHigh * bLow + carry
  let highResHigh1 := res >>> 32
  let highResLow1 := res &&& 0xffffffff
  let res := aLow * bHigh
  let lowRes2 := res &&& 0xffffffff
  let carry := res >>> 32
  let res := aHigh * bHigh + carry
  let highResHigh2 := res >>> 32
  let highResLow2 := res &&& 0xffffffff
  let r := highResLow1 + lowRes2
  let carry := r >>> 32
  let low := (r <<< 32) ||| lowRes1
  let r := highResHigh1 + highResLow2 + carry
  let d3 := r &&& 0xffffffff
  let carry := r >>> 32
  let r := highResHigh2 + carry
  (low, d3 ||| (r <<< 32))

def cadd (a b : UInt64) : Bool :=
  a + b < a

def cadc (a b : UInt64) (c : Bool) : Bool :=
  a + b < a || (c && a + b = 0xffffffffffffffff)

/-- Byte `j` of a hash, the first one being the leftmost. -/
def hashByte (hash : Hash) (j : Nat) : Nat :=
  hash.toNat / 2 ^ (8 * (31 - j)) % 256

/-- Word `i` of a hash read as little-endian, `swap64le(((const uint64_t *) &hash)[i])`. -/
def hashWord (hash : Hash) (i : Nat) : UInt64 :=
  UInt64.ofNat ((List.range 8).foldl (fun acc k => acc + hashByte hash (8 * i + k) * 2 ^ (8 * k)) 0)

/-- `check_hash_64`, by a definition of `mul`. -/
def checkHash64By (mul : UInt64 → UInt64 → UInt64 × UInt64) (hash : Hash) (difficulty : UInt64) :
    Bool :=
  -- First the highest word, which fails for most hashes.
  let top := mul (hashWord hash 3) difficulty
  if top.2 ≠ 0 then false
  else
    let w0 := mul (hashWord hash 0) difficulty
    let w1 := mul (hashWord hash 1) difficulty
    let w2 := mul (hashWord hash 2) difficulty
    let carry := cadd w0.2 w1.1
    let carry := cadc w1.2 w2.1 carry
    let carry := cadc w2.2 top.1 carry
    !carry

def checkHash128 (hash : Hash) (difficulty : Difficulty) : Bool :=
  let hashVal := (List.range 4).foldl (fun acc i => acc * 2 ^ 64 + (hashWord hash (3 - i)).toNat) 0
  hashVal * difficulty.toNat ≤ 2 ^ 256 - 1

/-- `check_hash`, by a definition of `mul`: the 64-bit path when the difficulty fits in it. -/
def checkHashBy (mul : UInt64 → UInt64 → UInt64 × UInt64) (hash : Hash) (difficulty : Difficulty) :
    Bool :=
  if difficulty.toNat ≤ 2 ^ 64 - 1 then checkHash64By mul hash (UInt64.ofNat difficulty.toNat)
  else checkHash128 hash difficulty

/-- `check_hash`. -/
def checkHash (hash : Hash) (difficulty : Difficulty) : Bool :=
  checkHashBy mul hash difficulty

/-- Where the cut of the outliers begins and ends in a sorted window of `length` blocks. -/
def cutRange (length : Nat) : Nat × Nat :=
  if length ≤ difficultyWindow - 2 * difficultyCut then (0, length)
  else
    let begin := (length - (difficultyWindow - 2 * difficultyCut) + 1) / 2
    (begin, begin + (difficultyWindow - 2 * difficultyCut))

/-- The time the blocks inside the cut took, at least 1. -/
def timeSpan (timestamps : List UInt64) : UInt64 :=
  let sorted := timestamps.insertionSort (· ≤ ·)
  let cut := cutRange timestamps.length
  let span := sorted.getD (cut.2 - 1) 0 - sorted.getD cut.1 0
  if span = 0 then 1 else span

/-- The work of the blocks inside the cut. -/
def totalWork (cumulativeDifficulties : List Difficulty) : Difficulty :=
  let cut := cutRange cumulativeDifficulties.length
  cumulativeDifficulties.getD (cut.2 - 1) 0 - cumulativeDifficulties.getD cut.1 0

/-- The last division: work times target over time, rounded up, and 0 past 128 bits. -/
def retarget (work : Difficulty) (span : UInt64) (targetSeconds : Nat) : Difficulty :=
  let res := (work.toNat * targetSeconds + span.toNat - 1) / span.toNat
  if res > 2 ^ 128 - 1 then 0 else BitVec.ofNat 128 res

/-- `next_difficulty`. The blocks past the window, which lag behind the tip, are cut off first. -/
def nextDifficulty (timestamps : List UInt64) (cumulativeDifficulties : List Difficulty)
    (targetSeconds : Nat) : Difficulty :=
  let timestamps := timestamps.take difficultyWindow
  let cumulativeDifficulties := cumulativeDifficulties.take difficultyWindow
  if timestamps.length ≤ 1 then 1
  else retarget (totalWork cumulativeDifficulties) (timeSpan timestamps) targetSeconds

/-- `next_difficulty` with its reads of the two lists checked: without a value if one of them is
    outside its list, or if the time to divide by is 0. -/
def nextDifficulty? (timestamps : List UInt64) (cumulativeDifficulties : List Difficulty)
    (targetSeconds : Nat) : Option Difficulty :=
  let timestamps := timestamps.take difficultyWindow
  let cumulativeDifficulties := cumulativeDifficulties.take difficultyWindow
  if timestamps.length ≤ 1 then some 1
  else do
    let sorted := timestamps.insertionSort (· ≤ ·)
    let cut := cutRange timestamps.length
    let lastTime ← sorted[cut.2 - 1]?
    let firstTime ← sorted[cut.1]?
    let timeSpan := if lastTime - firstTime = 0 then 1 else lastTime - firstTime
    let lastWork ← cumulativeDifficulties[cut.2 - 1]?
    let firstWork ← cumulativeDifficulties[cut.1]?
    if timeSpan = 0 then none else some (retarget (lastWork - firstWork) timeSpan targetSeconds)

/-- `next_difficulty_64`. -/
def nextDifficulty64 (timestamps cumulativeDifficulties : List UInt64) (targetSeconds : UInt64) :
    UInt64 :=
  let timestamps := timestamps.take difficultyWindow
  let cumulativeDifficulties := cumulativeDifficulties.take difficultyWindow
  if timestamps.length ≤ 1 then 1
  else
    let cut := cutRange timestamps.length
    let timeSpan := timeSpan timestamps
    let totalWork := cumulativeDifficulties.getD (cut.2 - 1) 0 - cumulativeDifficulties.getD cut.1 0
    let product := mul totalWork targetSeconds
    if product.2 ≠ 0 ∨ product.1 + timeSpan - 1 < product.1 then 0
    else (product.1 + timeSpan - 1) / timeSpan

end Difficulty

end CocaineNode
