import CocaineNode.Core.AltChain

/-!
# Checkpoints

`checkpoints/checkpoints.cpp`, where the heights with a known block id are
collected, and `check_against_checkpoints` of `cryptonote_core/blockchain.cpp`,
which holds the chain against them and rolls it back when one fails.

A checkpoint may come with a cumulative difficulty, given as text. Reading that
text is left to the multiprecision library, so it is a parameter here.

## Main definitions

* `Checkpoints.addCheckpoint`: One more checkpoint.
* `Blockchain.checkAgainstCheckpoints`: The chain held against the checkpoints.
-/

namespace CocaineNode

/-- The value of a digit, `epee::misc_utils::parse::isx`. -/
def hexDigit? (c : UInt8) : Option Nat :=
  if 0x30 ≤ c ∧ c ≤ 0x39 then some (c.toNat - 0x30)
  else if 0x41 ≤ c ∧ c ≤ 0x46 then some (c.toNat - 0x41 + 10)
  else if 0x61 ≤ c ∧ c ≤ 0x66 then some (c.toNat - 0x61 + 10)
  else none

/-- `hex_to_pod` into a hash, whose first byte is the most significant one. -/
def hexToPod (hexStr : Blob) : Option Hash :=
  if hexStr.length / 2 ≠ 32 then none
  else if hexStr.length % 2 ≠ 0 then none
  else (hexStr.mapM hexDigit?).map fun digits =>
    BitVec.ofNat 256 (digits.foldl (fun value d => value * 16 + d) 0)

/-- `m_points` and `m_difficulty_points`. -/
structure Checkpoints where
  points : AList fun _ : Nat => Hash
  difficultyPoints : AList fun _ : Nat => Difficulty

namespace Checkpoints

/-- The constructor. -/
def empty : Checkpoints := ⟨∅, ∅⟩

/-- `add_checkpoint`. The point is kept also when the difficulty turns out to be wrong. -/
def addCheckpoint (parseDifficulty : Blob → Option Difficulty) (c : Checkpoints) (height : Nat)
    (hashStr difficultyStr : Blob) : Bool × Checkpoints :=
  match hexToPod hashStr with
  | none => (false, c)
  | some h =>
    if (c.points.lookup height).any (· ≠ h) then (false, c)
    else
      let c := { c with points := c.points.insert height h }
      if difficultyStr = [] then (true, c)
      else
        match parseDifficulty difficultyStr with
        | none => (false, c)
        | some difficulty =>
          if (c.difficultyPoints.lookup height).any (· ≠ difficulty) then (false, c)
          else
            (true,
              { c with difficultyPoints := c.difficultyPoints.insert height difficulty })

/-- The heights of `get_points`, in the order of the map. -/
def heights (c : Checkpoints) : List Nat :=
  c.points.keys.insertionSort (· ≤ ·)

end Checkpoints

namespace Blockchain

/-- `pt.first - 2`, in 64 bits. -/
def twoBelow (height : Nat) : Nat :=
  (height + (2 ^ 64 - 2)) % 2 ^ 64

/-- One turn of the loop of `check_against_checkpoints`, with the height of the chain read before
    the loop. It is `none` when an exception is thrown: by the database for a block that is not
    there, or by the rollback. -/
def checkCheckpoint (E : Externals) (points : Checkpoints) (enforce : Bool) (now : UInt64)
    (blockchainHeight : Nat) (s : Blockchain) (height : Nat) : Option Blockchain :=
  if height ≥ blockchainHeight then some s
  else
    match s.db.ids[height]? with
    | none => none
    | some hash =>
      if (Checkpoints.checkBlock points.points height hash).1 then some s
      else if enforce then
        (s.rollbackBlockchainSwitching E [] (twoBelow height) now).map Prod.snd
      else some s

/-- `check_against_checkpoints`; `none` when it throws. -/
def checkAgainstCheckpoints (E : Externals) (s : Blockchain) (points : Checkpoints) (enforce : Bool)
    (now : UInt64) : Option Blockchain :=
  points.heights.foldlM (checkCheckpoint E points enforce now s.height) s

end Blockchain

end CocaineNode
