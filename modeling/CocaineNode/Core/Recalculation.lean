import CocaineNode.Core.Checkpoints

/-!
# Recalculated Difficulties

`check_difficulty_checkpoints` and `recalculate_difficulties` of
`cryptonote_core/blockchain.cpp`, with the database call that corrects the
stored values. The recalculation keeps a window of its own and takes the
block-time target from the version a height would ideally have.

## Main definitions

* `BlockchainDB.correctBlockCumulativeDifficulties`: The stored values replaced.
* `Blockchain.recalculateDifficulties`: The recalculation.
-/

namespace CocaineNode

namespace BlockchainDB

/-- `correct_block_cumulative_difficulties`; `none` when the number of values is wrong. -/
def correctBlockCumulativeDifficulties (db : BlockchainDB) (startHeight : Nat)
    (values : List Difficulty) : Option BlockchainDB :=
  if startHeight + values.length ≠ db.height then none
  else
    let correct := fun height (b : StoredBlock) =>
      if height < startHeight then b
      else { b with cumulativeDifficulty := values.getD (height - startHeight) 0 }
    have hhash : (db.blocks.mapIdx correct).map StoredBlock.hash =
        db.blocks.map StoredBlock.hash := by
      refine List.ext_getElem (by simp) fun height _ _ => ?_
      simp only [List.getElem_map, List.getElem_mapIdx, correct]
      split <;> rfl
    some { db with
      blocks := db.blocks.mapIdx correct
      ids_nodup := hhash ▸ db.ids_nodup
      linked := by
        refine List.isChain_iff_getElem.mpr fun i hi => ?_
        have hlink := List.isChain_iff_getElem.mp db.linked i (by simpa using hi)
        simp only [List.getElem_mapIdx, correct]
        split <;> split <;> exact hlink }

end BlockchainDB

namespace Blockchain

/-- The loop of `check_difficulty_checkpoints`, over the heights in order. -/
def difficultyPointsLoop (s : Blockchain) (points : Checkpoints) : List Nat → Nat → Bool × Nat
  | [], res => (true, res)
  | height :: rest, res =>
    if height ≥ s.height then (true, res)
    else if s.db.blocks[height]?.map StoredBlock.cumulativeDifficulty ≠
        points.difficultyPoints.lookup height then (false, res)
    else difficultyPointsLoop s points rest height

/-- `check_difficulty_checkpoints`: whether no point fails, and the last height that passed. -/
def checkDifficultyCheckpoints (s : Blockchain) (points : Checkpoints) : Bool × Nat :=
  s.difficultyPointsLoop points (points.difficultyPoints.keys.insertionSort (· ≤ ·)) 0

/-- The locals of `recalculate_difficulties`. -/
structure Recalculation where
  timestamps : List UInt64
  difficulties : List Difficulty
  lastCumDiff : Difficulty
  driftStartHeight : Nat := 0
  newCumulativeDifficulties : List Difficulty := []
  deriving DecidableEq, Repr

/-- Blocks read from a height downwards; `none` when one is not there. -/
def readWindow (db : BlockchainDB) :
    Nat → Nat → List UInt64 × List Difficulty → Option (List UInt64 × List Difficulty)
  | 0, _, w => some w
  | n + 1, height, w =>
    if height = 0 then some w
    else
      match db.blocks[height]? with
      | none => none
      | some b => readWindow db n (height - 1)
          (b.block.timestamp :: w.1, b.cumulativeDifficulty :: w.2)

/-- The window the loop starts with. -/
def windowBelow (db : BlockchainDB) (startHeight : Nat) : Option (List UInt64 × List Difficulty) :=
  if startHeight > 1 then readWindow db difficultyBlocksCount (startHeight - 1) ([], [])
  else some ([], [])

/-- One more value, unless it is that of height 0. -/
def pushAbove {α : Type} (height : Nat) (values : List α) (x : α) : List α :=
  if height > 0 then values ++ [x] else values

/-- `recalculated_diff`. -/
def recalculatedDiff (s : Blockchain) (height : Nat) (r : Recalculation) : Difficulty :=
  let target := if s.hardfork.getIdealVersion height < 2 then difficultyTargetV1
    else difficultyTargetV2
  Difficulty.nextDifficulty r.timestamps r.difficulties target

/-- One turn of the loop. It is `none` when the block is not there, and on an overflow. -/
def recalculateBlock (s : Blockchain) (height : Nat) (r : Recalculation) : Option Recalculation :=
  let diff := s.recalculatedDiff height r
  if diff.toNat + r.lastCumDiff.toNat > 2 ^ 128 - 1 then none
  else
    let cumDiff := diff + r.lastCumDiff
    match s.db.blocks[height]? with
    | none => none
    | some b =>
      let drift := if r.driftStartHeight = 0 ∧ cumDiff ≠ b.cumulativeDifficulty then height
        else r.driftStartHeight
      let values := pushAbove drift r.newCumulativeDifficulties cumDiff
      let timestamps := pushAbove height r.timestamps b.block.timestamp
      let difficulties := pushAbove height r.difficulties cumDiff
      if timestamps.length > difficultyBlocksCount then
        if timestamps.length ≠ difficultyBlocksCount + 1 then none
        else some ⟨timestamps.tail, difficulties.tail, cumDiff, drift, values⟩
      else some ⟨timestamps, difficulties, cumDiff, drift, values⟩

/-- The loop over `n` heights. -/
def recalculateLoop (s : Blockchain) : Nat → Nat → Recalculation → Option Recalculation
  | 0, _, r => some r
  | n + 1, height, r =>
    match s.recalculateBlock height r with
    | none => none
    | some r' => recalculateLoop s n (height + 1) r'

/-- `recalculate_difficulties`: how many values were corrected, and the state it leaves. It is
    `none` when it throws. The top height of an empty chain wraps around. -/
def recalculateDifficulties (s : Blockchain) (points : Checkpoints) (startHeightOpt : Option Nat) :
    Option (Nat × Blockchain) :=
  if s.fixedDifficulty ≠ 0 then some (0, s)
  else do
    let startHeight := startHeightOpt.getD (s.checkDifficultyCheckpoints points).2
    let topHeight := if s.height = 0 then 2 ^ 64 - 1 else s.height - 1
    let w ← windowBelow s.db startHeight
    let lastCumDiff := if startHeight ≤ 1 then BitVec.ofNat 128 startHeight else w.2.getLastD 0
    let r ← s.recalculateLoop (topHeight + 1 - startHeight) startHeight
      ⟨w.1, w.2, lastCumDiff, 0, []⟩
    if r.driftStartHeight > 0 then
      -- An error of the database is logged, and no more.
      let db := (s.db.correctBlockCumulativeDifficulties r.driftStartHeight
        r.newCumulativeDifficulties).getD s.db
      some (r.newCumulativeDifficulties.length,
        { s with db, difficultyCache := { s.difficultyCache with
          difficultyForNextBlockTopHash := nullHash, timestampsAndDifficultiesHeight := 0 } })
    else some (r.newCumulativeDifficulties.length, s)

end Blockchain

end CocaineNode
