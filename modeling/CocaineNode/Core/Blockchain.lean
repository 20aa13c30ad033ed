import CocaineNode.Core.HardFork
import CocaineNode.Core.RollingMedian
import CocaineNode.Core.TxPool

/-!
# The Main Chain

The state of `Blockchain` (`cryptonote_core/blockchain.cpp`) and the function
that decides whether a block extends the main chain,
`handle_block_to_main_chain`.

That function leaves at fifteen places. Each has a constructor of `BlockExit`,
which says what the source does to the verification context there. The function
also takes transactions out of the pool as it goes and hands them back on most
of its exits; `PoolCall` records these calls in order, so that what was taken
and what was returned can be compared.

The clock is read once per call. The cached long term median, notifications,
the block template cache and time statistics are left out.

## Main definitions

* `Blockchain`: The chain state.
* `Blockchain.getDifficultyForNextBlock`: The difficulty, through its two caches.
-/

namespace CocaineNode

/-- `block_verification_context`. -/
structure Bvc where
  addedToMainChain : Bool := false
  verifivationFailed : Bool := false
  markedAsOrphaned : Bool := false
  alreadyExists : Bool := false
  partialBlockReward : Bool := false
  badPow : Bool := false
  missingTxs : Bool := false
  deriving DecidableEq, Repr

/-- `pool_supplement`. -/
structure PoolSupplement where
  txsByTxid : AList fun _ : Hash => Transaction × Blob := ∅
  nicVerifiedHfVersion : UInt8 := 0
  deriving DecidableEq

/-- The members `get_difficulty_for_next_block` keeps between calls. -/
structure DifficultyCache where
  timestamps : List UInt64 := []
  difficulties : List Difficulty := []
  timestampsAndDifficultiesHeight : Nat := 0
  resetTimestampsAndDifficultiesHeight : Bool := true
  difficultyForNextBlockTopHash : Hash := nullHash
  difficultyForNextBlock : Difficulty := 1
  deriving DecidableEq, Repr

/-- The chain state. `prepareBlocks` holds the ids of the blocks being prepared, from
    `prepareHeight` on. -/
structure Blockchain where
  db : BlockchainDB
  hardfork : HardFork
  txPool : TxPool
  fixedDifficulty : Difficulty
  difficultyCache : DifficultyCache
  prepareHeight : Nat
  prepareBlocks : List Hash
  blocksHashCheck : List (Hash × UInt64)
  blocksLonghashTable : AList fun _ : Hash => Hash
  checkpoints : AList fun _ : Nat => Hash
  invalidBlocks : List Hash
  batchSuccess : Bool
  currentBlockCumulWeightMedian : UInt64
  currentBlockCumulWeightLimit : UInt64

/-! ## Medians -/

/-- `epee::misc_utils::median` of 64-bit numbers. -/
def median (v : List UInt64) : UInt64 :=
  Epee.median v

namespace Checkpoints

/-- `is_in_checkpoint_zone`. -/
def isInCheckpointZone (points : AList fun _ : Nat => Hash) (height : Nat) : Bool :=
  points.keys.any fun h => height ≤ h

/-- `check_block`: whether the block passes, and whether its height has a checkpoint. -/
def checkBlock (points : AList fun _ : Nat => Hash) (height : Nat) (h : Hash) : Bool × Bool :=
  match points.lookup height with
  | none => (true, false)
  | some expected => (expected = h, true)

/-- `is_alternative_block_allowed`: not at or below the last checkpoint the chain has passed. -/
def isAlternativeBlockAllowed (points : AList fun _ : Nat => Hash)
    (blockchainHeight blockHeight : Nat) :
    Bool :=
  blockHeight ≠ 0 && (points.keys.filter (· ≤ blockchainHeight)).all (· < blockHeight)

end Checkpoints

/-- `is_valid_decomposed_amount`: trailing zeros are divided out, of which there are at most
    nineteen. -/
def isValidDecomposedAmount (amount : UInt64) : Bool :=
  let rec strip : Nat → Nat → Nat
    | 0, n => n
    | fuel + 1, n => if n % 10 = 0 then strip fuel (n / 10) else n
  amount ≠ 0 && strip 20 amount.toNat < 10

namespace Blockchain

def height (s : Blockchain) : Nat :=
  s.db.height

/-- What the pool sees. -/
def view (s : Blockchain) : ChainView :=
  ⟨s.db, s.hardfork.getCurrentVersion, s.blocksHashCheck.length⟩

/-- The state with another pool. -/
def withPool (s : Blockchain) (txPool : TxPool) : Blockchain :=
  { s with txPool }

/-- The state with another database and hard fork state. -/
def withChain (s : Blockchain) (db : BlockchainDB) (hardfork : HardFork) : Blockchain :=
  { s with db, hardfork }

/-- The state with another difficulty cache. -/
def withCache (s : Blockchain) (difficultyCache : DifficultyCache) : Blockchain :=
  { s with difficultyCache }

/-- `add_block_as_invalid`. -/
def addBlockAsInvalid (s : Blockchain) (id : Hash) : Blockchain :=
  { s with invalidBlocks := id :: s.invalidBlocks }

/-- `m_batch_success = false`. -/
def failBatch (s : Blockchain) : Blockchain :=
  { s with batchSuccess := false }

/-- `get_pending_block_id_by_height`. -/
def pendingBlockIdByHeight (s : Blockchain) (height : Nat) : Hash :=
  if s.prepareHeight ≠ 0 ∧ s.prepareHeight ≤ height ∧
      height - s.prepareHeight < s.prepareBlocks.length then
    s.prepareBlocks.getD (height - s.prepareHeight) nullHash
  else s.db.blockIdByHeight height

/-! ## Difficulty -/

/-- The blocks the difficulty of the next one is computed from: the last 735, without the
    genesis block. -/
def windowBlocks {α : Type} (blocks : List α) : List α :=
  let offset := blocks.length - min blocks.length difficultyBlocksCount
  blocks.drop (if offset = 0 then 1 else offset)

/-- `get_difficulty_target`. -/
def difficultyTarget (hf : HardFork) : Nat :=
  if hf.getCurrentVersion < 2 then difficultyTargetV1 else difficultyTargetV2

/-- The windows of `get_difficulty_for_next_block`: shifted by the newest block when they are
    those of one block earlier and full, read from the database otherwise. -/
def nextWindows (db : BlockchainDB) (c : DifficultyCache) : List UInt64 × List Difficulty :=
  let known := if c.resetTimestampsAndDifficultiesHeight then 0
    else c.timestampsAndDifficultiesHeight
  let shift := known ≠ 0 ∧ db.height = known + 1 ∧ c.timestamps.length ≥ difficultyBlocksCount
  match db.blocks.getLast? with
  | some top =>
    if shift then
      let timestamps := c.timestamps ++ [top.block.timestamp]
      let difficulties := c.difficulties ++ [top.cumulativeDifficulty]
      (timestamps.drop (timestamps.length - difficultyBlocksCount),
        difficulties.drop (difficulties.length - difficultyBlocksCount))
    else
      let w := windowBlocks db.blocks
      (w.map fun b => b.block.timestamp, w.map StoredBlock.cumulativeDifficulty)
  | none => ([], [])

/-- `get_difficulty_for_next_block` without a fixed difficulty: the value cached for the top
    block, or a fresh one, with the cache it leaves. -/
def cachedDifficulty (db : BlockchainDB) (hf : HardFork) (c : DifficultyCache) :
    Difficulty × DifficultyCache :=
  let topHash := db.topBlockHash
  if topHash = c.difficultyForNextBlockTopHash then (c.difficultyForNextBlock, c)
  else
    let w := nextWindows db c
    let diff := Difficulty.nextDifficulty w.1 w.2 (difficultyTarget hf)
    (diff, { c with
      timestamps := w.1, difficulties := w.2
      timestampsAndDifficultiesHeight := db.height
      difficultyForNextBlockTopHash := topHash, difficultyForNextBlock := diff })

/-- `get_difficulty_for_next_block`. -/
def getDifficultyForNextBlock (s : Blockchain) : Difficulty × Blockchain :=
  if s.fixedDifficulty ≠ 0 then (if s.height = 0 then 1 else s.fixedDifficulty, s)
  else
    let r := cachedDifficulty s.db s.hardfork s.difficultyCache
    (r.1, s.withCache r.2)

/-! ## Header checks -/

/-- `check_block_timestamp(timestamps, b)`. -/
def notBeforeMedian (timestamps : List UInt64) (b : Block) : Bool :=
  b.timestamp ≥ median timestamps

/-- `check_block_timestamp(b)`: not two hours ahead of the clock, nor before the median of the
    last 60 blocks. -/
def checkBlockTimestamp (s : Blockchain) (b : Block) (now : UInt64) : Bool :=
  if b.timestamp > now + 7200 then false
  else if s.height < 60 then true
  else notBeforeMedian ((s.db.blocks.drop (s.height - 60)).map fun b => b.block.timestamp) b

/-- `prevalidate_miner_transaction`. -/
def prevalidateMinerTransaction (b : Block) (height : Nat) (hfVersion : UInt8) : Bool :=
  match b.minerTx.vin with
  | [.gen h] =>
    (b.minerTx.version > 1 || hfVersion < 13) &&
    !(hfVersion ≥ 13 && b.minerTx.version ≥ 2 && b.minerTx.rctType ≠ 0) &&
    h = UInt64.ofNat height &&
    b.minerTx.unlockTime = UInt64.ofNat height + 60 &&
    b.minerTx.checkOutsOverflow &&
    b.minerTx.checkOutputTypes hfVersion
  | _ => false

/-- `get_last_n_blocks_weights`. -/
def lastBlocksWeights (s : Blockchain) (count : Nat) : List UInt64 :=
  (s.db.blocks.drop (s.height - min s.height count)).map StoredBlock.weight

/-- The median weight the block reward is computed from. -/
def rewardMedianWeight (s : Blockchain) (version : UInt8) : UInt64 :=
  if version ≥ 13 then s.currentBlockCumulWeightMedian else median (s.lastBlocksWeights 100)

/-- The base reward `validate_miner_transaction` ends with, and whether the miner claimed less
    than the full reward; `none` when the miner transaction is refused. -/
def validateMinerTransaction (s : Blockchain) (b : Block)
    (cumulativeBlockWeight fee alreadyGeneratedCoins : UInt64) (version : UInt8) :
    Option (UInt64 × Bool) :=
  let moneyInUse := b.minerTx.outsMoneyAmount
  if version = 3 && !(b.minerTx.vout.all fun o => isValidDecomposedAmount o.amount) then none
  else
    match getBlockReward (s.rewardMedianWeight version) cumulativeBlockWeight alreadyGeneratedCoins
        version with
    | none => none
    | some baseReward =>
      if baseReward + fee < moneyInUse then none
      else if version < 2 || version ≥ 13 then
        if baseReward + fee ≠ moneyInUse then none else some (baseReward, false)
      -- From version 2 to 12 a miner may claim less; the rest stays to be issued.
      else if moneyInUse - fee ≤ baseReward then
        some (moneyInUse - fee, baseReward + fee ≠ moneyInUse)
      else none

/-! ## Weight limits -/

/-- The median of the long term weights of the last 100000 blocks. -/
def longTermMedian (s : Blockchain) : UInt64 :=
  median ((s.db.blocks.drop (s.height - min 100000 s.height)).map StoredBlock.longTermWeight)

/-- The bounds that `get_next_long_term_block_weight` puts on a weight. -/
def boundedBlockWeight (hfVersion : UInt8) (longTermMedian blockWeight : UInt64) : UInt64 :=
  let effective := max 300000 longTermMedian
  if hfVersion ≥ 15 then
    min (max blockWeight (effective * 10 / 17)) (effective + effective * 7 / 10)
  else min blockWeight (effective + effective * 2 / 5)

/-- `get_next_long_term_block_weight`. -/
def getNextLongTermBlockWeight (s : Blockchain) (blockWeight : UInt64) : UInt64 :=
  let hfVersion := s.hardfork.getCurrentVersion
  if hfVersion < 10 || s.height = 0 then blockWeight
  else boundedBlockWeight hfVersion s.longTermMedian blockWeight

/-- `update_next_cumulative_weight_limit`, which never fails. -/
def updateNextCumulativeWeightLimit (s : Blockchain) : Blockchain :=
  let hfVersion := s.hardfork.getCurrentVersion
  let shortTerm := median (s.lastBlocksWeights 100)
  let effective :=
    if hfVersion < 10 then shortTerm
    else
      let longTerm := max 300000 (if s.height = 0 then 300000 else s.longTermMedian)
      if hfVersion ≥ 15 then min (max longTerm shortTerm) (50 * longTerm)
      else min (max 300000 shortTerm) (50 * longTerm)
  let fullRewardZone := getMinBlockWeight hfVersion
  let medianWeight := if effective ≤ fullRewardZone then fullRewardZone else effective
  { s with
    currentBlockCumulWeightMedian := medianWeight
    currentBlockCumulWeightLimit := medianWeight * 2 }

/-- A node that has just opened its database, with no fixed difficulty, no compiled-in hashes
    and nothing in the pool. -/
def start (db : BlockchainDB) (hardfork : HardFork) : Blockchain :=
  updateNextCumulativeWeightLimit
    { db, hardfork, txPool := .empty, fixedDifficulty := 0, difficultyCache := {}
      prepareHeight := 0, prepareBlocks := [], blocksHashCheck := [], blocksLonghashTable := ∅
      checkpoints := ∅, invalidBlocks := [], batchSuccess := true
      currentBlockCumulWeightMedian := 0, currentBlockCumulWeightLimit := 0 }

end Blockchain

/-! ## Exits and pool calls -/

/-- The places at which `handle_block_to_main_chain` returns false. -/
inductive BlockExit where
  | wrongPrevId
  | oldVersion
  | invalidTimestamp
  | difficultyOverhead
  | unexpectedHash
  | notEnoughPow
  | checkpointFailed
  | minerTxPrevalidation
  | supplementValidation
  | txInBlockchain
  | unknownTx
  | wrongInputs
  | prunedWithoutWeight
  | incorrectMinerTx
  | dbException (e : DbError)
  deriving DecidableEq, Repr

/-- What the source writes to `bvc` at each exit. -/
def BlockExit.mark : BlockExit → Bvc → Bvc
  -- `CHECK_AND_ASSERT_MES` returns at once, and `goto leave` only returns.
  | .difficultyOverhead, bvc => bvc
  | .prunedWithoutWeight, bvc => bvc
  | .notEnoughPow, bvc => { bvc with verifivationFailed := true, badPow := true }
  | .unknownTx, bvc => { bvc with verifivationFailed := true, missingTxs := true }
  | _, bvc => { bvc with verifivationFailed := true }

/-- A call into the pool: a `take_tx` that found its transaction, or an `add_tx`. -/
inductive PoolCall where
  | take (id : Hash) (taken : TxPool.TakenTx)
  | add (call : AddTxCall)

/-- An entry of `txs` with its entry of `txs_meta`: the transaction, where it came from, and
    whether that was the pool. -/
structure BlockTx where
  id : Hash
  tx : Transaction
  blob : Blob
  weight : UInt64
  fee : UInt64
  foundInPool : Bool

/-- The local variables of the transaction loop. -/
structure TxLoop where
  pool : TxPool
  supplement : PoolSupplement
  txs : List BlockTx
  feeSummary : UInt64
  cumulativeBlockWeight : UInt64
  nPruned : Nat
  calls : List PoolCall

/-- What `handle_block_to_main_chain` leaves behind; `exit` is `none` when it returns true. -/
structure MainResult where
  exit : Option BlockExit
  bvc : Bvc
  chain : Blockchain
  supplement : PoolSupplement
  calls : List PoolCall

namespace Blockchain

/-! ## The transactions of a block -/

/-- The `add_tx` call by which one taken transaction goes back. -/
def returnCall (hfVersion : UInt8) (t : BlockTx) : AddTxCall :=
  { tx := t.tx, id := t.id, blob := t.blob, txWeight := t.weight, txRelay := .block, relayed := true
    version := hfVersion, nicVerifiedHfVersion := hfVersion }

/-- `return_txs_to_pool`: the transactions that came from the pool are added back in turn. -/
def returnTxsToPool (E : Externals) (s : Blockchain) (now : UInt64) (w : TxLoop) : TxLoop :=
  let back := (w.txs.filter BlockTx.foundInPool).map
    (returnCall s.hardfork.getCurrentVersion)
  { w with
    pool := back.foldl (fun p c => (p.addTx E s.view c now {}).2.2) w.pool
    calls := w.calls ++ back.map PoolCall.add }

/-- A transaction of the block found in the pool or in the supplement. -/
def findTx (E : Externals) (w : TxLoop) (id : Hash) : Option (BlockTx × Bool × TxLoop) :=
  match w.pool.takeTx E id with
  | some (t, pool) =>
    some (⟨id, t.tx, t.blob, t.weight, t.fee, true⟩, t.pruned,
      { w with pool, calls := w.calls ++ [.take id t] })
  | none =>
    match w.supplement.txsByTxid.lookup id with
    | none => none
    | some (tx, blob) =>
      let weight := if tx.pruned then E.prunedTxWeight tx else E.txWeight tx blob.length
      let supplement := { w.supplement with txsByTxid := w.supplement.txsByTxid.erase id }
      some (⟨id, tx, blob, weight, tx.fee, false⟩, tx.pruned, { w with supplement })

/-- The loop of `handle_block_to_main_chain` over the transaction ids of the block. -/
def txLoop (E : Externals) (s : Blockchain) (fastCheck : Bool) :
    List Hash → TxLoop → Option BlockExit × TxLoop
  | [], w => (none, w)
  | id :: rest, w =>
    if s.db.txExists id then (some .txInBlockchain, w)
    else
      match findTx E w id with
      | none => (some .unknownTx, w)
      | some (t, pruned, w) =>
        let w := { w with
          txs := w.txs ++ [t], nPruned := if pruned then w.nPruned + 1 else w.nPruned }
        if !fastCheck && !(checkTxInputsCore E s.view t.tx {}).1 then (some .wrongInputs, w)
        else
          txLoop E s fastCheck rest
            { w with
              feeSummary := w.feeSummary + t.fee
              cumulativeBlockWeight := w.cumulativeBlockWeight + t.weight }

/-! ## One block -/

/-- `ver_non_input_consensus` of the supplement, which remembers the version it passed. -/
def verSupplement (E : Externals) (ps : PoolSupplement) (hfVersion : UInt8) :
    Bool × PoolSupplement :=
  if ps.nicVerifiedHfVersion = hfVersion then (true, ps)
  else
    let txs := ps.txsByTxid.entries.map fun e => e.2.1
    if (verNonInputConsensus E txs {} hfVersion).1 then
      (true, { ps with nicVerifiedHfVersion := hfVersion })
    else (false, ps)

/-- The compiled-in hash of the next height, when there is one. -/
def expectedHash (s : Blockchain) : Option Hash :=
  (s.blocksHashCheck[s.height]?).bind fun e => if e.1 = nullHash then none else some e.1

/-- The proof-of-work hash of a block: from the table of hashes computed beforehand, or
    computed now. -/
def proofOfWork (E : Externals) (s : Blockchain) (bl : Block) (id : Hash) : Hash :=
  (s.blocksLonghashTable.lookup id).getD
    (getBlockLonghash E.toSlowHashes E.seedEnv (some s.pendingBlockIdByHeight) bl s.height none)

/-- The checks made before the difficulty is asked for. -/
def headerExit (s : Blockchain) (bl : Block) (now : UInt64) : Option BlockExit :=
  if bl.prevId ≠ s.db.topBlockHash then some .wrongPrevId
  else if !s.hardfork.check bl then some .oldVersion
  else if !s.checkBlockTimestamp bl now then some .invalidTimestamp
  else none

/-- The checks between the difficulty and the transactions. -/
def workExit (E : Externals) (s : Blockchain) (bl : Block) (id : Hash) (ps : PoolSupplement)
    (diffic : Difficulty) : Option BlockExit :=
  let fastCheck := s.expectedHash.isSome
  if diffic = 0 then some .difficultyOverhead
  else if s.expectedHash.any (· ≠ id) then some .unexpectedHash
  else if !fastCheck && !Difficulty.checkHash (s.proofOfWork E bl id) diffic then
    some .notEnoughPow
  else if Checkpoints.isInCheckpointZone s.checkpoints s.height &&
      !(Checkpoints.checkBlock s.checkpoints s.height id).1 then some .checkpointFailed
  else if !prevalidateMinerTransaction bl s.height s.hardfork.getCurrentVersion then
    some .minerTxPrevalidation
  else if !fastCheck && !(verSupplement E ps s.hardfork.getCurrentVersion).1 then
    some .supplementValidation
  else none

/-- The weight a block with pruned transactions is recorded with, when it is known. -/
def precomputedWeight (s : Blockchain) : Option UInt64 :=
  (s.blocksHashCheck[s.height]?).bind fun e => if e.2 = 0 then none else some e.2

/-- The weight a block is checked and stored with. -/
def recordedWeight (s : Blockchain) (w : TxLoop) : UInt64 :=
  if w.nPruned > 0 then s.precomputedWeight.getD 0 else w.cumulativeBlockWeight

/-- The local variables before the first transaction, when the supplement has passed. -/
def startLoop (E : Externals) (s : Blockchain) (bl : Block) (ps : PoolSupplement) : TxLoop where
  pool := s.txPool
  supplement := if s.expectedHash.isSome then ps
    else (verSupplement E ps s.hardfork.getCurrentVersion).2
  txs := []
  feeSummary := 0
  cumulativeBlockWeight := E.txWeight bl.minerTx (E.txToBlob bl.minerTx).length
  nPruned := 0
  calls := []

/-- `already_generated_coins` of the chain. -/
def alreadyGeneratedCoins (s : Blockchain) : UInt64 :=
  (s.db.blocks.getLast?.map StoredBlock.coins).getD 0

/-- The coins after a block, capped at the money supply. -/
def addCoins (alreadyGeneratedCoins baseReward : UInt64) : UInt64 :=
  if baseReward < moneySupply - alreadyGeneratedCoins then alreadyGeneratedCoins + baseReward
  else moneySupply

/-- The record stored for an accepted block. -/
def storedBlock (E : Externals) (s : Blockchain) (bl : Block) (txs : List BlockTx)
    (weight baseReward : UInt64) (diffic : Difficulty) : StoredBlock where
  block := bl
  hash := E.blockHash bl
  minerTxHash := E.txHash bl.minerTx
  txs := txs.map fun t => (t.tx, t.blob)
  weight := weight
  longTermWeight := s.getNextLongTermBlockWeight weight
  cumulativeDifficulty :=
    diffic + ((s.db.blocks.getLast?.map StoredBlock.cumulativeDifficulty).getD 0)
  coins := addCoins s.alreadyGeneratedCoins baseReward

/-- The database with the block, and the hard fork state that has counted it. What `add` of the
    state machine returns is ignored. -/
def addBlockToDb (s : Blockchain) (b : StoredBlock) : Except DbError (BlockchainDB × HardFork) :=
  match s.db.addBlock b with
  | .error e => .error e
  | .ok db =>
    let r := s.hardfork.add db b.block s.height
    .ok (r.2.2, r.2.1)

/-- What follows a block that is in the database: the weight limit and the difficulty are
    brought up to date, and a change of version makes the pool check its transactions again.
    `newHeight` is what `add_block` returned, the height of the block. -/
def afterAddBlock (E : Externals) (s : Blockchain) (db : BlockchainDB) (hf : HardFork)
    (newHeight : Nat) (now : UInt64) : Blockchain :=
  let s' := (s.withChain db hf).updateNextCumulativeWeightLimit
  let s' := s'.withPool s'.txPool.onBlockchainChange
  let s' := s'.getDifficultyForNextBlock.2
  if hf.getCurrentVersion ≠ s.hardfork.getCurrentVersion ∧ newHeight ≠ 1 then
    s'.withPool (s'.txPool.validate E s'.view hf.getCurrentVersion now)
  else s'

/-- A return of false once the loop over the transactions has begun. -/
def leave (exit : BlockExit) (bvc : Bvc) (s : Blockchain) (w : TxLoop) : MainResult :=
  ⟨some exit, exit.mark bvc, s.withPool w.pool, w.supplement, w.calls⟩

/-- A block whose reward has been checked goes to the database. -/
def storeBlock (E : Externals) (s : Blockchain) (bl : Block) (now : UInt64) (bvc : Bvc)
    (diffic : Difficulty) (w : TxLoop) (baseReward : UInt64) : MainResult :=
  -- A block that failed earlier should not get here, and is not stored if it does.
  let added := if bvc.verifivationFailed then .ok (s.db, s.hardfork)
    else s.addBlockToDb (storedBlock E s bl w.txs (s.recordedWeight w) baseReward diffic)
  match added with
  | .error e => leave (.dbException e) bvc s.failBatch (returnTxsToPool E s now w)
  | .ok (db, hf) =>
    let newHeight := if bvc.verifivationFailed then 0 else s.height
    ⟨none, { bvc with addedToMainChain := true },
      (s.withPool w.pool).afterAddBlock E db hf newHeight now, w.supplement, w.calls⟩

/-- The end of `handle_block_to_main_chain`, once every transaction has been found and checked. -/
def finishBlock (E : Externals) (s : Blockchain) (bl : Block) (now : UInt64) (bvc : Bvc)
    (diffic : Difficulty) (w : TxLoop) : MainResult :=
  if w.nPruned > 0 && s.precomputedWeight.isNone then leave .prunedWithoutWeight bvc s w
  else
    match s.validateMinerTransaction bl (s.recordedWeight w) w.feeSummary s.alreadyGeneratedCoins
        s.hardfork.getCurrentVersion with
    | none =>
      leave .incorrectMinerTx { bvc with partialBlockReward := false } s
        (returnTxsToPool E s now w)
    | some (baseReward, partialReward) =>
      storeBlock E s bl now { bvc with partialBlockReward := partialReward } diffic w baseReward

/-- The part of `handle_block_to_main_chain` after the difficulty is known. -/
def handleBlockWork (E : Externals) (s : Blockchain) (bl : Block) (id : Hash) (bvc : Bvc)
    (ps : PoolSupplement) (now : UInt64) (diffic : Difficulty) : MainResult :=
  match s.workExit E bl id ps diffic with
  | some exit => ⟨some exit, exit.mark bvc, s, ps, []⟩
  | none =>
    match txLoop E s s.expectedHash.isSome bl.txHashes (startLoop E s bl ps) with
    | (some exit, w) =>
      let s := if exit = .wrongInputs then s.addBlockAsInvalid id else s
      leave exit bvc s (returnTxsToPool E s now w)
    | (none, w) => finishBlock E s bl now bvc diffic w

/-- `handle_block_to_main_chain`. -/
def handleBlockToMainChain (E : Externals) (s : Blockchain) (bl : Block) (id : Hash) (bvc : Bvc)
    (ps : PoolSupplement) (now : UInt64) : MainResult :=
  match s.headerExit bl now with
  | some exit => ⟨some exit, exit.mark bvc, s, ps, []⟩
  | none =>
    let query := s.getDifficultyForNextBlock
    query.2.handleBlockWork E bl id bvc ps now query.1

end Blockchain

end CocaineNode
