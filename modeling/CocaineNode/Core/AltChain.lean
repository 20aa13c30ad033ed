import CocaineNode.Core.Blockchain

/-!
# Alternative Chains

Blocks that do not extend the main chain, and the reorganisation that makes an
alternative chain the main one: `handle_alternative_block`,
`switch_to_alternative_blockchain`, `rollback_blockchain_switching` and
`pop_block_from_blockchain` of `cryptonote_core/blockchain.cpp`.

The first two call each other: an alternative block can trigger a
reorganisation, and a reorganisation offers every disconnected block as an
alternative block again. `altBlock` and `switchWith` each take the other as an
argument, and `handleAlternativeBlock` ties them together to a depth.

## Main definitions

* `Blockchain.popBlockFromBlockchain`: The top block removed.
* `Blockchain.getNextDifficultyForAlternativeChain`: Difficulty on a side chain.
-/

namespace CocaineNode

/-- The places at which `handle_alternative_block` returns false on its own. -/
inductive AltExit where
  | heightZero
  | notAllowed
  | oldVersion
  | brokenAltChain
  | invalidTimestamp
  | checkpointFailed
  | difficultyOverhead
  | notEnoughPow
  | incorrectMinerTx
  | supplementValidation
  | supplementNotInPool
  | txMetadataMissing
  | unparsableTx
  | alreadyExists
  deriving DecidableEq, Repr

/-- What the source writes to `bvc` at each exit. -/
def AltExit.mark : AltExit → Bvc → Bvc
  | .brokenAltChain, bvc => bvc
  | .difficultyOverhead, bvc => bvc
  | .alreadyExists, bvc => bvc
  | .notEnoughPow, bvc => { bvc with verifivationFailed := true, badPow := true }
  | _, bvc => { bvc with verifivationFailed := true }

/-- How a block offered as an alternative block ends. -/
inductive AltOutcome where
  | refused (exit : AltExit)
  | orphaned
  | stored
  | reorganised (switched : Bool)
  | threw
  deriving DecidableEq, Repr

/-- How a reorganisation ends. `rejected` carries the position of the block that was refused,
    and whether the rollback took every block back. -/
inductive SwitchOutcome where
  | emptyChain
  | notConnected
  | rejected (index : Nat) (rolledBack : Bool)
  | switched (pushes : List AltOutcome)
  | threw
  deriving DecidableEq, Repr

/-- The value `switch_to_alternative_blockchain` returns. -/
def SwitchOutcome.ret : SwitchOutcome → Bool
  | .switched _ => true
  | _ => false

structure AltResult where
  outcome : AltOutcome
  bvc : Bvc
  chain : Blockchain
  supplement : PoolSupplement

/-- `get_block_height`: what the miner transaction says, 0 when it does not. -/
def Block.height (b : Block) : Nat :=
  match b.minerTx.vin with
  | [.gen h] => h.toNat
  | _ => 0

/-- `is_coinbase`. -/
def Transaction.isCoinbase (tx : Transaction) : Bool :=
  match tx.vin with
  | [.gen _] => true
  | _ => false

/-- A transaction of the chain by its id. -/
def BlockchainDB.findTx? (db : BlockchainDB) (id : Hash) : Option (Transaction × Blob) :=
  db.blocks.findSome? fun b => ((b.block.txHashes.zip b.txs).find? fun e => e.1 = id).map Prod.snd

namespace Blockchain

/-! ## Removing blocks -/

/-- The windows of the difficulty cache given up, as every function here does first. -/
def resetDifficulties (s : Blockchain) : Blockchain :=
  s.withCache { s.difficultyCache with
    timestampsAndDifficultiesHeight := 0, resetTimestampsAndDifficultiesHeight := true }

/-- `m_blocks_longhash_table.clear()`. -/
def forgetLonghashes (s : Blockchain) : Blockchain :=
  { s with blocksLonghashTable := ∅ }

/-- `m_hardfork->reorganize_from_chain_height(height)`. -/
def reorganizeHardfork (s : Blockchain) (height : Nat) : Blockchain :=
  let r := s.hardfork.reorganizeFromChainHeight s.db height
  s.withChain r.2.2 r.2.1

/-- The state with another alternative store. -/
def withDb (s : Blockchain) (db : BlockchainDB) : Blockchain :=
  s.withChain db s.hardfork

/-- `add_tx(tx, tvc, tx_relay, relayed, version, nic_verified_hf_version)`, which serialises and
    hashes the transaction itself. -/
def addTxAgain (E : Externals) (s : Blockchain) (tx : Transaction) (version : UInt8)
    (now : UInt64) : Bool × Tvc × TxPool :=
  let blob := E.txToBlob tx
  if blob = [] then (false, {}, s.txPool)
  else
    s.txPool.addTx E s.view
      { tx, id := E.txHash tx, blob, txWeight := E.txWeight tx blob.length, txRelay := .block
        relayed := true, version, nicVerifiedHfVersion := version } now {}

/-- The popped transactions go back to the pool, except pruned ones and coinbases. -/
def returnPopped (E : Externals) (now : UInt64) (s : Blockchain) (tx : Transaction) : Blockchain :=
  if tx.pruned || tx.isCoinbase then s
  else s.withPool (s.addTxAgain E tx (s.hardfork.getIdealVersion s.height) now).2.2

/-- `pop_block_from_blockchain`; `none` when it throws, which it does on the genesis block. -/
def popBlockFromBlockchain (E : Externals) (s : Blockchain) (now : UInt64) :
    Option (Block × Blockchain) :=
  if s.height ≤ 1 then none
  else
    s.db.popBlock.map fun (top, db) =>
      let previous := s.hardfork.getCurrentVersion
      let s := s.resetDifficulties.withChain db (s.hardfork.onBlockPopped db 1)
      let s := (top.txs.map Prod.fst).reverse.foldl (returnPopped E now) s
      let s := s.forgetLonghashes.withPool s.txPool.onBlockchainChange
      let version := s.hardfork.getCurrentVersion
      let s := if version ≠ previous then s.withPool (s.txPool.validate E s.view version now) else s
      (top.block, s)

/-- `while (m_db->top_block_hash() != id)`: blocks are popped and collected, lowest first. The
    chain has fewer blocks after each turn, so its height bounds their number. -/
def popUntil (E : Externals) (id : Hash) (now : UInt64) :
    Nat → Blockchain → List Block → Option (List Block × Blockchain)
  | 0, _, _ => none
  | n + 1, s, popped =>
    if s.db.topBlockHash = id then some (popped, s)
    else
      match s.popBlockFromBlockchain E now with
      | none => none
      | some (b, s) => popUntil E id now n s (b :: popped)

/-- `while (m_db->height() != height)`. -/
def popToHeight (E : Externals) (height : Nat) (now : UInt64) : Nat → Blockchain → Option Blockchain
  | 0, _ => none
  | n + 1, s =>
    if s.height = height then some s
    else
      match s.popBlockFromBlockchain E now with
      | none => none
      | some (_, s) => popToHeight E height now n s

/-- `handle_block_to_main_chain(bl, bvc)` with no supplement. -/
def connect (E : Externals) (s : Blockchain) (bl : Block) (now : UInt64) : MainResult :=
  s.handleBlockToMainChain E bl (E.blockHash bl) {} {} now

/-- A block connected, as the callers see it: the state, and whether it was added. -/
def connected (r : MainResult) : Bool :=
  r.exit.isNone && r.bvc.addedToMainChain

/-- The blocks of a list connected in turn, up to the first that is refused. The number
    connected and the state. -/
def connectAll (E : Externals) (now : UInt64) : Blockchain → List Block → Nat × Blockchain
  | s, [] => (0, s)
  | s, b :: rest =>
    let r := s.connect E b now
    if connected r then
      let t := connectAll E now r.chain rest
      (t.1 + 1, t.2)
    else (0, r.chain)

/-- `rollback_blockchain_switching`: whether it reports success, and the state; `none` when it
    throws. -/
def rollbackBlockchainSwitching (E : Externals) (s : Blockchain) (original : List Block)
    (rollbackHeight : Nat) (now : UInt64) : Option (Bool × Blockchain) :=
  if rollbackHeight > s.height then some (true, s)
  else
    (popToHeight E rollbackHeight now (s.height + 1) s.resetDifficulties).map fun s =>
      let s := s.updateNextCumulativeWeightLimit.reorganizeHardfork rollbackHeight
      let t := connectAll E now s original
      if t.1 = original.length then (true, t.2.reorganizeHardfork rollbackHeight)
      else (false, t.2)

/-! ## The chain an alternative block belongs to -/

/-- The walk of `build_alt_chain` from a block of the store down to the main chain. Every turn
    consumes an entry of the store. -/
def altWalk (db : BlockchainDB) : Nat → Hash → List BlockExtendedInfo → List BlockExtendedInfo
  | 0, _, alt => alt
  | n + 1, id, alt =>
    match db.altBlocks.lookup id with
    | none => alt
    | some bei => altWalk db n bei.bl.prevId (bei :: alt)

/-- `complete_timestamps_vector`: main chain timestamps from `startTopHeight` down, up to 60 in
    all and without the genesis block. -/
def completeTimestampsVector (s : Blockchain) (startTopHeight : Nat) (timestamps : List UInt64) :
    List UInt64 :=
  if timestamps.length ≥ 60 ∨ startTopHeight ≥ s.height then timestamps
  else
    let need := 60 - timestamps.length
    let stop := startTopHeight - need
    let read := (s.db.blocks.take (startTopHeight + 1)).drop (stop + 1)
    timestamps ++ (read.map fun b => b.block.timestamp).reverse

/-- `build_alt_chain`: the alternative chain that ends in `prevId`, from the main chain up, and
    the timestamps of the blocks below the next one. -/
def buildAltChain (s : Blockchain) (prevId : Hash) :
    Option (List BlockExtendedInfo × List UInt64) :=
  let alt := altWalk s.db s.db.altBlocks.entries.length prevId []
  let timestamps := (alt.map fun bei => bei.bl.timestamp).reverse
  match alt with
  | front :: _ =>
    if s.height ≤ front.height then none
    else if front.height = 0 ∨ (s.db.ids[front.height - 1]?) ≠ some front.bl.prevId then none
    else
      let startTopHeight := (s.db.blockHeight? front.bl.prevId).getD 0
      some (alt, s.completeTimestampsVector startTopHeight timestamps)
  | [] =>
    match s.db.blockHeight? prevId with
    | none => none
    | some h => some ([], s.completeTimestampsVector h timestamps)

/-- The blocks `get_next_difficulty_for_alternative_chain` looks at, as timestamps and
    cumulative difficulties. -/
def altWindow (s : Blockchain) (alt : List BlockExtendedInfo) (height : Nat) :
    List (UInt64 × Difficulty) :=
  let altPart := alt.map fun bei => (bei.bl.timestamp, bei.cumulativeDifficulty)
  if alt.length < difficultyBlocksCount then
    let stop := (alt.head?.map BlockExtendedInfo.height).getD height
    let count := min (difficultyBlocksCount - min difficultyBlocksCount alt.length) stop
    let start := stop - count
    -- skip genesis block
    let start := if start = 0 then 1 else start
    ((s.db.blocks.take stop).drop start).map (fun b => (b.block.timestamp, b.cumulativeDifficulty))
      ++ altPart
  else altPart.drop (alt.length - difficultyBlocksCount)

/-- `get_next_difficulty_for_alternative_chain` for a block at `height` on top of `alt`. -/
def getNextDifficultyForAlternativeChain (s : Blockchain) (alt : List BlockExtendedInfo)
    (height : Nat) : Difficulty :=
  if s.fixedDifficulty ≠ 0 then (if s.height = 0 then 1 else s.fixedDifficulty)
  else
    let w := s.altWindow alt height
    if w.length > difficultyBlocksCount then 0
    else
      let target := if s.hardfork.getIdealVersion height < 2 then difficultyTargetV1
        else difficultyTargetV2
      Difficulty.nextDifficulty (w.map Prod.fst) (w.map Prod.snd) target

/-- The seed hash `handle_alternative_block` selects: from the alternative chain when the seed
    block is on it, from the main chain otherwise. -/
def altSeedHash (E : Externals) (s : Blockchain) (alt : List BlockExtendedInfo) (height : Nat) :
    Hash :=
  let seedheight := E.seedEnv.seedHeight height
  if alt.head?.any (fun front => front.height ≤ seedheight) then
    ((alt.find? fun bei => bei.height = seedheight + 1).map fun bei => bei.bl.prevId).getD nullHash
  else s.db.blockIdByHeight seedheight

/-- The proof-of-work hash `handle_alternative_block` checks. -/
def altProofOfWork (E : Externals) (s : Blockchain) (alt : List BlockExtendedInfo) (b : Block)
    (height : Nat) : Hash :=
  if b.majorVersion ≥ rxBlockVersion then
    getAltblockLonghash E.toSlowHashes b (s.altSeedHash E alt height)
  else
    getBlockLonghash E.toSlowHashes E.seedEnv (some s.pendingBlockIdByHeight) b height none

/-! ## One alternative block -/

/-- The checks before the parent is looked up. -/
def altHeaderExit (s : Blockchain) (b : Block) : Option AltExit :=
  if b.height = 0 then some .heightZero
  else if !Checkpoints.isAlternativeBlockAllowed s.checkpoints s.height b.height then
    some .notAllowed
  else if !s.hardfork.checkForHeight b b.height then some .oldVersion
  else none

/-- Height, coins and cumulative difficulty of the parent of an alternative block. -/
def altParent (s : Blockchain) (alt : List BlockExtendedInfo) (prevId : Hash) :
    Nat × UInt64 × Difficulty :=
  match alt.getLast? with
  | some last => (last.height, last.alreadyGeneratedCoins, last.cumulativeDifficulty)
  | none =>
    let h := (s.db.blockHeight? prevId).getD 0
    let b := s.db.blocks[h]?
    (h, (b.map StoredBlock.coins).getD 0, (b.map StoredBlock.cumulativeDifficulty).getD 0)

/-- The checks of an alternative block against the chain it belongs to. -/
def altWorkExit (E : Externals) (s : Blockchain) (b : Block) (id : Hash) (ps : PoolSupplement)
    (alt : List BlockExtendedInfo) (timestamps : List UInt64) (height : Nat) : Option AltExit :=
  let hfVersion := s.hardfork.getIdealVersion b.height
  let diff := s.getNextDifficultyForAlternativeChain alt height
  if !notBeforeMedian timestamps b then some .invalidTimestamp
  else if !(Checkpoints.checkBlock s.checkpoints height id).1 then some .checkpointFailed
  else if diff = 0 then some .difficultyOverhead
  else if !Difficulty.checkHash (s.altProofOfWork E alt b height) diff then some .notEnoughPow
  else if !prevalidateMinerTransaction b height hfVersion then some .incorrectMinerTx
  else if !(verSupplement E ps hfVersion).1 then some .supplementValidation
  else none

/-- The transactions of the supplement put in the pool, up to the first that does not enter. -/
def addSupplement (E : Externals) (hfVersion : UInt8) (now : UInt64) :
    List (Hash × Transaction) → Blockchain → Bool × Blockchain
  | [], s => (true, s)
  | (txid, tx) :: rest, s =>
    if s.txPool.txMatchesCategory txid .legacy || s.db.txExists txid then
      addSupplement E hfVersion now rest s
    else
      let r := s.addTxAgain E tx hfVersion now
      let s := s.withPool r.2.2
      if !r.1 || r.2.1.verifivationFailed then (false, s)
      else addSupplement E hfVersion now rest s

/-- The weight of an alternative block: 0 when a transaction is not known. -/
def altWeight (E : Externals) (s : Blockchain) : List Hash → UInt64 → Except AltExit UInt64
  | [], weight => .ok weight
  | txid :: rest, weight =>
    if s.txPool.txMatchesCategory txid .legacy then
      match s.txPool.txpool.lookup txid with
      | none => .error .txMetadataMissing
      | some (m, blob) =>
        if (s.txPool.parsedTxCache.lookup txid).isSome ||
            (if m.pruned then E.parseTxBase blob else E.parseTx blob).isSome then
          altWeight E s rest (weight + m.weight)
        else .error .txMetadataMissing
    else
      match s.db.findTx? txid with
      | none => .ok 0
      | some (_, blob) =>
        match E.parseTxBase blob with
        | none => .error .unparsableTx
        | some tx => altWeight E s rest (weight + E.prunedTxWeight tx)

/-- The part of `handle_alternative_block` after the checks: the supplement enters the pool, the
    block enters the store, and the chain it ends becomes the main one at a checkpoint or when it
    has more work. -/
def storeAltBlock (E : Externals)
    (reorganise : Blockchain → List BlockExtendedInfo → Bool → SwitchOutcome × Blockchain)
    (s : Blockchain) (b : Block) (id : Hash) (bvc : Bvc) (ps : PoolSupplement)
    (alt : List BlockExtendedInfo) (height : Nat) (now : UInt64) : AltResult :=
  let hfVersion := s.hardfork.getIdealVersion b.height
  let ps := (verSupplement E ps hfVersion).2
  let parent := s.altParent alt b.prevId
  let cumulative := parent.2.2 + s.getNextDifficultyForAlternativeChain alt height
  let mainCumulative := (s.db.blocks.getLast?.map StoredBlock.cumulativeDifficulty).getD 0
  let isACheckpoint := (Checkpoints.checkBlock s.checkpoints height id).2
  let refuse (exit : AltExit) (s : Blockchain) (ps : PoolSupplement) : AltResult :=
    ⟨.refused exit, exit.mark bvc, s, ps⟩
  match addSupplement E hfVersion now (ps.txsByTxid.entries.map fun e => (e.1, e.2.1)) s with
  | (false, s) => refuse .supplementNotInPool s ps
  | (true, s) =>
    let ps : PoolSupplement := {}
    match altWeight E s b.txHashes (E.txWeight b.minerTx (E.txToBlob b.minerTx).length) with
    | .error exit => refuse exit s ps
    | .ok weight =>
      let bei : BlockExtendedInfo :=
        { bl := b, height, blockCumulativeWeight := weight, cumulativeDifficulty := cumulative
          alreadyGeneratedCoins := addCoins parent.2.1 b.minerTx.outsMoneyAmount }
      match s.db.addAltBlock id bei with
      | none => refuse .alreadyExists s ps
      | some db =>
        let s := s.withDb db
        if isACheckpoint || mainCumulative < cumulative then
          let r := reorganise s (alt ++ [bei]) isACheckpoint
          let bvc := if r.1.ret then { bvc with addedToMainChain := true }
            else { bvc with verifivationFailed := true }
          ⟨if r.1 = .threw then .threw else .reorganised r.1.ret, bvc, r.2, ps⟩
        else ⟨.stored, bvc, s, ps⟩

/-- `handle_alternative_block`, given how to reorganise. -/
def altBlock (E : Externals)
    (reorganise : Blockchain → List BlockExtendedInfo → Bool → SwitchOutcome × Blockchain)
    (s : Blockchain) (b : Block) (id : Hash) (bvc : Bvc) (ps : PoolSupplement) (now : UInt64) :
    AltResult :=
  let s := s.resetDifficulties
  match s.altHeaderExit b with
  | some exit => ⟨.refused exit, exit.mark bvc, s, ps⟩
  | none =>
    if (s.db.altBlocks.lookup b.prevId).isNone && !s.db.blockExists b.prevId then
      ⟨.orphaned, { bvc with markedAsOrphaned := true }, s, ps⟩
    else
      match s.buildAltChain b.prevId with
      | none => ⟨.refused .brokenAltChain, bvc, s, ps⟩
      | some (alt, timestamps) =>
        let height := (s.altParent alt b.prevId).1 + 1
        match s.altWorkExit E b id ps alt timestamps height with
        | some exit => ⟨.refused exit, exit.mark bvc, s, ps⟩
        | none => storeAltBlock E reorganise s b id bvc ps alt height now

/-! ## Reorganisation -/

/-- Entries removed from the store; `none` when one is missing and the removal throws. -/
def removeAltBlocks (db : BlockchainDB) : List Hash → Option BlockchainDB
  | [] => some db
  | id :: rest => (db.removeAltBlock id).bind fun db => removeAltBlocks db rest

/-- The disconnected blocks offered as alternative blocks in turn. What they return is ignored,
    except that an exception ends the loop. -/
def pushDisconnected (push : Blockchain → Block → AltResult) :
    Blockchain → List Block → List AltOutcome × Blockchain
  | s, [] => ([], s)
  | s, b :: rest =>
    let r := push s b
    if r.outcome = .threw then ([.threw], r.chain)
    else
      let t := pushDisconnected push r.chain rest
      (r.outcome :: t.1, t.2)

/-- What follows when every block of the alternative chain has been connected. -/
def finishSwitch (E : Externals) (push : Blockchain → Block → AltResult) (s : Blockchain)
    (disconnected : List Block) (alt : List BlockExtendedInfo) (splitHeight : Nat)
    (discard : Bool) : SwitchOutcome × Blockchain :=
  let pushed := if discard then ([], s) else pushDisconnected push s disconnected
  if AltOutcome.threw ∈ pushed.1 then (.threw, pushed.2)
  else
    match removeAltBlocks pushed.2.db (alt.map fun bei => E.blockHash bei.bl) with
    | none => (.threw, pushed.2)
    | some db =>
      (.switched pushed.1, (pushed.2.withDb db).reorganizeHardfork splitHeight)

/-- What follows when the block at `index` of the alternative chain is refused. -/
def rejectSwitch (E : Externals) (s : Blockchain) (disconnected : List Block)
    (alt : List BlockExtendedInfo) (splitHeight index : Nat) (now : UInt64) :
    SwitchOutcome × Blockchain :=
  match rollbackBlockchainSwitching E s disconnected splitHeight now with
  | none => (.threw, s)
  | some (ok, s) =>
    match removeAltBlocks s.db ((alt.drop index).map fun bei => E.blockHash bei.bl) with
    | none => (.threw, s)
    | some db => (.rejected index ok, s.withDb db)

/-- `switch_to_alternative_blockchain`, given how to offer an alternative block. -/
def switchWith (E : Externals) (push : Blockchain → Block → AltResult) (s : Blockchain)
    (alt : List BlockExtendedInfo) (discard : Bool) (now : UInt64) : SwitchOutcome × Blockchain :=
  let s := s.resetDifficulties
  match alt with
  | [] => (.emptyChain, s)
  | front :: _ =>
    if !s.db.blockExists front.bl.prevId then (.notConnected, s)
    else
      match popUntil E front.bl.prevId now (s.height + 1) s [] with
      | none => (.threw, s)
      | some (disconnected, s) =>
        let s := s.updateNextCumulativeWeightLimit
        let splitHeight := s.height
        let t := connectAll E now s (alt.map BlockExtendedInfo.bl)
        if t.1 = alt.length then finishSwitch E push t.2 disconnected alt splitHeight discard
        else rejectSwitch E t.2 disconnected alt splitHeight t.1 now

/-- `handle_alternative_block`. `depth` bounds how far reorganisations may trigger one another;
    past it the call does not come back. -/
def handleAlternativeBlock (E : Externals) (now : UInt64) :
    Nat → Blockchain → Block → Hash → Bvc → PoolSupplement → AltResult
  | 0, s, b, id, bvc, ps => altBlock E (fun s _ _ => (.threw, s)) s b id bvc ps now
  | depth + 1, s, b, id, bvc, ps =>
    altBlock E
      (fun s alt discard =>
        switchWith E (fun s b => handleAlternativeBlock E now depth s b (E.blockHash b) {} {})
          s alt discard now)
      s b id bvc ps now

/-- `switch_to_alternative_blockchain`. -/
def switchToAlternativeBlockchain (E : Externals) (now : UInt64) (depth : Nat) (s : Blockchain)
    (alt : List BlockExtendedInfo) (discard : Bool) : SwitchOutcome × Blockchain :=
  switchWith E (fun s b => handleAlternativeBlock E now depth s b (E.blockHash b) {} {}) s alt
    discard now

end Blockchain

end CocaineNode
