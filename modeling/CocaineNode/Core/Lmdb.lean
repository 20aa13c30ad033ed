import CocaineNode.Core.Pruning
import CocaineNode.Core.Serialization
import CocaineNode.Lib.SortedTable

/-!
# The Tables of the Database

`blockchain_db.cpp` and `lmdb/db_lmdb.cpp`: how a block and its transactions are
written into the tables, taken out again and pruned.

A table is a `SortedTable`. Where LMDB has a dummy key and the real key in front
of the data, the real key is the key here. Ids, heights and indices are numbers,
since they count records. The outputs of an amount are a table of their own.
`MDB_APPEND` and `MDB_APPENDDUP` refuse a key that is not behind all others.

A call that throws leaves nothing behind: `pop_block` aborts its transaction, and
whoever calls `add_block` does. What a value that cannot be written looks like in
the tables is not modelled, so such a call throws as well, and so does one that
would read outside of an array. The versions of the hard fork are recorded by the
caller.

## Main definitions

* `Lmdb.Tables`: The tables.
* `Lmdb.addBlock`, `Lmdb.popBlock`: A block on top, with its transactions.
-/

namespace CocaineNode

namespace Lmdb

open Wire Pruning

/-- Hashes and key images are keys. -/
scoped instance instLinearOrderHash : LinearOrder (BitVec 256) where
  le_refl := fun a => Nat.le_refl a.toNat
  le_trans := fun _ _ _ h h' => Nat.le_trans h h'
  le_antisymm := fun _ _ h h' => BitVec.eq_of_toNat_eq (Nat.le_antisymm h h')
  le_total := fun a b => Nat.le_total a.toNat b.toNat
  lt_iff_le_not_ge := fun _ _ => Nat.lt_iff_le_and_not_ge
  toDecidableLE := inferInstance
  toDecidableEq := inferInstance

/-- The primitives that are abstract here. -/
structure Primitives extends Wire.Crypto where
  getBlockHash : Wire.Block → Hash
  zeroCommit : UInt64 → Key

/-- What is thrown. -/
inductive Exn where
  | blockExists (what : String)
  | blockDne (what : String)
  | blockParentDne (what : String)
  | txExists (what : String)
  | txDne (what : String)
  | outputDne (what : String)
  | keyImageExists (what : String)
  | dbError (what : String)
  | runtimeError (what : String)
  /-- A value cannot be written. -/
  | notWritten
  /-- An array is read outside of its bounds. -/
  | outOfBounds
  deriving DecidableEq, Repr

/-- The value, or an exception. -/
def orThrow {α : Type} (e : Exn) : Option α → Except Exn α
  | some a => .ok a
  | none => .error e

/-- `mdb_block_info`, behind its height. -/
structure BlockInfo where
  timestamp : UInt64
  coins : UInt64
  weight : UInt64
  diff : Difficulty
  hash : Hash
  cumRct : UInt64
  longTermBlockWeight : UInt64
  deriving DecidableEq, Repr

/-- `tx_data_t`. -/
structure TxData where
  txId : Nat
  unlockTime : UInt64
  blockId : Nat
  deriving DecidableEq, Repr

/-- `outkey`, behind the index. A `pre_rct_outkey` has no commitment. -/
structure Outkey where
  outputId : Nat
  pubkey : PublicKey
  unlockTime : UInt64
  height : Nat
  commitment : Option Key
  deriving DecidableEq, Repr

/-- `outtx`, behind the id of the output. -/
structure Outtx where
  txHash : Hash
  localIndex : Nat
  deriving DecidableEq, Repr

/-- The tables. -/
structure Tables where
  blocks : SortedTable Nat Blob
  blockInfo : SortedTable Nat BlockInfo
  blockHeights : SortedTable Hash Nat
  txIndices : SortedTable Hash TxData
  txsPruned : SortedTable Nat Blob
  txsPrunable : SortedTable Nat Blob
  txsPrunableHash : SortedTable Nat Hash
  txsPrunableTip : SortedTable Nat Nat
  txOutputs : SortedTable Nat (List Nat)
  outputTxs : SortedTable Nat Outtx
  outputAmounts : UInt64 → SortedTable Nat Outkey
  spentKeys : SortedTable KeyImage Unit
  /-- `pruning_seed` of the properties. -/
  pruningSeed : Option UInt32

/-- A new database. -/
def Tables.empty : Tables where
  blocks := .empty
  blockInfo := .empty
  blockHeights := .empty
  txIndices := .empty
  txsPruned := .empty
  txsPrunable := .empty
  txsPrunableHash := .empty
  txsPrunableTip := .empty
  txOutputs := .empty
  outputTxs := .empty
  outputAmounts := fun _ => .empty
  spentKeys := .empty
  pruningSeed := none

variable (C : Primitives) (db : Tables)

/-- `height`. -/
def height : Nat :=
  db.blocks.count

/-- `get_tx_count`. -/
def getTxCount : Nat :=
  db.txsPruned.count

/-- `num_outputs`. -/
def numOutputs : Nat :=
  match db.outputTxs.last? with
  | none => 0
  | some (outputId, _) => 1 + outputId

/-- `get_blockchain_pruning_seed`. -/
def getBlockchainPruningSeed : UInt32 :=
  db.pruningSeed.getD 0

/-! ## Transactions are added -/

/-- `add_spent_key`. -/
def addSpentKey (kImage : KeyImage) : Except Exn Tables :=
  match db.spentKeys.get? kImage with
  | some _ =>
    .error (.keyImageExists "Attempting to add spent key image that's already in the db")
  | none => .ok { db with spentKeys := db.spentKeys.put kImage () }

/-- `unprunable_size` of `add_transaction_data`, which is an `unsigned int`. -/
def unprunableSize (tx : Wire.Transaction) : Except Exn Nat :=
  if tx.unprunableSize = 0 then
    match serializeBase.write tx with
    | none => .error (.dbError "Failed to serialize pruned tx")
    | some bytes => .ok (bytes.length % 2 ^ 32)
  else .ok tx.unprunableSize.toNat

/-- The hash of the prunable data is kept for transactions behind version 1. -/
def addPrunableHash (tx : Wire.Transaction) (txId : Nat) (txPrunableHash : Hash) :
    Except Exn (SortedTable Nat Hash) :=
  if 1 < tx.version then
    orThrow (.dbError "Failed to add prunable tx prunable hash to db transaction: ")
      (db.txsPrunableHash.append? txId txPrunableHash)
  else .ok db.txsPrunableHash

/-- `add_transaction_data`: the id of the transaction. -/
def addTransactionData (tx : Wire.Transaction) (blob : Blob) (txHash txPrunableHash : Hash) :
    Except Exn (Nat × Tables) := do
  let txId := getTxCount db
  if (db.txIndices.get? txHash).isSome then
    throw (.txExists "Attempting to add transaction that's already in the db (tx id ")
  let txIndices := db.txIndices.put txHash ⟨txId, tx.unlockTime, height db⟩
  let size ← unprunableSize tx
  if blob.length < size then throw (.dbError "pruned tx size is larger than tx size")
  let txsPruned ← orThrow (.dbError "Failed to add pruned tx blob to db transaction: ")
    (db.txsPruned.append? txId (blob.take size))
  let txsPrunable ← orThrow (.dbError "Failed to add prunable tx blob to db transaction: ")
    (db.txsPrunable.append? txId (blob.drop size))
  let txsPrunableTip :=
    if getBlockchainPruningSeed db ≠ 0 then db.txsPrunableTip.put txId (height db)
    else db.txsPrunableTip
  let txsPrunableHash ← addPrunableHash db tx txId txPrunableHash
  return (txId, { db with txIndices, txsPruned, txsPrunable, txsPrunableTip, txsPrunableHash })

/-- `add_output`: the index of the output among those of its amount. -/
def addOutput (txHash : Hash) (txOutput : TxOut) (localIndex : Nat) (unlockTime : UInt64)
    (commitment : Option Key) : Except Exn (Nat × Tables) := do
  let outputPublicKey ← orThrow (.dbError "Could not get an output public key from a tx output.")
    txOutput.target.publicKey?
  if txOutput.amount = 0 ∧ commitment = none then
    throw (.dbError "RCT output without commitment")
  let outputId := numOutputs db
  let outputTxs ← orThrow (.dbError "Failed to add output tx hash to db transaction: ")
    (db.outputTxs.append? outputId ⟨txHash, localIndex⟩)
  let amountIndex := (db.outputAmounts txOutput.amount).count
  let outkey : Outkey :=
    { outputId
      pubkey := outputPublicKey
      unlockTime
      height := height db
      commitment := if txOutput.amount = 0 then commitment else none }
  let outputs ← orThrow (.dbError "Failed to add output pubkey to db transaction: ")
    ((db.outputAmounts txOutput.amount).append? amountIndex outkey)
  return (amountIndex,
    { db with
      outputTxs
      outputAmounts := Function.update db.outputAmounts txOutput.amount outputs })

/-- `add_tx_amount_output_indices`. -/
def addTxAmountOutputIndices (txId : Nat) (amountOutputIndices : List Nat) : Except Exn Tables := do
  let txOutputs ← orThrow
    (.dbError "Failed to add <tx hash, amount output index array> to db transaction: ")
    (db.txOutputs.append? txId amountOutputIndices)
  return { db with txOutputs }

/-- The loop of `add_transaction` over the inputs. -/
def addInputs (db : Tables) : List TxIn → Except Exn Tables
  | [] => .ok db
  | .toKey _ _ kImage :: rest => do
      let db ← addSpentKey db kImage
      addInputs db rest
  | .gen _ :: rest => addInputs db rest
  | _ :: _ => .error (.runtimeError "Unexpected input type, aborting")

/-- `miner_tx` of `add_transaction`: there is an input of type `txin_gen`. -/
def hasGenInput (vin : List TxIn) : Bool :=
  vin.any fun i => match i with | .gen _ => true | _ => false

/-- The commitment of an output. -/
def outputCommitment (tx : Wire.Transaction) (i : Nat) : Except Exn (Option Key) :=
  if 1 < tx.version then
    match tx.rctSignatures.outPk[i]? with
    | some outPk => .ok (some outPk.mask)
    | none => .error .outOfBounds
  else .ok none

/-- One turn of the loop of `add_transaction` over the outputs. Those of a miner transaction of
    version 2 are stored as if they were confidential, with a mask that is known. -/
def addTxOutput (tx : Wire.Transaction) (txHash : Hash) (i : Nat) (out : TxOut) :
    Except Exn (Nat × Tables) :=
  if hasGenInput tx.vin ∧ tx.version = 2 then
    addOutput db txHash { out with amount := 0 } i tx.unlockTime (some (C.zeroCommit out.amount))
  else do
    let commitment ← outputCommitment tx i
    addOutput db txHash out i tx.unlockTime commitment

/-- The loop of `add_transaction` over the outputs, from the output at an index on. -/
def addOutputs (tx : Wire.Transaction) (txHash : Hash) (db : Tables) (i : Nat) :
    List TxOut → Except Exn (List Nat × Tables)
  | [] => .ok ([], db)
  | out :: rest => do
      let (index, db) ← addTxOutput C db tx txHash i out
      let (indices, db) ← addOutputs tx txHash db (i + 1) rest
      return (index :: indices, db)

/-- The hash that is given, or the one of the transaction. -/
def txHashOf (tx : Wire.Transaction) : Option Hash → Except Exn Hash
  | some txHash => .ok txHash
  | none =>
    orThrow (.runtimeError "Failed to calculate transaction hash")
      (calculateTransactionHash C.toCrypto tx)

/-- The hash of the prunable data, from version 2 on. -/
def txPrunableHashOf (tx : Wire.Transaction) (blob : Blob) : Except Exn Hash :=
  if 2 ≤ tx.version then
    orThrow (.runtimeError "Failed to calculate tx prunable hash")
      (calculateTransactionPrunableHash C.toCrypto tx (some blob))
  else .ok nullHash

/-- `add_transaction`. -/
def addTransaction (tx : Wire.Transaction) (blob : Blob) (txHashPtr : Option Hash) :
    Except Exn Tables := do
  let txHash ← txHashOf C tx txHashPtr
  let txPrunableHash ← txPrunableHashOf C tx blob
  let db ← addInputs db tx.vin
  let (txId, db) ← addTransactionData db tx blob txHash txPrunableHash
  let (amountOutputIndices, db) ← addOutputs C tx txHash db 0 tx.vout
  addTxAmountOutputIndices db txId amountOutputIndices

/-! ## Blocks are added -/

/-- What is recorded with a block. -/
structure Weights where
  blockWeight : UInt64
  longTermBlockWeight : UInt64
  cumulativeDifficulty : Difficulty
  coinsGenerated : UInt64
  deriving DecidableEq, Repr

/-- The parent of a block is the top block. -/
def checkParent (blk : Wire.Block) : Except Exn Unit :=
  if 0 < height db then
    match db.blockHeights.get? blk.prevId with
    | none =>
      .error (.dbError "Failed to get top block hash to check for new block's parent: ")
    | some prevHeight =>
      if prevHeight ≠ height db - 1 then
        .error (.blockParentDne "Top block is not new block's parent")
      else .ok ()
  else .ok ()

/-- `bi_cum_rct`. -/
def cumRct (blk : Wire.Block) (numRctOuts : UInt64) : Except Exn UInt64 :=
  if 4 ≤ blk.majorVersion ∧ 0 < height db then
    match db.blockInfo.get? (height db - 1) with
    | none => .error (.blockDne "Failed to get block info: ")
    | some info => .ok (numRctOuts + info.cumRct)
  else .ok numRctOuts

/-- `BlockchainLMDB::add_block`. -/
def addBlockData (blk : Wire.Block) (w : Weights) (numRctOuts : UInt64) (blkHash : Hash) :
    Except Exn Tables := do
  if (db.blockHeights.get? blkHash).isSome then
    throw (.blockExists "Attempting to add block that's already in the db")
  checkParent db blk
  let blob ← orThrow .notWritten (blockToBlob blk)
  let blocks ← orThrow (.dbError "Failed to add block blob to db transaction: ")
    (db.blocks.append? (height db) blob)
  let cumRct ← cumRct db blk numRctOuts
  let info : BlockInfo :=
    { timestamp := blk.timestamp
      coins := w.coinsGenerated
      weight := w.blockWeight
      diff := w.cumulativeDifficulty
      hash := blkHash
      cumRct
      longTermBlockWeight := w.longTermBlockWeight }
  let blockInfo ← orThrow (.dbError "Failed to add block info to db transaction: ")
    (db.blockInfo.append? (height db) info)
  return { db with
    blocks
    blockInfo
    blockHeights := db.blockHeights.put blkHash (height db) }

/-- The loop of `add_block` over the transactions behind the miner transaction. -/
def addTransactions (db : Tables) : List ((Wire.Transaction × Blob) × Hash) → Except Exn Tables
  | [] => .ok db
  | ((tx, blob), txHash) :: rest => do
      let db ← addTransaction C db tx blob (some txHash)
      addTransactions db rest

/-- `num_rct_outs`. -/
def numRctOuts (blk : Wire.Block) (txs : List (Wire.Transaction × Blob)) : UInt64 :=
  UInt64.ofNat ((if blk.minerTx.version = 2 then blk.minerTx.vout.length else 0) +
    (txs.flatMap fun tx => tx.1.vout.filter fun out => out.amount = 0).length)

/-- `BlockchainDB::add_block`. -/
def addBlock (blk : Wire.Block) (w : Weights) (txs : List (Wire.Transaction × Blob)) :
    Except Exn Tables := do
  if blk.txHashes.length ≠ txs.length then
    throw (.runtimeError "Inconsistent tx/hashes sizes")
  let minerBlob ← orThrow .notWritten (txToBlob blk.minerTx)
  let db ← addTransaction C db blk.minerTx minerBlob none
  let db ← addTransactions C db (txs.zip blk.txHashes)
  addBlockData db blk w (numRctOuts blk txs) (C.getBlockHash blk)

/-! ## Reading one thing -/

/-- `get_block_from_height`. -/
def getBlockFromHeight (h : Nat) : Except Exn Wire.Block := do
  let blob ← orThrow (.blockDne "Attempt to get block from height ") (db.blocks.get? h)
  orThrow (.dbError "Failed to parse block from blob retrieved from the db")
    (parseAndValidateBlockFromBlob blob).2

/-- `get_pruned_tx_blob`. -/
def getPrunedTxBlob (h : Hash) : Option Blob := do
  let data ← db.txIndices.get? h
  db.txsPruned.get? data.txId

/-- `get_tx_blob`. -/
def getTxBlob (h : Hash) : Option Blob := do
  let data ← db.txIndices.get? h
  let pruned ← db.txsPruned.get? data.txId
  let prunable ← db.txsPrunable.get? data.txId
  return pruned ++ prunable

/-- `get_pruned_tx`, without a value when there is none. -/
def getPrunedTx? (h : Hash) : Except Exn (Option Wire.Transaction) :=
  match getPrunedTxBlob db h with
  | none => .ok none
  | some blob =>
    match parseAndValidateTxBaseFromBlob C.toCrypto blob with
    | none => .error (.dbError "Failed to parse transaction base from blob retrieved from the db")
    | some tx => .ok (some tx)

/-- `get_tx`, without a value when there is none. -/
def getTx? (h : Hash) : Except Exn (Option Wire.Transaction) :=
  match getTxBlob db h with
  | none => .ok none
  | some blob =>
    match (parseAndValidateTxFromBlob C.toCrypto blob).2 with
    | none => .error (.dbError "Failed to parse transaction from blob retrieved from the db")
    | some tx => .ok (some tx)

/-! ## The top block is removed -/

/-- `remove_block`, with the cursor on the blocks at a height. -/
def removeBlock (cursor : Nat) : Except Exn Tables := do
  if height db = 0 then
    throw (.blockDne "Attempting to remove block from an empty blockchain")
  let info ← orThrow (.blockDne "Attempting to remove block that's not in the db: ")
    (db.blockInfo.get? (height db - 1))
  let _ ← orThrow (.dbError "Failed to locate block height by hash for removal: ")
    (db.blockHeights.get? info.hash)
  return { db with
    blockHeights := db.blockHeights.erase info.hash
    blocks := db.blocks.erase cursor
    blockInfo := db.blockInfo.erase (height db - 1) }

/-- `remove_output`. -/
def removeOutput (amount : UInt64) (outIndex : Nat) : Except Exn Tables := do
  let outkey ← orThrow (.outputDne
    "Attempting to get an output index by amount and amount index, but amount not found")
    ((db.outputAmounts amount).get? outIndex)
  let _ ← orThrow (.dbError "Unexpected: global output index not found in m_output_txs")
    (db.outputTxs.get? outkey.outputId)
  return { db with
    outputTxs := db.outputTxs.erase outkey.outputId
    outputAmounts :=
      Function.update db.outputAmounts amount ((db.outputAmounts amount).erase outIndex) }

/-- `is_pseudo_rct` of `remove_tx_outputs`. -/
def isPseudoRct (tx : Wire.Transaction) : Bool :=
  2 ≤ tx.version && tx.isCoinbase

/-- The loop of `remove_tx_outputs`, which starts at the last output. -/
def removeOutputs (tx : Wire.Transaction) (db : Tables) : List (TxOut × Nat) → Except Exn Tables
  | [] => .ok db
  | (out, index) :: rest => do
      let db ← removeOutputs tx db rest
      removeOutput db (if isPseudoRct tx then 0 else out.amount) index

/-- `remove_tx_outputs`. -/
def removeTxOutputs (txId : Nat) (tx : Wire.Transaction) : Except Exn Tables := do
  let amountOutputIndices ← orThrow .outOfBounds (db.txOutputs.get? txId)
  if amountOutputIndices = [] ∧ tx.vout ≠ [] then
    throw (.dbError "tx has outputs, but no output indices found")
  if amountOutputIndices.length < tx.vout.length then throw .outOfBounds
  removeOutputs tx db (tx.vout.zip amountOutputIndices)

/-- The hash of the prunable data is removed. -/
def removePrunableHash (tx : Wire.Transaction) (txId : Nat) : Except Exn (SortedTable Nat Hash) :=
  if 1 < tx.version then do
    let _ ← orThrow (.dbError "Failed to locate prunable hash tx for removal: ")
      (db.txsPrunableHash.get? txId)
    return db.txsPrunableHash.erase txId
  else .ok db.txsPrunableHash

/-- `remove_transaction_data`. -/
def removeTransactionData (txHash : Hash) (tx : Wire.Transaction) : Except Exn Tables := do
  let data ← orThrow (.txDne "Attempting to remove transaction that isn't in the db")
    (db.txIndices.get? txHash)
  let _ ← orThrow (.dbError "Failed to locate pruned tx for removal: ")
    (db.txsPruned.get? data.txId)
  let db := { db with
    txsPruned := db.txsPruned.erase data.txId
    txsPrunable := db.txsPrunable.erase data.txId
    txsPrunableTip := db.txsPrunableTip.erase data.txId }
  let txsPrunableHash ← removePrunableHash db tx data.txId
  let db ← removeTxOutputs { db with txsPrunableHash } data.txId tx
  return { db with
    txOutputs := db.txOutputs.erase data.txId
    txIndices := db.txIndices.erase txHash }

/-- The loop of `remove_transaction` over the inputs, with `remove_spent_key`. -/
def removeInputs (vin : List TxIn) : Tables :=
  { db with
    spentKeys := vin.foldl (fun keys i =>
      match i with
      | .toKey _ _ kImage => keys.erase kImage
      | _ => keys) db.spentKeys }

/-- `remove_transaction`. -/
def removeTransaction (txHash : Hash) : Except Exn Tables := do
  match ← getPrunedTx? C db txHash with
  | none => throw (.txDne "pruned tx with hash ")
  | some tx => removeTransactionData (removeInputs db tx.vin) txHash tx

/-- A transaction, in pruned form if its prunable data is gone. -/
def getTxOrPruned (h : Hash) : Except Exn Wire.Transaction := do
  match ← getTx? C db h with
  | some tx => return tx
  | none =>
    match ← getPrunedTx? C db h with
    | some tx => return tx
    | none => throw (.dbError "Failed to get pruned or unpruned transaction from the db")

/-- The loop of `pop_block`, for the hashes in the order in which they are taken. -/
def popTransactions (db : Tables) : List Hash → Except Exn (List Wire.Transaction × Tables)
  | [] => .ok ([], db)
  | h :: rest => do
      let tx ← getTxOrPruned C db h
      let db ← removeTransaction C db h
      let (txs, db) ← popTransactions db rest
      return (tx :: txs, db)

/-- `pop_block`: the block, and its transactions from the last to the first. -/
def popBlock : Except Exn (Wire.Block × List Wire.Transaction × Tables) := do
  -- A default block in place of the top block of an empty chain comes to the same exception.
  if height db = 0 then
    throw (.blockDne "Attempting to remove block from an empty blockchain")
  let blk ← getBlockFromHeight db (height db - 1)
  let db ← removeBlock db (height db - 1)
  let (txs, db) ← popTransactions C db blk.txHashes.reverse
  let minerHash ← txHashOf C blk.minerTx none
  let db ← removeTransaction C db minerHash
  return (blk, txs, db)

/-! ## Pruning -/

/-- The modes of `prune_worker`. -/
inductive PruneMode where
  | prune
  | update
  | check
  deriving DecidableEq, Repr

/-- `is_v1_tx` of the transaction with an id. -/
def isV1Tx (txId : Nat) : Except Exn Bool := do
  let blob ← orThrow (.dbError "Failed to find transaction pruned data: ")
    (db.txsPruned.get? txId)
  if blob = [] then throw (.dbError "Invalid transaction pruned data")
  let (version, _) ← orThrow (.runtimeError "Internal error getting transaction version")
    (varint64.read blob).value
  return version ≤ 1

/-- `block_height + CRYPTONOTE_PRUNING_TIP_BLOCKS < blockchain_height`, in 64 bits. -/
def belowTip (blockHeight blockchainHeight : Nat) : Bool :=
  UInt64.ofNat blockHeight + pruningTipBlocks < UInt64.ofNat blockchainHeight

/-- The prunable data of the transaction of a block is to be deleted. -/
def isPrunable (pruningSeed : UInt32) (txId blockHeight : Nat) : Except Exn Bool :=
  if hasUnprunedBlock (UInt64.ofNat blockHeight) (UInt64.ofNat (height db)) pruningSeed then
    .ok false
  else do
    let v1 ← isV1Tx db txId
    return !v1

/-- The loop over the table of the tip. A cursor that is opened again after a commit starts at the
    first record, but those that were left are left again. -/
def pruneTip (pruningSeed : UInt32) (db : Tables) : List (Nat × Nat) → Except Exn Tables
  | [] => .ok db
  | (txId, blockHeight) :: rest => do
      if belowTip blockHeight (height db) then
        let prunable ← isPrunable db pruningSeed txId blockHeight
        let db := { db with
          txsPrunable := if prunable then db.txsPrunable.erase txId else db.txsPrunable
          txsPrunableTip := db.txsPrunableTip.erase txId }
        pruneTip pruningSeed db rest
      else pruneTip pruningSeed db rest

/-- The loop over all transactions. -/
def pruneAll (mode : PruneMode) (pruningSeed : UInt32) (db : Tables) :
    List (Hash × TxData) → Except Exn Tables
  | [] => .ok db
  | (_, data) :: rest => do
      let prunable ← isPrunable db pruningSeed data.txId data.blockId
      let db :=
        if mode = .check then db
        else
          { db with
            txsPrunable := if prunable then db.txsPrunable.erase data.txId else db.txsPrunable
            txsPrunableTip :=
              if belowTip data.blockId (height db) then db.txsPrunableTip
              else db.txsPrunableTip.put data.txId data.blockId }
      pruneAll mode pruningSeed db rest

/-- `get_random_stripe`. -/
def getRandomStripe (random : UInt8) : UInt32 :=
  1 + (random % 8).toUInt32

/-- The stripe that is asked for, 0 for none. -/
def askedStripe (pruningSeed : UInt32) : Except Exn UInt32 := do
  let logStripes := getPruningLogStripes pruningSeed
  if logStripes ≠ 0 ∧ logStripes ≠ pruningLogStripes then
    throw (.dbError "Pruning seed not in range")
  let stripe := getPruningStripe pruningSeed
  if stripe > 1 <<< pruningLogStripes then throw (.dbError "Pruning seed not in range")
  return stripe

/-- `prune_worker`, with what the random generator gives. -/
def pruneWorker (mode : PruneMode) (pruningSeed : UInt32) (random : UInt8) : Except Exn Tables := do
  let stripe ← askedStripe pruningSeed
  match db.pruningSeed with
  | none =>
    if mode ≠ .prune then return db
    let stripe := if stripe = 0 then getRandomStripe random else stripe
    let seed ← orThrow (.runtimeError "stripe out of range")
      (makePruningSeed stripe pruningLogStripes)
    pruneAll mode seed { db with pruningSeed := some seed } db.txIndices.entries
  | some data =>
    let stripe := if stripe = 0 then getPruningStripe data else stripe
    if getPruningStripe data ≠ stripe then
      throw (.dbError "Blockchain already pruned with different seed")
    if getPruningLogStripes data ≠ pruningLogStripes then
      throw (.dbError "Blockchain already pruned with different base")
    let seed ← orThrow (.runtimeError "stripe out of range")
      (makePruningSeed stripe pruningLogStripes)
    if mode = .update then pruneTip seed db db.txsPrunableTip.entries
    else pruneAll mode seed db db.txIndices.entries

/-- `prune_blockchain`. -/
def pruneBlockchain (pruningSeed : UInt32) (random : UInt8) : Except Exn Tables :=
  pruneWorker db .prune pruningSeed random

/-- `update_pruning`. -/
def updatePruning (random : UInt8) : Except Exn Tables :=
  pruneWorker db .update 0 random

end Lmdb

end CocaineNode
