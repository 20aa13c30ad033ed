import CocaineNode.Core.Types
import Mathlib.Data.List.AList
import Mathlib.Data.List.Chain

/-!
# The Block Database

The tables of `BlockchainDB` (`blockchain_db/blockchain_db.cpp` and the LMDB
implementation) that the chain logic reads and writes: the blocks by height
with their recorded metadata, the hard fork version recorded for each height,
and the store of alternative blocks.

The index tables (block ids, transaction ids, spent key images) are not kept
apart. They are functions of the stored blocks, so a block that is removed
takes its entries with it. `BlockchainDB` carries the two facts the LMDB layer
checks before it writes a block: no id occurs twice, and every block names the
one below it as its parent.

## Theorems

* `BlockchainDB.addBlock_ok`: What an accepted block leaves behind.
-/

namespace CocaineNode

/-- What `add_block` records for one height. -/
structure StoredBlock where
  block : Block
  hash : Hash
  minerTxHash : Hash
  txs : List (Transaction × Blob)
  weight : UInt64
  longTermWeight : UInt64
  cumulativeDifficulty : Difficulty
  coins : UInt64
  deriving DecidableEq, Repr

/-- `block_extended_info`, which `alt_block_data_t` stores beside the block. -/
structure BlockExtendedInfo where
  bl : Block
  height : Nat
  blockCumulativeWeight : UInt64
  cumulativeDifficulty : Difficulty
  alreadyGeneratedCoins : UInt64
  deriving DecidableEq, Repr

/-- The exceptions `add_block` throws. -/
inductive DbError where
  | inconsistentSizes
  | unexpectedInput
  | keyImageExists
  | txExists
  | outputWithoutKey
  | rctOutputWithoutCommitment
  | blockExists
  | blockParentDne
  | parentNotFound
  deriving DecidableEq, Repr

/-- The block tables. Index in `blocks` is height. -/
structure BlockchainDB where
  blocks : List StoredBlock
  hfVersions : Nat → Option UInt8
  altBlocks : AList fun _ : Hash => BlockExtendedInfo
  ids_nodup : (blocks.map StoredBlock.hash).Nodup
  linked : blocks.IsChain fun a b => b.block.prevId = a.hash

namespace StoredBlock

/-- The key images a stored block spends, miner transaction included. -/
def keyImages (b : StoredBlock) : List KeyImage :=
  b.block.minerTx.keyImages ++ b.txs.flatMap fun t => t.1.keyImages

/-- The ids under which a stored block's transactions are indexed. -/
def txIds (b : StoredBlock) : List Hash :=
  b.minerTxHash :: b.block.txHashes

end StoredBlock

namespace BlockchainDB

/-- A database with no block. -/
def empty : BlockchainDB where
  blocks := []
  hfVersions := fun _ => none
  altBlocks := ∅
  ids_nodup := List.nodup_nil
  linked := List.isChain_nil

/-- `height`. -/
def height (db : BlockchainDB) : Nat :=
  db.blocks.length

/-- The ids of the main chain by height. -/
def ids (db : BlockchainDB) : List Hash :=
  db.blocks.map StoredBlock.hash

/-- `top_block_hash`. -/
def topBlockHash (db : BlockchainDB) : Hash :=
  (db.blocks.getLast?.map StoredBlock.hash).getD nullHash

/-- `get_block_hash_from_height` behind `Blockchain::get_block_id_by_height`,
    which turns `BLOCK_DNE` into the null hash. -/
def blockIdByHeight (db : BlockchainDB) (h : Nat) : Hash :=
  (db.ids[h]?).getD nullHash

/-- `block_exists`. -/
def blockExists (db : BlockchainDB) (id : Hash) : Bool :=
  id ∈ db.ids

/-- `get_block_height`. -/
def blockHeight? (db : BlockchainDB) (id : Hash) : Option Nat :=
  db.ids.findIdx? (· = id)

/-- `tx_exists`. -/
def txExists (db : BlockchainDB) (id : Hash) : Bool :=
  db.blocks.any fun b => id ∈ b.txIds

/-- `has_key_image`. -/
def hasKeyImage (db : BlockchainDB) (ki : KeyImage) : Bool :=
  db.blocks.any fun b => ki ∈ b.keyImages

/-- `get_hard_fork_version`. -/
def getHardForkVersion (db : BlockchainDB) (h : Nat) : UInt8 :=
  (db.hfVersions h).getD 0

/-- `set_hard_fork_version`. -/
def setHardForkVersion (db : BlockchainDB) (h : Nat) (v : UInt8) : BlockchainDB :=
  { db with hfVersions := Function.update db.hfVersions h (some v) }

/-- The spent-key part of `add_transaction`. -/
def addSpentKeys (spent : List KeyImage) : List TxIn → Except DbError (List KeyImage)
  | [] => .ok spent
  | .toKey _ _ ki :: ins =>
    if ki ∈ spent then .error .keyImageExists else addSpentKeys (ki :: spent) ins
  | .gen _ :: ins => addSpentKeys spent ins
  | _ :: _ => .error .unexpectedInput

/-- The checks of `add_output` on the outputs of a transaction. From version 2 on an output comes
    with a commitment. -/
def addOutputs (version : UInt64) : List TxOut → Except DbError Unit
  | [] => .ok ()
  | out :: rest =>
    if out.target.publicKey?.isNone then .error .outputWithoutKey
    else if out.amount = 0 ∧ version ≤ 1 then .error .rctOutputWithoutCommitment
    else addOutputs version rest

/-- `add_transaction` for the transactions of one block in turn. The accumulators are
    the spent keys and the transaction ids present so far. -/
def addTransactions (spent : List KeyImage) (ids : List Hash) :
    List (Transaction × Hash) → Except DbError Unit
  | [] => .ok ()
  | (tx, id) :: rest =>
    match addSpentKeys spent tx.vin with
    | .error e => .error e
    | .ok spent' =>
      if id ∈ ids then .error .txExists
      else
        match addOutputs tx.version tx.vout with
        | .error e => .error e
        | .ok () => addTransactions spent' (id :: ids) rest

/-- The writes of a block's transactions, before the block itself. -/
def addBlockTransactions (db : BlockchainDB) (b : StoredBlock) : Except DbError Unit :=
  addTransactions (db.blocks.flatMap StoredBlock.keyImages) (db.blocks.flatMap StoredBlock.txIds)
    ((b.block.minerTx, b.minerTxHash) :: (b.txs.map Prod.fst).zip b.block.txHashes)

/-- The parent check of the LMDB `add_block`. -/
def ParentIsTop (db : BlockchainDB) (b : StoredBlock) : Prop :=
  ∀ top ∈ db.blocks.getLast?, b.block.prevId = top.hash

instance (db : BlockchainDB) (b : StoredBlock) : Decidable (ParentIsTop db b) :=
  inferInstanceAs (Decidable (∀ top ∈ db.blocks.getLast?, b.block.prevId = top.hash))

/-- A chain extended by a block with a fresh id and the right parent. -/
def append (db : BlockchainDB) (b : StoredBlock) (hnew : b.hash ∉ db.ids)
    (hpar : ParentIsTop db b) : BlockchainDB :=
  { db with
    blocks := db.blocks ++ [b]
    ids_nodup := by
      rw [List.map_append, List.map_singleton]
      exact db.ids_nodup.append (List.nodup_singleton _)
        (List.disjoint_singleton.mpr hnew)
    linked := by
      refine List.isChain_append.mpr ⟨db.linked, List.isChain_singleton _, ?_⟩
      intro x hx y hy
      rw [List.head?_cons, Option.mem_some_iff] at hy
      exact hy ▸ hpar x hx }

/-- `BlockchainDB::add_block` down to the LMDB writes. The hard fork notification
    that follows them is made by the caller. -/
def addBlock (db : BlockchainDB) (b : StoredBlock) : Except DbError BlockchainDB :=
  if b.block.txHashes.length ≠ b.txs.length then .error .inconsistentSizes
  else
    match addBlockTransactions db b with
    | .error e => .error e
    | .ok () =>
      if hnew : b.hash ∉ db.ids then
        if hpar : ParentIsTop db b then .ok (db.append b hnew hpar)
        else if b.block.prevId ∈ db.ids then .error .blockParentDne
        else .error .parentNotFound
      else .error .blockExists

/-- What an accepted block leaves behind. -/
theorem addBlock_ok {db db' : BlockchainDB} {b : StoredBlock} (h : db.addBlock b = .ok db') :
    b.hash ∉ db.ids ∧ ParentIsTop db b ∧ db'.blocks = db.blocks ++ [b] ∧
      db'.hfVersions = db.hfVersions ∧ db'.altBlocks = db.altBlocks := by
  unfold addBlock at h
  split at h
  · cases h
  · split at h
    · cases h
    · split at h
      · rename_i hnew
        split at h
        · rename_i hpar
          cases h
          exact ⟨hnew, hpar, rfl, rfl, rfl⟩
        · split at h <;> cases h
      · cases h

/-- The first `n` blocks. -/
def take (db : BlockchainDB) (n : Nat) : BlockchainDB :=
  { db with
    blocks := db.blocks.take n
    ids_nodup := by
      rw [List.map_take]
      exact db.ids_nodup.sublist (List.take_sublist _ _)
    linked := by
      have h := db.linked
      rw [← List.take_append_drop n db.blocks] at h
      exact h.left_of_append }

/-- `BlockchainDB::pop_block`: the top block with its transactions, and the database
    without it. Recorded hard fork versions stay. -/
def popBlock (db : BlockchainDB) : Option (StoredBlock × BlockchainDB) :=
  db.blocks.getLast?.map fun b => (b, db.take (db.height - 1))

/-- `add_alt_block`, which throws when the id is already stored. -/
def addAltBlock (db : BlockchainDB) (id : Hash) (bei : BlockExtendedInfo) : Option BlockchainDB :=
  if id ∈ db.altBlocks then none else some { db with altBlocks := db.altBlocks.insert id bei }

/-- `remove_alt_block`, which throws when the id is not stored. -/
def removeAltBlock (db : BlockchainDB) (id : Hash) : Option BlockchainDB :=
  if id ∈ db.altBlocks then some { db with altBlocks := db.altBlocks.erase id } else none

end BlockchainDB

end CocaineNode
