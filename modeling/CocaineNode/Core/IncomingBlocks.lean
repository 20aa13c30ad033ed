import CocaineNode.Core.AltChain
import CocaineNode.Core.Outputs

/-!
# Preparing Incoming Blocks

`prepare_handle_incoming_blocks` and `cleanup_handle_incoming_blocks`, between
which a node adds the blocks a peer has sent. The first takes the lock for
incoming transactions and the pool's lock, opens a database batch, and fills
two tables for what follows: the proof of work hashes of the blocks, and the
outputs their transactions refer to. The second closes the batch and gives the
locks back. Nothing but the callers ties the two together.

What other threads and the worker pool decide is in `PrepareEnv`: how often the
batch had to be waited for and what the chain was afterwards, how many threads
there are, whether the workers ended well, and what each read of `m_cancel`
returned. The database does not fail: a batch that is open commits. The proof
of work hashes are computed in ranges, one for each worker; the ranges follow
one another, so the block at position `i` is hashed for height `height + i`.

Counters that decide when the database is flushed to disk, pruning and time
statistics are left out.

## Main definitions

* `Node`: The chain with the locks of the calling thread and its batch.
* `parseEntries`: The first pass over the blocks.
-/

namespace CocaineNode

/-- How often the calling thread holds each lock. -/
structure Locks where
  incomingTx : Nat := 0
  txPool : Nat := 0
  blockchain : Nat := 0
  deriving DecidableEq, Repr

/-- The chain with what the calling thread holds. An open batch keeps the database as it was when
    the batch was opened. -/
structure Node where
  chain : Blockchain
  locks : Locks
  batch : Option BlockchainDB
  scanTable : ScanTable

/-- The places at which `m_cancel` is read. -/
inductive CancelRead where
  | afterLonghashes
  | beforeScan
  | gather (entry : Nat)
  | fill (entry : Nat)
  deriving DecidableEq, Repr

/-- What the call does not decide itself. `waits` has the state of the chain after each wait for
    the batch. -/
structure PrepareEnv where
  waits : List Blockchain := []
  threads : Nat
  longhashesDone : Bool := true
  outputsDone : Bool := true
  cancel : CancelRead → Bool := fun _ => false
  threads_pos : 0 < threads

/-- How a call ends. -/
inductive CallEnd where
  | returns (value : Bool)
  | throws
  deriving DecidableEq, Repr

namespace Node

/-- The node with another chain state. -/
def withChain (n : Node) (chain : Blockchain) : Node :=
  { n with chain }

/-- The node with another table of outputs. -/
def withScanTable (n : Node) (scanTable : ScanTable) : Node :=
  { n with scanTable }

/-- `m_incoming_tx_lock.lock()`. -/
def lockIncomingTx (n : Node) : Node :=
  { n with locks := { n.locks with incomingTx := n.locks.incomingTx + 1 } }

/-- `m_incoming_tx_lock.unlock()`. -/
def unlockIncomingTx (n : Node) : Node :=
  { n with locks := { n.locks with incomingTx := n.locks.incomingTx - 1 } }

/-- `m_tx_pool.lock()`. -/
def lockTxPool (n : Node) : Node :=
  { n with locks := { n.locks with txPool := n.locks.txPool + 1 } }

/-- `m_tx_pool.unlock()`. -/
def unlockTxPool (n : Node) : Node :=
  { n with locks := { n.locks with txPool := n.locks.txPool - 1 } }

/-- `m_blockchain_lock.lock()`. -/
def lockBlockchain (n : Node) : Node :=
  { n with locks := { n.locks with blockchain := n.locks.blockchain + 1 } }

/-- `m_blockchain_lock.unlock()`, also when a critical region is left. -/
def unlockBlockchain (n : Node) : Node :=
  { n with locks := { n.locks with blockchain := n.locks.blockchain - 1 } }

/-- A `batch_start` that succeeds. -/
def batchStart (n : Node) : Node :=
  { n with batch := some n.chain.db }

/-- `batch_stop`: what was written stays. -/
def batchStop (n : Node) : Node :=
  { n with batch := none }

/-- `batch_abort`: the database goes back to what it was. -/
def batchAbort (n : Node) (before : BlockchainDB) : Node :=
  { n with batch := none, chain := n.chain.withDb before }

/-- The loop around `batch_start`, which gives both locks up while it waits. It ends once no batch
    is open. -/
def waitForBatch : List Blockchain → Node → Node
  | [], n => n.batchStart
  | chain :: rest, n =>
    waitForBatch rest ((n.unlockBlockchain.unlockTxPool.withChain chain).lockTxPool.lockBlockchain)

end Node

/-! ## The blocks -/

namespace Blockchain

/-- `have_block`: on the main chain, in the alternative store, or known to be invalid. -/
def haveBlock (s : Blockchain) (id : Hash) : Bool :=
  s.db.blockExists id || (s.db.altBlocks.lookup id).isSome || id ∈ s.invalidBlocks

/-- `m_batch_success = true`. -/
def startBatch (s : Blockchain) : Blockchain :=
  { s with batchSuccess := true }

/-- `m_prepare_height` and `m_prepare_blocks`. -/
def withPrepared (s : Blockchain) (prepareHeight : Nat) (prepareBlocks : List Hash) : Blockchain :=
  { s with prepareHeight, prepareBlocks }

/-- The state with another table of proof of work hashes. -/
def withLonghashes (s : Blockchain) (blocksLonghashTable : AList fun _ : Hash => Hash) :
    Blockchain :=
  { s with blocksLonghashTable }

/-- The state with another list of compiled-in hashes. -/
def withHashCheck (s : Blockchain) (blocksHashCheck : List (Hash × UInt64)) : Blockchain :=
  { s with blocksHashCheck }

end Blockchain

/-- Whether `parse_and_validate_block_from_blob` throws on a block it has read, when it is asked for
    the id. A miner transaction of version 2 without inputs never gets an unprunable size, so
    `calculate_transaction_hash` refuses it, and `get_tx_tree_hash` throws. -/
def Block.hashThrows (b : Block) : Bool :=
  b.minerTx.version ≠ 1 && b.minerTx.vin.isEmpty

/-- How the pass over the blocks ends. `detached` is the first block not following the top. -/
inductive ParseEnd where
  | malformed
  | threw
  | detached
  | parsed (blocks : List Block) (blocksExist : Bool)
  deriving DecidableEq, Repr

/-- The blocks parsed so far with some before them. -/
def ParseEnd.before (blocks : List Block) (exist : Bool) : ParseEnd → ParseEnd
  | .malformed => .malformed
  | .threw => .threw
  | .detached => .detached
  | .parsed rest restExist => .parsed (blocks ++ rest) (exist || restExist)

section Parse

variable (E : Externals) (haveBlock : Hash → Bool) (tophash : Hash)

/-- The blocks that fill the batches of the threads. Only the very first one is compared with the
    top of the chain. -/
def parseBatches : Bool → List BlockCompleteEntry → ParseEnd
  | _, [] => .parsed [] false
  | first, e :: rest =>
    match E.parseBlock e.block with
    | none => .malformed
    | some b =>
      if b.hashThrows then .threw
      else if first && b.prevId ≠ tophash then .detached
      else (parseBatches false rest).before [b] (haveBlock (E.blockHash b))

/-- The blocks that are left over. The loop ends at the first that exists, and the places behind
    it keep their default blocks. -/
def parseExtra : Bool → List BlockCompleteEntry → ParseEnd
  | exist, [] => .parsed [] exist
  | true, rest => .parsed (List.replicate rest.length Block.null) true
  | false, e :: rest =>
    match E.parseBlock e.block with
    | none => .malformed
    | some b =>
      if b.hashThrows then .threw
      else (parseExtra (haveBlock (E.blockHash b)) rest).before [b] false

/-- The first pass over the blocks. -/
def parseEntries (threads : Nat) (entries : List BlockCompleteEntry) : ParseEnd :=
  let batched := threads * (entries.length / threads)
  match parseBatches E haveBlock tophash true (entries.take batched) with
  | .parsed blocks exist =>
    (parseExtra E haveBlock exist (entries.drop batched)).before blocks false
  | other => other

end Parse

/-- The table of proof of work hashes, from a height on. `unordered_map::insert` keeps the first
    of two entries. -/
def longhashTable (E : Externals) (s : Blockchain) :
    Nat → List Block → AList (fun _ : Hash => Hash) → AList fun _ : Hash => Hash
  | _, [], table => table
  | height, b :: rest, table =>
    let id := E.blockHash b
    let pow := getBlockLonghash E.toSlowHashes E.seedEnv
      (some s.pendingBlockIdByHeight) b height none
    longhashTable E s (height + 1) rest (if id ∈ table then table else table.insert id pow)

/-! ## The outputs -/

/-- Why a pass over the transactions ends early. `threw` is `boost::get<txin_to_key>` on another
    kind of input, or the parser; the others return false. -/
inductive ScanEnd where
  | cancelled
  | quit
  | threw
  deriving DecidableEq, Repr

/-- A pass over transactions: its result, or why it ended and the table it left. -/
abbrev Scan (α : Type) := Except (ScanEnd × ScanTable) α

/-- `SCAN_TABLE_QUIT`. -/
def scanTableQuit {α : Type} : Scan α :=
  .error (.quit, ∅)

/-- What the first pass collects. -/
structure Gathered where
  table : ScanTable := ∅
  amounts : List UInt64 := []
  offsetMap : AList (fun _ : UInt64 => List UInt64) := ∅
  txes : List (Transaction × Hash) := []

/-- `std::sort` and `std::unique`. -/
def sortUnique (l : List UInt64) : List UInt64 :=
  (l.insertionSort (· ≤ ·)).dedup

/-- The loop that collects the amounts of a transaction's inputs. `seen` has the key images the
    table already has for this transaction. -/
def inputAmounts (table : ScanTable) (seen : AList fun _ : KeyImage => List OutputData) :
    List UInt64 → List TxIn → Scan (List UInt64)
  | amounts, [] => .ok amounts
  | amounts, .toKey amount _ kImage :: rest =>
    if kImage ∈ seen then scanTableQuit
    else inputAmounts table seen (amounts ++ [amount]) rest
  | _, _ :: _ => .error (.threw, table)

/-- The loop that files the offsets of a transaction's inputs under their amounts. -/
def fileOffsets (table : ScanTable) :
    (AList fun _ : UInt64 => List UInt64) → List TxIn → Scan (AList fun _ : UInt64 => List UInt64)
  | offsetMap, [] => .ok offsetMap
  | offsetMap, .toKey amount keyOffsets _ :: rest =>
    let offsets := relativeOutputOffsetsToAbsolute keyOffsets
    fileOffsets table
      (offsetMap.insert amount ((offsetMap.lookup amount).getD [] ++ offsets)) rest
  | _, _ :: _ => .error (.threw, table)

/-- Entries for amounts that have none. -/
def emplaceAmounts (offsetMap : AList fun _ : UInt64 => List UInt64) (amounts : List UInt64) :
    AList fun _ : UInt64 => List UInt64 :=
  amounts.foldl (fun m a => if a ∈ m then m else m.insert a []) offsetMap

/-- The first pass over one transaction. It is in the table before its inputs are looked at. -/
def gatherTx (E : Externals) (g : Gathered) (entry : TxBlobEntry) : Scan Gathered :=
  if E.parseTxBaseThrows entry.blob then .error (.threw, g.table)
  else
    match E.parseTxBase entry.blob with
    | none => scanTableQuit
    | some tx =>
      let prefixHash := E.txPrefixHash tx
      if prefixHash ∈ g.table then scanTableQuit
      else
        let table := g.table.insert prefixHash ∅
        match inputAmounts table ∅ g.amounts tx.vin with
        | .error e => .error e
        | .ok amounts =>
          let amounts := sortUnique amounts
          match fileOffsets table (emplaceAmounts g.offsetMap amounts) tx.vin with
          | .error e => .error e
          | .ok offsetMap => .ok ⟨table, amounts, offsetMap, g.txes ++ [(tx, prefixHash)]⟩

/-- The first pass over the transactions of one block. -/
def gatherTxs (E : Externals) : Gathered → List TxBlobEntry → Scan Gathered
  | g, [] => .ok g
  | g, t :: rest =>
    match gatherTx E g t with
    | .error e => .error e
    | .ok g => gatherTxs E g rest

/-- The first pass, from the block at `index` on. -/
def gatherEntries (E : Externals) (env : PrepareEnv) :
    Nat → Gathered → List BlockCompleteEntry → Scan Gathered
  | _, g, [] => .ok g
  | index, g, e :: rest =>
    if env.cancel (.gather index) then .error (.cancelled, g.table)
    else
      match gatherTxs E g e.txs with
      | .error e => .error e
      | .ok g => gatherEntries E env (index + 1) g rest

/-- The outputs of a ring that were found, up to the first that was not. -/
def neededOutputs (offsets : List UInt64) (found : List OutputData) : List UInt64 → List OutputData
  | [] => []
  | offset :: rest =>
    match (offsets.idxOf? offset).bind fun pos => found[pos]? with
    | some o => o :: neededOutputs offsets found rest
    | none => []

section Fill

variable (E : Externals) (env : PrepareEnv) (db : BlockchainDB)
  (offsetMap : AList fun _ : UInt64 => List UInt64)

/-- The loop that files the outputs of a transaction's inputs under their key images. `emplace`
    keeps the first of two entries. -/
def fillInputs (table : ScanTable) : (AList fun _ : KeyImage => List OutputData) → List TxIn →
      Scan (AList fun _ : KeyImage => List OutputData)
  | filed, [] => .ok filed
  | filed, .toKey amount keyOffsets kImage :: rest =>
    let offsets := sortUnique ((offsetMap.lookup amount).getD [])
    let outputs := neededOutputs offsets (db.getOutputKeys E amount offsets)
      (relativeOutputOffsetsToAbsolute keyOffsets)
    fillInputs table (if kImage ∈ filed then filed else filed.insert kImage outputs) rest
  | _, _ :: _ => .error (.threw, table)

/-- The second pass over the transactions of one block, of which there are so many. It gives back
    those of the blocks behind. -/
def fillTxs : ScanTable → List (Transaction × Hash) → Nat →
    Scan (ScanTable × List (Transaction × Hash))
  | table, txes, 0 => .ok (table, txes)
  | _, [], _ + 1 => scanTableQuit
  | table, (tx, prefixHash) :: txes, n + 1 =>
    match table.lookup prefixHash with
    | none => scanTableQuit
    | some filed =>
      match fillInputs E db offsetMap table filed tx.vin with
      | .error e => .error e
      | .ok filed => fillTxs (table.insert prefixHash filed) txes n

/-- The second pass, from the block at `index` on. -/
def fillEntries : Nat → ScanTable → List (Transaction × Hash) → List BlockCompleteEntry →
    Scan ScanTable
  | _, table, _, [] => .ok table
  | index, table, txes, e :: rest =>
    if env.cancel (.fill index) then .error (.cancelled, table)
    else
      match fillTxs E db offsetMap table txes e.txs.length with
      | .error e => .error e
      | .ok (table, txes) => fillEntries (index + 1) table txes rest

end Fill

/-- Both passes. Between them the workers look the outputs up. -/
def scanEntries (E : Externals) (env : PrepareEnv) (db : BlockchainDB)
    (entries : List BlockCompleteEntry) : Scan ScanTable :=
  match gatherEntries E env 0 {} entries with
  | .error e => .error e
  | .ok g =>
    if !env.outputsDone then .error (.cancelled, g.table)
    else fillEntries E env db g.offsetMap 0 g.table g.txes entries

/-! ## The pair -/

namespace Node

/-- The part of `prepare_handle_incoming_blocks` that follows the blocks. -/
def prepareScan (E : Externals) (env : PrepareEnv) (n : Node) (entries : List BlockCompleteEntry) :
    CallEnd × Node :=
  match scanEntries E env n.chain.db entries with
  | .ok table => (.returns true, n.withScanTable table)
  | .error (.threw, table) => (.throws, n.withScanTable table)
  | .error (_, table) => (.returns false, n.withScanTable table)

/-- The part of `prepare_handle_incoming_blocks` that follows the pass over the blocks, of which
    none exists. Workers that fail leave the blocks marked as being prepared. -/
def prepareLonghashes (E : Externals) (env : PrepareEnv) (n : Node)
    (entries : List BlockCompleteEntry) (blocks : List Block) : CallEnd × Node :=
  let height := n.chain.height
  let chain := (n.chain.withLonghashes ∅).withPrepared height (blocks.map E.blockHash)
  let table := longhashTable E chain height blocks ∅
  let chain := if env.longhashesDone then chain.withPrepared 0 (blocks.map E.blockHash) else chain
  if !env.longhashesDone || env.cancel .afterLonghashes then (.returns false, n.withChain chain)
  else
    let n := n.withChain (chain.withLonghashes table)
    if env.cancel .beforeScan then (.returns false, n) else prepareScan E env n entries

/-- The part of `prepare_handle_incoming_blocks` with the batch open. The blocks are for the caller,
    which looks at them when it got true. -/
def prepareBlocks (E : Externals) (env : PrepareEnv) (n : Node)
    (entries : List BlockCompleteEntry) : CallEnd × List Block × Node :=
  if n.chain.height + entries.length < n.chain.blocksHashCheck.length then (.returns true, [], n)
  else
    match parseEntries E n.chain.haveBlock n.chain.db.topBlockHash env.threads entries with
    | .malformed => (.returns false, [], n)
    | .threw => (.throws, [], n)
    | .detached => (.returns true, [], n)
    | .parsed blocks true =>
      (.returns (!env.cancel .beforeScan), blocks, n)
    | .parsed blocks false =>
      let r := prepareLonghashes E env n entries blocks
      (r.1, blocks, r.2)

/-- `Blockchain::prepare_handle_incoming_blocks`. The blockchain lock is given back on every way
    out, by an exception too. -/
def chainPrepareHandleIncomingBlocks (E : Externals) (env : PrepareEnv) (n : Node)
    (entries : List BlockCompleteEntry) : CallEnd × List Block × Node :=
  let n := n.lockTxPool.lockBlockchain
  if entries = [] then (.returns false, [], n.unlockBlockchain)
  else
    let n := waitForBatch env.waits n
    let r := prepareBlocks E env (n.withChain n.chain.startBatch) entries
    (r.1, r.2.1, r.2.2.unlockBlockchain)

/-- The batch closed by `Blockchain::cleanup_handle_incoming_blocks`, and whether that succeeds: it
    throws when no batch is open. -/
def closeBatch (n : Node) : Bool × Node :=
  match n.batch with
  | none => (false, n)
  | some before =>
    if n.chain.batchSuccess then
      let cache := n.chain.difficultyCache
      (true,
        (if cache.resetTimestampsAndDifficultiesHeight then
          n.withChain (n.chain.withCache { cache with
            timestampsAndDifficultiesHeight := 0, resetTimestampsAndDifficultiesHeight := false })
        else n).batchStop)
    else (true, n.batchAbort before)

/-- `Blockchain::cleanup_handle_incoming_blocks`. -/
def chainCleanupHandleIncomingBlocks (n : Node) : Bool × Node :=
  let r := n.lockBlockchain.closeBatch
  let chain := r.2.chain.withLonghashes ∅
  -- The compiled-in hashes are dropped once the chain is well past them.
  let chain :=
    if chain.height > chain.blocksHashCheck.length + 4096 then chain.withHashCheck [] else chain
  (r.1, ((r.2.withChain chain).withScanTable ∅).unlockBlockchain.unlockTxPool)

/-- `core::cleanup_handle_incoming_blocks`. -/
def cleanupHandleIncomingBlocks (n : Node) : Bool × Node :=
  let r := n.chainCleanupHandleIncomingBlocks
  (r.1, r.2.unlockIncomingTx)

/-- `core::prepare_handle_incoming_blocks`. An exception passes through it. -/
def prepareHandleIncomingBlocks (E : Externals) (env : PrepareEnv) (n : Node)
    (entries : List BlockCompleteEntry) : CallEnd × List Block × Node :=
  let r := n.lockIncomingTx.chainPrepareHandleIncomingBlocks E env entries
  match r.1 with
  | .returns false => (.returns false, r.2.1, r.2.2.cleanupHandleIncomingBlocks.2)
  | _ => r

end Node

/-! ## A block in between -/

/-- `Blockchain::add_new_block`, which catches every exception. `depth` bounds how far
    reorganisations may trigger one another. -/
def Blockchain.addNewBlock (E : Externals) (now : UInt64) (depth : Nat) (s : Blockchain)
    (bl : Block)
    (bvc : Bvc) (ps : PoolSupplement) : Bvc × Blockchain :=
  let id := E.blockHash bl
  if s.haveBlock id then ({ bvc with alreadyExists := true }, s)
  else if bl.prevId ≠ s.db.topBlockHash then
    let r := handleAlternativeBlock E now depth s bl id { bvc with addedToMainChain := false } ps
    (if r.outcome = .threw then { r.bvc with verifivationFailed := true } else r.bvc, r.chain)
  else
    let r := s.handleBlockToMainChain E bl id bvc ps now
    (r.bvc, r.chain)

/-- `core::handle_incoming_block`. A block that was parsed beforehand is not parsed again. An
    exception is caught, with the verification context still empty. -/
def Node.handleIncomingBlock (E : Externals) (now : UInt64) (depth : Nat) (n : Node) (blob : Blob)
    (b : Option Block) (ps : PoolSupplement) : Bvc × Node :=
  if n.chain.currentBlockCumulWeightLimit + 100 < UInt64.ofNat blob.length then
    ({ verifivationFailed := true }, n)
  else
    match b.or (E.parseBlock blob) with
    | none => ({ verifivationFailed := true }, n)
    | some lb =>
      if b.isNone && lb.hashThrows then ({}, n)
      else
        let r := n.chain.addNewBlock E now depth lb {} ps
        (r.1, n.withChain r.2)

end CocaineNode
