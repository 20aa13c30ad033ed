import CocaineNode.Core.TxPool

/-!
# Upkeep of the Transaction Pool

The calls of `tx_memory_pool` that are neither about one new transaction nor
about a block: transactions that are too old are removed, relayed ones are
marked, the indexes are built from the table when a node starts, and a client
asks what has changed.

`remove_stuck_transactions` goes over the pool twice. The first time an outdated
transaction leaves the lists, the second time the table and the other indexes.

## Main definitions

* `TxPool.removeStuckTransactions`, `TxPool.setRelayed`, `TxPool.init`: The writers.
* `TxPool.getPoolInfo`: The answer to a client.
-/

namespace CocaineNode

namespace TxPool

/-! ## Outdated transactions -/

/-- Whether a transaction is outdated at a time. Its age is an unsigned difference. -/
def outdated (now : Time) (m : TxMeta) : Bool :=
  let txAge := UInt64.ofInt now - m.receiveTime
  (txAge > 86400 * 3 && m.relay ≠ .block) || (txAge > 604800 && m.relay = .block)

/-- One turn of the first loop of `remove_stuck_transactions`. -/
def unlistStuck (s : TxPool × List (Hash × UInt64)) (e : Hash × TxMeta) :
    TxPool × List (Hash × UInt64) :=
  let p := { s.1 with clock := s.1.clock.tick }
  if outdated s.1.clock.now e.2 then
    let p := p.removeTxFromTransientLists e.1 e.2.sensitive
    ({ p with timedOutTransactions := p.timedOutTransactions.insert e.1 },
      s.2 ++ [(e.1, e.2.weight)])
  else (p, s.2)

/-- One turn of the second loop. A transaction that does not parse stays. -/
def removeStuck (E : Externals) (p : TxPool) (e : Hash × UInt64) : TxPool :=
  match p.txpool.lookup e.1 with
  | none => p
  | some (_, blob) =>
    match E.parseTxPrefix blob with
    | none => p
    | some tx =>
      ((p.withTable (p.txpool.erase e.1)).reduceTxpoolWeight e.2).removeTransactionKeyimages e.1
        tx.vin

/-- `remove_stuck_transactions`. -/
def removeStuckTransactions (E : Externals) (p : TxPool) : TxPool :=
  let r := p.entriesById.foldl unlistStuck (p, [])
  r.2.foldl (removeStuck E) r.1

/-! ## Relayed transactions -/

/-- `upgrade_relay_method`, and the mark. -/
def relayedMeta (m : TxMeta) (method : RelayMethod) : TxMeta :=
  { m with relay := if m.relay.rank < method.rank then method else m.relay, relayed := true }

/-- One turn of `set_relayed`, with what `just_broadcasted` gets. A transaction that can be seen
    from now on is added to the lists again. -/
def setRelayedOne (E : Externals) (method : RelayMethod) (now : UInt64) (s : List Bool × TxPool)
    (hash : Hash) : List Bool × TxPool :=
  match s.2.getMeta hash with
  | none => (s.1 ++ [false], s.2)
  | some m =>
    let p := s.2.updateMeta hash (relayedMeta m method)
    if m.sensitive && !(relayedMeta m method).sensitive then
      (s.1 ++ [true], p.addTxToTransientLists hash (E.feeRate m.fee m.weight) now)
    else (s.1 ++ [false], p)

/-- `set_relayed`. -/
def setRelayed (E : Externals) (p : TxPool) (hashes : List Hash) (method : RelayMethod)
    (now : UInt64) : List Bool × TxPool :=
  hashes.foldl (setRelayedOne E method now) ([], p)

/-! ## Starting -/

/-- The entries of the table with their blobs, in the order of the database. -/
def blobsById (p : TxPool) : List (Hash × TxMeta × Blob) :=
  (p.txpool.entries.map fun e => (e.1, e.2)).insertionSort fun a b => compareHash32 a.1 b.1 8

/-- One transaction enters the indexes, and whether its key images were accepted. -/
def indexEntry (E : Externals) (p : TxPool) (id : Hash) (m : TxMeta) (tx : Transaction) :
    Bool × TxPool :=
  let r := p.insertKeyImages id m.relay tx.vin
  if !r.1 then (false, r.2)
  else
    (true, (r.2.addTxToTransientLists id (E.feeRate m.fee m.weight) m.receiveTime).addTxpoolWeight
      m.weight)

/-- One pass of `init`, over the transactions that are kept by a block or over the others, with
    those to be removed from the table. It ends at key images that are refused. -/
def initPass (E : Externals) (kept : Bool) :
    List (Hash × TxMeta × Blob) → TxPool → List Hash → Bool × TxPool × List Hash
  | [], p, remove => (true, p, remove)
  | (id, m, blob) :: rest, p, remove =>
    if kept ≠ decide (m.relay = .block) then initPass E kept rest p remove
    else
      match E.parseTxPrefix blob with
      | none => initPass E kept rest p (remove ++ [id])
      | some tx =>
        let r := p.indexEntry E id m tx
        if !r.1 then (false, r.2, remove) else initPass E kept rest r.2 remove

/-- What `init` starts from: a pool with its table and no index. -/
def unindexed (p : TxPool) (maxTxpoolWeight : UInt64) : TxPool :=
  { p.forgetChanges with
    txpoolMaxWeight := if maxTxpoolWeight = 0 then 648000000 else maxTxpoolWeight
    txsByFeeAndReceiveTime := []
    spentKeyImages := ∅
    txpoolWeight := 0 }

/-- `init`. Transactions that are not kept by a block come first, so that their key images are
    not refused. -/
def init (E : Externals) (p : TxPool) (maxTxpoolWeight : UInt64) (mineStemTxes : Bool) :
    Bool × TxPool :=
  let first := initPass E false p.blobsById (p.unindexed maxTxpoolWeight) []
  if !first.1 then (false, first.2.1)
  else
    let second := initPass E true p.blobsById first.2.1 first.2.2
    if !second.1 then (false, second.2.1)
    else
      let p := second.2.1.withTable (second.2.2.foldl (fun t id => t.erase id) second.2.1.txpool)
      (true, { p with mineStemTxes })

/-! ## Clients -/

/-- `tx_details`, without the time it was relayed. -/
structure TxDetails where
  tx : Transaction
  txBlob : Blob
  blobSize : Nat
  weight : UInt64
  fee : UInt64
  maxUsedBlockId : Hash
  maxUsedBlockHeight : Nat
  keptByBlock : Bool
  lastFailedHeight : Nat
  lastFailedId : Hash
  receiveTime : UInt64
  relayed : Bool
  doNotRelay : Bool
  doubleSpendSeen : Bool
  deriving DecidableEq, Repr

/-- The transaction of an entry, from the cache or from its blob. -/
def entryTx (E : Externals) (p : TxPool) (txid : Hash) (m : TxMeta) (blob : Blob) :
    Option Transaction :=
  match p.parsedTxCache.lookup txid with
  | some tx => some tx
  | none => if m.pruned then E.parseTxBase blob else E.parseTx blob

/-- `get_transaction_info` with the blob. -/
def getTransactionInfo (E : Externals) (p : TxPool) (txid : Hash) (includeSensitive : Bool) :
    Option TxDetails :=
  match p.txpool.lookup txid with
  | none => none
  | some (m, blob) =>
    if !includeSensitive && m.sensitive then none
    else
      (p.entryTx E txid m blob).map fun tx =>
        { tx, txBlob := blob, blobSize := blob.length, weight := m.weight, fee := m.fee
          maxUsedBlockId := m.maxUsedBlockId, maxUsedBlockHeight := m.maxUsedBlockHeight
          keptByBlock := m.relay = .block, lastFailedHeight := m.lastFailedHeight
          lastFailedId := m.lastFailedId
          receiveTime := if includeSensitive then m.receiveTime else 0, relayed := m.relayed
          doNotRelay := m.relay = .none, doubleSpendSeen := m.doubleSpendSeen }

/-- `get_transactions_info`. -/
def getTransactionsInfo (E : Externals) (p : TxPool) (txids : List Hash) (includeSensitive : Bool) :
    List (Hash × TxDetails) :=
  txids.filterMap fun id => (p.getTransactionInfo E id includeSensitive).map fun d => (id, d)

/-- `get_transaction_hashes`. -/
def getTransactionHashes (p : TxPool) (includeSensitive : Bool) : List Hash :=
  (p.entriesById.filter fun e => includeSensitive || !e.2.sensitive).map Prod.fst

/-- What `get_pool_info` answers. -/
structure PoolInfo where
  addedTxs : List (Hash × TxDetails)
  remainingAddedTxids : List Hash
  removedTxs : List Hash
  incremental : Bool
  deriving DecidableEq, Repr

/-- Whether the lists go back far enough for a client that was here at `startTime`. -/
def answersIncrementally (p : TxPool) (startTime : Time) : Bool :=
  if startTime = 0 then false
  else if p.addedTxsStartTime ≠ 0 && p.removedTxsStartTime ≠ 0 then
    !(startTime ≤ p.addedTxsStartTime || startTime ≤ p.removedTxsStartTime)
  else false

/-- `get_pool_info`. -/
def getPoolInfo (E : Externals) (p : TxPool) (startTime : Time) (includeSensitive : Bool)
    (maxTxCount : Nat) : PoolInfo :=
  if p.answersIncrementally startTime then
    let txids := (p.addedTxsById.entries.filter fun e => startTime ≤ e.2).map Sigma.fst
    let added := p.getTransactionsInfo E txids includeSensitive
    let removed := p.removedTxsByTime.dropWhile fun e => e.time < startTime
    { addedTxs := added.take maxTxCount
      remainingAddedTxids := (added.drop maxTxCount).map Prod.fst
      removedTxs := (removed.filter fun e => includeSensitive || !e.sensitive).map RemovedTx.txid
      incremental := true }
  else
    let txids := p.getTransactionHashes includeSensitive
    { addedTxs := p.getTransactionsInfo E (txids.take maxTxCount) includeSensitive
      remainingAddedTxids := txids.drop maxTxCount
      removedTxs := []
      incremental := false }

end TxPool

end CocaineNode
