import CocaineNode.Core.TxChecks

/-!
# The Transaction Pool

`tx_memory_pool` of `cryptonote_core/tx_pool.cpp`: the table of pool
transactions kept in the database, the index of their key images, the order
in which a block template takes them, and the two caches.

The cache `m_input_cache` remembers the result of the input checks until the
chain changes. `is_transaction_ready_to_go` parses a transaction only when that
cache has no entry for it, and leaves its `tx` argument as it was otherwise.
`fill_block_template` declares that argument afresh for every pool entry and
reads the key images from it. The model keeps this: `isTransactionReadyToGo`
returns the transaction object as the caller finds it.

Two lists serve clients that follow the pool: when each transaction was added,
and which ones were removed lately. They are dated by `time(NULL)`, which the
pool reads as it goes: `Clock` holds all its answers, and how many were used.

Left out are the relay timers and the change cookie, which nothing here reads.

## Main definitions

* `TxPool`: The pool state.
* `TxPool.trackRemovedTx`: The list of removed transactions, and how it is kept short.
-/

namespace CocaineNode

/-- `relay_category`. -/
inductive RelayCategory where
  | broadcasted
  | relayable
  | legacy
  | all
  deriving DecidableEq, Repr

/-- `matches_category`. -/
def RelayMethod.matches : RelayMethod → RelayCategory → Bool
  | _, .all => true
  | m, .relayable => m ≠ .none
  | .block, _ => true
  | .fluff, _ => true
  | .none, c => c = .legacy
  | _, _ => false

/-- `txpool_tx_meta_t`. The five relay flags are set together by `set_relay_method`, one of
    them or none, so they are one field. -/
structure TxMeta where
  maxUsedBlockId : Hash
  lastFailedId : Hash
  weight : UInt64
  fee : UInt64
  maxUsedBlockHeight : Nat
  lastFailedHeight : Nat
  receiveTime : UInt64
  relay : RelayMethod
  relayed : Bool
  doubleSpendSeen : Bool
  pruned : Bool
  deriving DecidableEq, Repr

/-- `!meta.matches(relay_category::broadcasted)`. -/
def TxMeta.sensitive (m : TxMeta) : Bool :=
  !m.relay.matches .broadcasted

/-- An entry of the sorted container. `feeRate` is the bit pattern of the double
    `fee / weight`, whose order for non-negative numbers is the order of the numbers. -/
structure SortedTx where
  feeRate : UInt64
  receiveTime : UInt64
  txid : Hash
  deriving DecidableEq, Repr

/-- `txFeeCompare`: higher fees first, then older transactions. -/
def SortedTx.before (a b : SortedTx) : Bool :=
  a.feeRate > b.feeRate || (a.feeRate = b.feeRate && a.receiveTime < b.receiveTime)

/-- `time_t`. -/
abbrev Time := Int

/-- What `time(NULL)` answers, one call after the other. -/
structure Clock where
  readings : Nat → Time
  reads : Nat

namespace Clock

/-- The next answer. -/
def now (c : Clock) : Time :=
  c.readings c.reads

/-- The clock after it was read. -/
def tick (c : Clock) : Clock :=
  { c with reads := c.reads + 1 }

end Clock

/-- An entry of `m_removed_txs_by_time`: a time, and a `removed_tx_info`. -/
structure RemovedTx where
  time : Time
  txid : Hash
  sensitive : Bool
  deriving DecidableEq, Repr

/-- `tx_memory_pool`. -/
structure TxPool where
  txpool : AList fun _ : Hash => TxMeta × Blob
  spentKeyImages : AList fun _ : KeyImage => List Hash
  txsByFeeAndReceiveTime : List SortedTx
  addedTxsById : AList fun _ : Hash => Time
  addedTxsStartTime : Time
  removedTxsByTime : List RemovedTx
  removedTxsStartTime : Time
  txpoolWeight : UInt64
  txpoolMaxWeight : UInt64
  mineStemTxes : Bool
  timedOutTransactions : List Hash
  inputCache : AList fun _ : Hash => InputCheck
  parsedTxCache : AList fun _ : Hash => Transaction
  clock : Clock

/-- The arguments of one `add_tx` call. -/
structure AddTxCall where
  tx : Transaction
  id : Hash
  blob : Blob
  txWeight : UInt64
  txRelay : RelayMethod
  relayed : Bool
  version : UInt8
  nicVerifiedHfVersion : UInt8 := 0
  deriving DecidableEq, Repr

namespace TxPool

/-- `DEFAULT_TXPOOL_MAX_WEIGHT`, and no transaction. -/
def empty : TxPool where
  txpool := ∅
  spentKeyImages := ∅
  txsByFeeAndReceiveTime := []
  addedTxsById := ∅
  addedTxsStartTime := 0
  removedTxsByTime := []
  removedTxsStartTime := 0
  txpoolWeight := 0
  txpoolMaxWeight := 648000000
  mineStemTxes := false
  timedOutTransactions := []
  inputCache := ∅
  parsedTxCache := ∅
  clock := ⟨fun _ => 0, 0⟩

/-- The pool with another table of transactions. -/
def withTable (p : TxPool) (txpool : AList fun _ : Hash => TxMeta × Blob) : TxPool :=
  { p with txpool }

/-- The pool with another index of key images. -/
def withSpentKeyImages (p : TxPool) (spentKeyImages : AList fun _ : KeyImage => List Hash) :
    TxPool :=
  { p with spentKeyImages }

/-- `m_input_cache.insert`, which does not replace an entry. -/
def cacheInputs (p : TxPool) (txid : Hash) (r : InputCheck) : TxPool :=
  { p with inputCache := if txid ∈ p.inputCache then p.inputCache else p.inputCache.insert txid r }

/-- `m_parsed_tx_cache.insert`, which does not replace an entry. -/
def cacheParsed (p : TxPool) (txid : Hash) (tx : Transaction) : TxPool :=
  { p with parsedTxCache :=
      if txid ∈ p.parsedTxCache then p.parsedTxCache else p.parsedTxCache.insert txid tx }

def getMeta (p : TxPool) (id : Hash) : Option TxMeta :=
  (p.txpool.lookup id).map Prod.fst

/-- `update_txpool_tx`: the blob stays. -/
def updateMeta (p : TxPool) (id : Hash) (m : TxMeta) : TxPool :=
  match p.txpool.lookup id with
  | some (_, blob) => p.withTable (p.txpool.insert id (m, blob))
  | none => p

def txMatchesCategory (p : TxPool) (id : Hash) (c : RelayCategory) : Bool :=
  match p.getMeta id with
  | some m => m.relay.matches c
  | none => false

def addTxpoolWeight (p : TxPool) (weight : UInt64) : TxPool :=
  { p with txpoolWeight := p.txpoolWeight + weight }

def reduceTxpoolWeight (p : TxPool) (weight : UInt64) : TxPool :=
  { p with txpoolWeight := if weight > p.txpoolWeight then 0 else p.txpoolWeight - weight }

/-! ## Key images -/

/-- `have_tx_keyimg_as_spent`. -/
def haveTxKeyimgAsSpent (p : TxPool) (ki : KeyImage) (txid : Hash) : Bool :=
  match p.spentKeyImages.lookup ki with
  | some (first :: rest) =>
    -- Another transaction using the image always counts as spent.
    if rest ≠ [] || first ≠ txid then true else p.txMatchesCategory txid .legacy
  | _ => false

/-- `have_tx_keyimges_as_spent`; an input of another kind counts as spent. -/
def haveTxKeyimgesAsSpent (p : TxPool) (tx : Transaction) (txid : Hash) : Bool :=
  tx.vin.any fun
    | .toKey _ _ ki => p.haveTxKeyimgAsSpent ki txid
    | _ => true

/-- `insert_key_images`. A refused input leaves the images before it in place. -/
def insertKeyImages (p : TxPool) (id : Hash) (txRelay : RelayMethod) : List TxIn → Bool × TxPool
  | [] => (true, p)
  | .toKey _ _ ki :: rest =>
    let set := (p.spentKeyImages.lookup ki).getD []
    let opened := p.withSpentKeyImages (p.spentKeyImages.insert ki set)
    -- Several transactions may share an image only when kept by block.
    if txRelay ≠ .block && !(set = [] || set = [id]) then (false, opened)
    else
      let inserted := p.withSpentKeyImages
        (p.spentKeyImages.insert ki (if id ∈ set then set else id :: set))
      if id ∈ set && p.txMatchesCategory id .legacy then (false, inserted)
      else insertKeyImages inserted id txRelay rest
  | _ :: _ => (false, p)

/-- `remove_transaction_keyimages`, which stops at the first input it cannot find. -/
def removeTransactionKeyimages (p : TxPool) (id : Hash) : List TxIn → TxPool
  | [] => p
  | .toKey _ _ ki :: rest =>
    match p.spentKeyImages.lookup ki with
    | none => p
    | some set =>
      if id ∈ set then
        let set' := set.erase id
        let p' := p.withSpentKeyImages
          (if set' = [] then p.spentKeyImages.erase ki else p.spentKeyImages.insert ki set')
        removeTransactionKeyimages p' id rest
      else p
  | _ :: _ => p

/-- One image of `mark_double_spend`: every pool transaction that uses it is marked. -/
def markImage (p : TxPool) (ki : KeyImage) : TxPool :=
  ((p.spentKeyImages.lookup ki).getD []).foldl
    (fun p txid =>
      match p.getMeta txid with
      | some m =>
        if m.doubleSpendSeen then p else p.updateMeta txid { m with doubleSpendSeen := true }
      | none => p)
    p

/-- `mark_double_spend`, which stops at an input of another kind. -/
def markDoubleSpend (p : TxPool) : List TxIn → TxPool
  | [] => p
  | .toKey _ _ ki :: rest => (p.markImage ki).markDoubleSpend rest
  | _ :: _ => p

/-! ## The sorted container -/

/-- Insertion into the multiset: after the entries that compare equal. -/
def insertSorted (x : SortedTx) : List SortedTx → List SortedTx
  | [] => [x]
  | y :: ys => if x.before y then x :: y :: ys else y :: insertSorted x ys

def eraseSorted (p : TxPool) (id : Hash) : TxPool :=
  { p with txsByFeeAndReceiveTime := p.txsByFeeAndReceiveTime.filter fun e => e.txid ≠ id }

/-- The insertion fails when the id is already there: the right side of the bimap is a set. -/
def addSorted (p : TxPool) (e : SortedTx) : TxPool :=
  if p.txsByFeeAndReceiveTime.any fun f => f.txid = e.txid then p
  else { p with txsByFeeAndReceiveTime := insertSorted e p.txsByFeeAndReceiveTime }

/-- `add_tx_to_transient_lists`. An id seen before is moved, not added twice. -/
def addTxToTransientLists (p : TxPool) (txid : Hash) (feeRate receiveTime : UInt64) : TxPool :=
  let now := p.clock.now
  let moved := if txid ∈ p.addedTxsById then p.eraseSorted txid else p
  let p' := moved.addSorted ⟨feeRate, receiveTime, txid⟩
  { p' with
    addedTxsById := p.addedTxsById.insert txid now
    addedTxsStartTime := if p.addedTxsStartTime = 0 then now else p.addedTxsStartTime
    clock := p.clock.tick }

/-! ## Removed transactions -/

/-- Insertion into the multimap: after the entries of the same time. -/
def insertRemoved (e : RemovedTx) : List RemovedTx → List RemovedTx
  | [] => [e]
  | f :: rest => if e.time < f.time then e :: f :: rest else f :: insertRemoved e rest

/-- `MAX_REMOVED`. -/
def maxRemoved : Nat := 20000

/-- The list of removed transactions is kept short, and the time from which it is complete goes
    with it: a quarter is dropped from a list that is too long, else what is older than half an
    hour. -/
def trimRemoved (now : Time) (removed : List RemovedTx) (start : Time) : List RemovedTx × Time :=
  if removed.length > maxRemoved then
    let kept := removed.drop (maxRemoved / 4 + 1)
    (kept, (kept.head?.map RemovedTx.time).getD 0)
  else
    let earliest := now - 30 * 60
    if (removed.takeWhile fun e => e.time < earliest) = [] then (removed, start)
    else (removed.dropWhile fun e => e.time < earliest, earliest)

/-- `track_removed_tx`. -/
def trackRemovedTx (p : TxPool) (txid : Hash) (sensitive : Bool) : TxPool :=
  let now := p.clock.now
  let trimmed := trimRemoved now (insertRemoved ⟨now, txid, sensitive⟩ p.removedTxsByTime)
    (if p.removedTxsStartTime = 0 then now else p.removedTxsStartTime)
  { p with
    removedTxsByTime := trimmed.1
    removedTxsStartTime := trimmed.2
    clock := p.clock.tick }

/-- `remove_tx_from_transient_lists`. -/
def removeTxFromTransientLists (p : TxPool) (txid : Hash) (sensitive : Bool) : TxPool :=
  let p' := p.eraseSorted txid
  { p' with addedTxsById := p'.addedTxsById.erase txid }.trackRemovedTx txid sensitive

/-- A transaction leaves the table and every index, as in `take_tx` and `prune`. -/
def drop (p : TxPool) (id : Hash) (m : TxMeta) (vin : List TxIn) : TxPool :=
  let p := (p.withTable (p.txpool.erase id)).reduceTxpoolWeight m.weight
  (p.removeTransactionKeyimages id vin).removeTxFromTransientLists id m.sensitive

/-! ## Pruning -/

/-- One entry of `prune` that is due: its transaction leaves every index. `none` when its blob
    does not parse. -/
def pruneEntry (E : Externals) (p : TxPool) (id : Hash) (m : TxMeta) (blob : Blob) :
    Option TxPool :=
  (E.parseTxPrefix blob).map fun tx => p.drop id m tx.vin

/-- The loop of `prune` over the ids from the cheapest on. A blob that does not parse ends it
    and rolls the table back, but not the indexes in memory. -/
def pruneLoop (E : Externals) (bytes : UInt64)
    (table : AList fun _ : Hash => TxMeta × Blob) : List Hash → TxPool → TxPool
  | [], p => p
  | id :: rest, p =>
    if p.txpoolWeight ≤ bytes then p
    else
      match p.txpool.lookup id with
      | none => pruneLoop E bytes table rest p
      | some (m, blob) =>
        -- Transactions of a block being added are not pruned.
        if m.relay = .block then pruneLoop E bytes table rest p
        else
          match p.pruneEntry E id m blob with
          | none => p.withTable table
          | some p' => pruneLoop E bytes table rest p'

/-- `prune`, which never removes the first entry. -/
def prune (E : Externals) (p : TxPool) (bytes : UInt64) : TxPool :=
  let bytes := if bytes = 0 then p.txpoolMaxWeight else bytes
  pruneLoop E bytes p.txpool ((p.txsByFeeAndReceiveTime.tail.map SortedTx.txid).reverse) p

/-! ## Input checks and their cache -/

/-- `check_tx_inputs` of the pool. `getTx` is called only when the cache has no answer, and
    the check throws when it yields nothing. -/
def checkTxInputs (E : Externals) (v : ChainView) (p : TxPool) (getTx : Option Transaction)
    (txid : Hash) (tvc : Tvc) (maxUsedBlockId : Hash) (keptByBlock : Bool) :
    Option (InputCheck × TxPool) :=
  match if keptByBlock then none else p.inputCache.lookup txid with
  | some cached => some (cached, p)
  | none =>
    getTx.map fun tx =>
      let r := CocaineNode.checkTxInputs E v tx tvc maxUsedBlockId keptByBlock
      (r, if keptByBlock then p else p.cacheInputs txid r)

/-- What `is_transaction_ready_to_go` leaves its caller with. -/
structure Readiness where
  ready : Bool
  txd : TxMeta
  tx : Transaction

/-- `is_transaction_ready_to_go`, `none` when the blob has to be parsed and does not. The
    returned `tx` is the parsed transaction only if the cache had no answer. -/
def isTransactionReadyToGo (E : Externals) (v : ChainView) (p : TxPool) (txd : TxMeta)
    (txid : Hash) (blob : Blob) : Option (Readiness × TxPool) :=
  let topHeight := v.db.height - 1
  let topHash := v.db.blockIdByHeight topHeight
  -- Already known not to pass on this exact chain.
  if txd.lastFailedId = topHash then some (⟨false, txd, {}⟩, p)
  else
    let tx := if txid ∈ p.inputCache then {} else (E.parseTx blob).getD {}
    (p.checkTxInputs E v (E.parseTx blob) txid {} txd.maxUsedBlockId false).map fun (r, p') =>
      let txd := { txd with
        maxUsedBlockHeight := r.maxUsedBlockHeight, maxUsedBlockId := r.maxUsedBlockId }
      if r.ok then (⟨true, txd, tx⟩, p')
      else
        let failed := { txd with lastFailedHeight := topHeight, lastFailedId := topHash }
        (⟨false, failed, tx⟩, p')

/-! ## Adding and taking -/

/-- The key images are inserted, then the entry, then its place in the lists. The table throws
    for an id it has, unless that entry was removed before; the exception is caught. -/
def storeTx (E : Externals) (p : TxPool) (c : AddTxCall) (txRelay : RelayMethod) (txMeta : TxMeta)
    (now : UInt64) (replace : Bool) : Bool × TxPool :=
  let r := p.insertKeyImages c.id txRelay c.tx.vin
  if !r.1 || (!replace && c.id ∈ r.2.txpool) then (false, r.2)
  else
    (true, (r.2.withTable (r.2.txpool.insert c.id (txMeta, c.blob))).addTxToTransientLists c.id
      (E.feeRate txMeta.fee (if c.txWeight = 0 then 1 else c.txWeight)) now)

/-- `add_tx` for a transaction of a block whose inputs do not check out: it is kept, since it
    may become valid again. -/
def addTxUnverified (E : Externals) (p : TxPool) (c : AddTxCall) (fee now : UInt64) (tvc : Tvc) :
    Bool × Tvc × TxPool :=
  let txMeta : TxMeta :=
    { maxUsedBlockId := nullHash, lastFailedId := nullHash, weight := c.txWeight, fee := fee
      maxUsedBlockHeight := 0, lastFailedHeight := 0, receiveTime := now, relay := c.txRelay
      relayed := c.relayed, doubleSpendSeen := p.haveTxKeyimgesAsSpent c.tx c.id
      pruned := c.tx.pruned }
  let r := (p.cacheParsed c.id c.tx).storeTx E c c.txRelay txMeta now false
  if !r.1 then (false, tvc, r.2)
  else (true, { tvc with verifivationImpossible := true, addedToPool := true }, r.2)

/-- The relay method a transaction is entered with. A stem transaction that comes back as stem
    has looped, and is fluffed. -/
def relayAs (p : TxPool) (c : AddTxCall) : RelayMethod :=
  if c.txRelay = .stem ∧ (p.getMeta c.id).map TxMeta.relay = some .stem then .fluff else c.txRelay

/-- `upgrade_relay_method`, on an entry of no method when there is none. -/
def upgradesRelay (p : TxPool) (c : AddTxCall) : Bool :=
  (((p.getMeta c.id).map TxMeta.relay).getD .none).rank < (p.relayAs c).rank

/-- `add_tx` for a transaction whose inputs check out. An entry that is there already is replaced
    only when its relay method is upgraded. -/
def addTxVerified (E : Externals) (p : TxPool) (c : AddTxCall) (fee now : UInt64) (tvc : Tvc)
    (check : InputCheck) : Bool × Tvc × TxPool :=
  let p := if c.txRelay = .block then p.cacheParsed c.id c.tx else p
  let existing := p.getMeta c.id
  let replace := p.upgradesRelay c || existing.isNone
  let feeOut := if replace then fee else (existing.map TxMeta.fee).getD 0
  let tvcOut := { tvc with
    addedToPool := existing.isNone
    relay := if feeOut > 0 ∧ p.relayAs c ≠ .forward then p.relayAs c else tvc.relay }
  if replace then
    let txMeta : TxMeta :=
      { maxUsedBlockId := check.maxUsedBlockId, lastFailedId := nullHash, weight := c.txWeight
        fee := fee, maxUsedBlockHeight := check.maxUsedBlockHeight, lastFailedHeight := 0
        receiveTime := now, relayed := c.relayed, doubleSpendSeen := false, pruned := c.tx.pruned
        relay := if p.upgradesRelay c then p.relayAs c
          else (existing.map TxMeta.relay).getD .none }
    let r := p.storeTx E c (p.relayAs c) txMeta now true
    if !r.1 then (false, tvc, r.2) else (true, tvcOut, r.2)
  else (true, tvcOut, p)

/-- The rules that need no chain, unless the caller has checked them for this version. -/
def nicVerified (E : Externals) (c : AddTxCall) (tvc : Tvc) : Bool × Tvc :=
  if c.version = c.nicVerifiedHfVersion then (true, tvc)
  else verNonInputConsensus E [c.tx] tvc c.version

/-- The refusals of `add_tx` before it looks at the inputs. -/
def addTxRefusal (E : Externals) (v : ChainView) (p : TxPool) (c : AddTxCall) (tvc : Tvc) :
    Option (Tvc × TxPool) :=
  let keptByBlock : Bool := c.txRelay = .block
  let nic := nicVerified E c tvc
  let relayOnly := { nic.2 with verifivationFailed := true, noDropOffense := true }
  if !keptByBlock && c.id ∈ p.timedOutTransactions then
    some ({ tvc with verifivationFailed := true }, p)
  else if !nic.1 then some ({ nic.2 with verifivationFailed := true }, p)
  else if !(keptByBlock || E.checkFee v.db v.version c.txWeight c.tx.fee) then
    some ({ relayOnly with feeTooLow := true }, p)
  else if !keptByBlock && c.tx.extra.length > 1060 then
    some ({ relayOnly with txExtraTooBig := true }, p)
  else if !keptByBlock && c.tx.unlockTime ≠ 0 then
    some ({ relayOnly with nonzeroUnlockTime := true }, p)
  else if !keptByBlock && p.haveTxKeyimgesAsSpent c.tx c.id then
    some ({ relayOnly with doubleSpend := true }, p.markDoubleSpend c.tx.vin)
  else none

/-- The end of `add_tx`, with the answer of the input checks. -/
def enterTx (E : Externals) (p : TxPool) (c : AddTxCall) (now : UInt64) (check : InputCheck) :
    Bool × Tvc × TxPool :=
  if !check.ok && c.txRelay ≠ .block then
    (false, { check.tvc with verifivationFailed := true, invalidInput := true }, p)
  else
    let r := if check.ok then p.addTxVerified E c c.tx.fee now check.tvc check
      else p.addTxUnverified E c c.tx.fee now check.tvc
    if !r.1 then r
    else
      let p := if r.2.1.addedToPool then r.2.2.addTxpoolWeight c.txWeight else r.2.2
      (true, { r.2.1 with verifivationFailed := false }, p.prune E p.txpoolMaxWeight)

/-- `add_tx`. -/
def addTx (E : Externals) (v : ChainView) (p : TxPool) (c : AddTxCall) (now : UInt64) (tvc : Tvc) :
    Bool × Tvc × TxPool :=
  match p.addTxRefusal E v c tvc with
  | some (tvc, p) => (false, tvc, p)
  | none =>
    let tvc := { (nicVerified E c tvc).2 with verifivationFailed := true }
    match p.checkTxInputs E v (some c.tx) c.id tvc nullHash (c.txRelay = .block) with
    | none => (false, tvc, p)
    | some (check, p) => p.enterTx E c now check

/-- What `take_tx` hands over. -/
structure TakenTx where
  tx : Transaction
  blob : Blob
  weight : UInt64
  fee : UInt64
  relayed : Bool
  pruned : Bool

/-- `take_tx`: the transaction and the pool without it, or `none` when it is not there or does
    not parse. -/
def takeTx (E : Externals) (p : TxPool) (id : Hash) : Option (TakenTx × TxPool) :=
  match p.txpool.lookup id with
  | none => none
  | some (m, blob) =>
    let parsed := match p.parsedTxCache.lookup id with
      | some tx => some tx
      | none => if m.pruned then E.parseTxBase blob else E.parseTx blob
    parsed.map fun tx =>
      (⟨tx, blob, m.weight, m.fee, m.relayed, m.pruned⟩, p.drop id m tx.vin)

/-- `on_blockchain_inc` and `on_blockchain_dec`: the caches are for one chain only. -/
def onBlockchainChange (p : TxPool) : TxPool :=
  { p with inputCache := ∅, parsedTxCache := ∅ }

/-- Word `n` of an id as `compare_hash32` reads it: four bytes, the last one the highest. -/
def idWord (id : Hash) (n : Nat) : Nat :=
  (List.range 4).foldl (fun acc k => acc + Difficulty.hashByte id (4 * n + k) * 2 ^ (8 * k)) 0

/-- `compare_hash32` over the first words, of which there are 8: whether it is not positive. The
    last word that differs decides. -/
def compareHash32 (a b : Hash) : Nat → Bool
  | 0 => true
  | n + 1 => if idWord a n = idWord b n then compareHash32 a b n else idWord a n < idWord b n

/-- The entries of the table in the order of the database. -/
def entriesById (p : TxPool) : List (Hash × TxMeta) :=
  (p.txpool.entries.map fun e => (e.1, e.2.1)).insertionSort fun a b => compareHash32 a.1 b.1 8

/-- One turn of `validate`: the transaction is taken out and added back under its old relay
    method, and keeps its old metadata if that succeeds. A transaction that cannot be taken
    is added back as the empty object the caller declared. -/
def revalidate (E : Externals) (v : ChainView) (version : UInt8) (now : UInt64) (p : TxPool)
    (e : Hash × TxMeta) : TxPool :=
  let taken := (p.takeTx E e.1).getD (⟨{}, [], 0, 0, false, false⟩, p)
  let r := taken.2.addTx E v
    { tx := taken.1.tx, id := e.1, blob := taken.1.blob, txWeight := e.2.weight
      txRelay := e.2.relay, relayed := taken.1.relayed, version := version } now {}
  if r.1 then r.2.2.updateMeta e.1 e.2 else r.2.2

/-- What `validate` and `init` do to the lists for clients first. -/
def forgetChanges (p : TxPool) : TxPool :=
  { p with
    addedTxsById := ∅, addedTxsStartTime := 0, removedTxsByTime := [], removedTxsStartTime := 0 }

/-- `validate`. -/
def validate (E : Externals) (v : ChainView) (version : UInt8) (now : UInt64) (p : TxPool) :
    TxPool :=
  let p := p.forgetChanges
  (p.entriesById.filter fun e => !e.2.pruned).foldl (revalidate E v version now) p

/-! ## Block templates -/

/-- `have_key_images`, which gives up at an input of another kind. -/
def haveKeyImages (kImages : List KeyImage) : List TxIn → Bool
  | [] => false
  | .toKey _ _ ki :: rest => if ki ∈ kImages then true else haveKeyImages kImages rest
  | _ :: _ => false

/-- `append_key_images`, which stops at an image it already has. -/
def appendKeyImages (kImages : List KeyImage) : List TxIn → List KeyImage
  | [] => kImages
  | .toKey _ _ ki :: rest =>
    if ki ∈ kImages then kImages else appendKeyImages (ki :: kImages) rest
  | _ :: _ => kImages

/-- `template_accept_threshold`: the amount as a 32-bit float, which keeps 24 significant bits
    and rounds half to even. -/
def templateAcceptThreshold (amount : UInt64) : UInt64 :=
  let n := amount.toNat
  if n < 2 ^ 24 then amount
  else
    let unit := 2 ^ (n.log2 - 23)
    let q := n / unit
    let r := n % unit
    let up : Bool := 2 * r > unit || (2 * r = unit && q % 2 = 1)
    UInt64.ofNat ((if up then q + 1 else q) * unit)

/-- The local variables of `fill_block_template`. -/
structure Filling where
  pool : TxPool
  txHashes : List Hash
  totalWeight : UInt64
  fee : UInt64
  bestCoinbase : UInt64
  coinbase : UInt64
  kImages : List KeyImage

/-- The fixed arguments of `fill_block_template`. -/
structure TemplateArgs where
  medianWeight : UInt64
  alreadyGeneratedCoins : UInt64
  version : UInt8

def TemplateArgs.maxTotalWeight (a : TemplateArgs) : UInt64 :=
  if a.version ≥ 5 then 2 * a.medianWeight - 600 else 130 * a.medianWeight / 100 - 600

/-- What the weight rules say about one entry. -/
inductive WeightVerdict where
  | skip
  | stop
  | take (coinbase : UInt64)

/-- The weight rules of one turn: from version 5 an entry must not lower the coinbase, before
    it the loop ends once the median is passed. -/
def weightVerdict (a : TemplateArgs) (f : Filling) (m : TxMeta) : WeightVerdict :=
  if a.maxTotalWeight < f.totalWeight + m.weight then .skip
  else if a.version ≥ 5 then
    match getBlockReward a.medianWeight (f.totalWeight + m.weight) a.alreadyGeneratedCoins
        a.version with
    | none => .skip
    | some reward =>
      let coinbase := reward + f.fee + m.fee
      if coinbase < templateAcceptThreshold f.bestCoinbase then .skip else .take coinbase
  else if f.totalWeight > a.medianWeight then .stop
  else .take f.coinbase

/-- The part of one turn after the weight rules: the readiness check, then the key images. -/
def fillReady (E : Externals) (v : ChainView) (f : Filling) (id : Hash) (m : TxMeta) (blob : Blob)
    (coinbase : UInt64) : Filling :=
  let f := { f with coinbase := coinbase }
  match f.pool.isTransactionReadyToGo E v m id blob with
  -- An exception while parsing is caught, and the entry is not ready.
  | none => f
  | some (r, pool) =>
    let pool := if r.txd = m then pool else pool.updateMeta id r.txd
    if !r.ready then { f with pool }
    else if haveKeyImages f.kImages r.tx.vin then { f with pool }
    else
      { f with
        pool
        txHashes := f.txHashes ++ [id]
        totalWeight := f.totalWeight + r.txd.weight
        fee := f.fee + r.txd.fee
        bestCoinbase := coinbase
        kImages := appendKeyImages f.kImages r.tx.vin }

/-- Whether an entry is one a template may take at all. -/
def mineable (mineStemTxes : Bool) (m : TxMeta) : Bool :=
  (m.relay.matches .legacy || (mineStemTxes && m.relay = .stem)) && !m.pruned

/-- The loop of `fill_block_template` over the sorted container. -/
def fillLoop (E : Externals) (v : ChainView) (a : TemplateArgs) : List Hash → Filling → Filling
  | [], f => f
  | id :: rest, f =>
    match f.pool.txpool.lookup id with
    | none => fillLoop E v a rest f
    | some (m, blob) =>
      if !mineable f.pool.mineStemTxes m then fillLoop E v a rest f
      else
        match weightVerdict a f m with
        | .skip => fillLoop E v a rest f
        | .stop => f
        | .take coinbase => fillLoop E v a rest (fillReady E v f id m blob coinbase)

/-- `fill_block_template`: the filling, or `none` when even an empty block is too heavy. -/
def fillBlockTemplate (E : Externals) (v : ChainView) (p : TxPool) (a : TemplateArgs) :
    Option Filling :=
  (getBlockReward a.medianWeight 0 a.alreadyGeneratedCoins a.version).map fun best =>
    fillLoop E v a (p.txsByFeeAndReceiveTime.map SortedTx.txid)
      { pool := p, txHashes := [], totalWeight := 0, fee := 0, bestCoinbase := best
        coinbase := 0, kImages := [] }

end TxPool

end CocaineNode
