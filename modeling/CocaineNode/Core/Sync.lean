import CocaineNode.Core.BlockQueue
import CocaineNode.Core.IncomingBlocks
import CocaineNode.Lib.Loop

/-!
# Adding Downloaded Blocks

`try_add_next_blocks` of the protocol handler: the loop that takes the filled
spans of the block queue one after another and adds their blocks to the chain.

The handler sees the core through a handful of calls (`CoreOps`), and what the
rest of the handler decides about the peer it is talking to is in `PeerOps`.
Both are parameters. `nodeCore` gives the calls their meaning on a `Node`.

The function returns 1 wherever it returns. `Exit` tells its ways out apart,
and `Event` records the calls to the core that have to match, together with
the moments at which a span is taken, in order.

Closing a connection is asynchronous, so a connection that is dropped is still
listed until the call is over; dropping it here is what happens to its spans.
Other threads do not touch the queue meanwhile. Fail counts of hosts, pruning
stripes and mining pauses are left out.

## Main definitions

* `makeFullPoolSupplementFromBlockEntry`: The transactions of a block as they were sent.
* `CoreOps`, `PeerOps`: What the loop calls.
-/

namespace CocaineNode

/-! ## The transactions of an entry -/

/-- How the transactions of an entry are taken: as a supplement, not at all, or by an exception. -/
inductive SupplementEnd where
  | made (ps : PoolSupplement)
  | refused
  | threw
  deriving DecidableEq

/-- A transaction of an entry with its id. `get_pruned_transaction_hash` throws on version 1. -/
def readSupplementTx (E : Externals) (entry : TxBlobEntry) (isPruned : Bool) :
    Option (Option (Transaction × Hash)) :=
  if isPruned then
    if E.parseTxBaseThrows entry.blob then none
    else
      match E.parseTxBase entry.blob with
      | none => some none
      | some tx =>
        if tx.version ≤ 1 then none else some (some (tx, E.prunedTxHash tx entry.prunableHash))
  else if E.parseTxThrows entry.blob then none
  else some ((E.parseTx entry.blob).map fun tx => (tx, E.txHash tx))

/-- The loop of `make_pool_supplement_from_block_entry`. -/
def supplementTxs (E : Externals) (blkTxHashes : List Hash) (allowPruned : Bool) :
    List TxBlobEntry → PoolSupplement → SupplementEnd
  | [], ps => .made ps
  | entry :: rest, ps =>
    let isPruned : Bool := entry.prunableHash ≠ nullHash
    if entry.blob.length > 1000000 then .refused
    else if isPruned && !allowPruned then .refused
    else
      match readSupplementTx E entry isPruned with
      | none => .threw
      | some none => .refused
      | some (some (tx, txHash)) =>
        if txHash ∉ blkTxHashes then .refused
        else
          -- `emplace` keeps the first of two transactions with one id.
          let txs := ps.txsByTxid
          supplementTxs E blkTxHashes allowPruned rest
            { ps with
              txsByTxid := if txHash ∈ txs then txs else txs.insert txHash (tx, entry.blob) }

/-- `make_pool_supplement_from_block_entry`, with the set of hashes as a list without repeats. -/
def makePoolSupplementFromBlockEntry (E : Externals) (txEntries : List TxBlobEntry)
    (blkTxHashes : List Hash) (allowPruned : Bool) : SupplementEnd :=
  if txEntries.length > blkTxHashes.length then .refused
  else supplementTxs E blkTxHashes allowPruned txEntries {}

/-- `make_full_pool_supplement_from_block_entry`. The block is parsed without its id. -/
def makeFullPoolSupplementFromBlockEntry (E : Externals) (entry : BlockCompleteEntry) :
    SupplementEnd :=
  match E.parseBlock entry.block with
  | none => .refused
  | some blk =>
    let blkTxHashes := blk.txHashes.dedup
    if blkTxHashes.length ≠ entry.txs.length then .refused
    else if blkTxHashes.length ≠ blk.txHashes.length then .refused
    else makePoolSupplementFromBlockEntry E entry.txs blkTxHashes entry.pruned

/-! ## State and interfaces -/

/-- A live connection. -/
structure Connection where
  connectionId : ConnectionId
  remoteAddress : NetworkAddress
  deriving DecidableEq, Repr

/-- The context of the connection whose thread runs the loop. -/
structure PeerContext where
  connectionId : ConnectionId
  isIncome : Bool
  neededObjects : List (Hash × UInt64)
  lastResponseHeight : UInt64
  deriving DecidableEq, Repr

/-- The calls the loop makes into the core, and `m_stopping`, which another thread may set. -/
structure CoreOps (σ : Type) where
  height : σ → UInt64
  haveBlock : σ → Hash → Bool
  prepareHandleIncomingBlocks : σ → List BlockCompleteEntry → CallEnd × List Block × σ
  handleIncomingBlock : σ → Blob → Option Block → PoolSupplement → Bvc × σ
  cleanupHandleIncomingBlocks : σ → Bool × σ
  stopping : σ → Bool

/-- Why the content of a span is not accepted. -/
inductive ContentFault where
  | transactions
  | verification
  | orphaned
  deriving DecidableEq, Repr

/-- Why a span is rejected. `content` is found while its blocks are added, and carries whether the
    cleanup succeeded. -/
inductive Rejection where
  | parentHeight
  | preparation
  | content (fault : ContentFault) (cleaned : Bool)
  deriving DecidableEq, Repr

/-- The ways out of the function. -/
inductive Exit where
  | lockBusy
  | noSpan
  | parentRequested
  | parentLater
  | parentUnknown
  | contextDropped
  | rejected (why : Rejection) (span : Span)
  | sizeMismatch
  | stopping
  | cleanupFailed
  | screenThrew
  | prepareThrew
  | addThrew (entry : BlockCompleteEntry)
  deriving DecidableEq, Repr

/-- What the loop does, as far as it has to match. -/
inductive Event where
  | tookSpan
  | prepared (result : CallEnd)
  | cleanedUp
  deriving DecidableEq, Repr

/-- What the function reads and writes. -/
structure SyncState (σ : Type) where
  core : σ
  queue : BlockQueue
  connections : List Connection
  context : PeerContext
  syncLocked : Bool
  events : List Event

/-- What the rest of the handler decides about the peer of the context. -/
structure PeerOps (σ : Type) where
  shouldDropConnection : SyncState σ → Bool
  shouldDownloadNextSpan : SyncState σ → Bool
  requestMissingObjects : SyncState σ → Bool → Bool × BlockQueue × PeerContext

namespace SyncState

variable {σ : Type}

/-- The state with another core. -/
def withCore (s : SyncState σ) (core : σ) : SyncState σ :=
  { s with core }

/-- The state with another queue. -/
def withQueue (s : SyncState σ) (queue : BlockQueue) : SyncState σ :=
  { s with queue }

/-- The state with another context. -/
def withContext (s : SyncState σ) (context : PeerContext) : SyncState σ :=
  { s with context }

/-- One more event. -/
def record (s : SyncState σ) (e : Event) : SyncState σ :=
  { s with events := s.events ++ [e] }

/-- `remove_spans` with the connection and the start height of a span. -/
def removeSpan (s : SyncState σ) (span : Span) : SyncState σ :=
  s.withQueue (s.queue.removeSpans span.connectionId span.startBlockHeight)

/-! ## Dropping connections -/

/-- `drop_connection_with_score` of a connection. -/
def dropConnectionWithScore (s : SyncState σ) (id : ConnectionId) (flushAllSpans : Bool) :
    SyncState σ :=
  s.withQueue (s.queue.flushSpans id flushAllSpans)

/-- `for_connection` with a function that drops the connection. -/
def forConnectionDrop (s : SyncState σ) (id : ConnectionId) (flushAllSpans : Bool) : SyncState σ :=
  if s.connections.any fun c => c.connectionId = id then s.dropConnectionWithScore id flushAllSpans
  else s

/-- `drop_connection` by id. -/
def dropConnection (s : SyncState σ) (id : ConnectionId) : SyncState σ :=
  s.forConnectionDrop id false

/-- What `drop_connections` does with one connection. -/
def dropOne (s : SyncState σ) (id : ConnectionId) : SyncState σ :=
  (s.withQueue (s.queue.flushSpans id true)).forConnectionDrop id false

/-- `drop_connections`: every connection to the host of an address, with all its spans. -/
def dropConnections (s : SyncState σ) (address : NetworkAddress) : SyncState σ :=
  let drop := (s.connections.filter fun c => address.isSameHost c.remoteAddress).map
    Connection.connectionId
  drop.foldl dropOne s

/-- A connection that has closed: it is off the list, and `on_connection_close` flushes those of its
    spans that are not filled. -/
def onConnectionClose (s : SyncState σ) (id : ConnectionId) : SyncState σ :=
  { s with
    connections := s.connections.filter fun c => c.connectionId ≠ id
    queue := s.queue.flushSpans id false }

/-! ## One span -/

/-- What the checks before the preparation find. -/
inductive Screening where
  | discard
  | threw
  | parentHeight
  | parentRequested
  | parentLater
  | parentUnknown
  | process
  deriving DecidableEq, Repr

/-- The checks on a span before its blocks are prepared: the last block must parse and be new, and
    the parent of the first must be known. -/
def screen (E : Externals) (core : CoreOps σ) (s : SyncState σ) (span : Span) : Screening :=
  match (span.blocks.getLast?).bind fun e => E.parseBlock e.block with
  | none => .discard
  | some last =>
    if last.hashThrows then .threw
    else if core.haveBlock s.core (E.blockHash last) then .discard
    else
      match (span.blocks.head?).bind fun e => E.parseBlock e.block with
      | none => .discard
      | some first =>
        let confirmedHeight := s.queue.haveHeight first.prevId
        if core.haveBlock s.core first.prevId then .process
        else if confirmedHeight ≠ UInt64.ofNat (2 ^ 64 - 1) ∧
            confirmedHeight + 1 ≠ span.startBlockHeight then .parentHeight
        else if s.queue.requested first.prevId then .parentRequested
        else if span.startBlockHeight > core.height s.core then .parentLater
        else .parentUnknown

/-- How the loop over the blocks of a span ends. -/
inductive EntriesEnd where
  | through
  | stopping
  | threw (entry : BlockCompleteEntry)
  | fault (fault : ContentFault)
  deriving DecidableEq, Repr

/-- The loop over the blocks of a span. Blocks that were parsed beforehand come along. -/
def addEntries (E : Externals) (core : CoreOps σ) :
    List BlockCompleteEntry → List Block → σ → EntriesEnd × σ
  | [], _, c => (.through, c)
  | e :: rest, pblocks, c =>
    if core.stopping c then (.stopping, c)
    else
      match makeFullPoolSupplementFromBlockEntry E e with
      | .threw => (.threw e, c)
      | .refused => (.fault .transactions, c)
      | .made txs =>
        let r := core.handleIncomingBlock c e.block pblocks.head? txs
        if r.1.verifivationFailed then (.fault .verification, r.2)
        else if r.1.markedAsOrphaned then (.fault .orphaned, r.2)
        else addEntries E core rest pblocks.tail r.2

/-- `cleanup_handle_incoming_blocks`, recorded. -/
def cleanUp (core : CoreOps σ) (s : SyncState σ) : Bool × SyncState σ :=
  let r := core.cleanupHandleIncomingBlocks s.core
  (r.1, (s.withCore r.2).record .cleanedUp)

/-- What follows a fault in the content of a span. The span is removed by hand in case the peer was
    gone before, unless the cleanup fails. -/
def rejectContent (core : CoreOps σ) (s : SyncState σ) (span : Span) (fault : ContentFault) :
    Loop.Turn (SyncState σ) Exit :=
  let s := (s.dropConnections span.origin).forConnectionDrop span.connectionId true
  let r := s.cleanUp core
  if r.1 then .leave (.rejected (.content fault true) span) (r.2.removeSpan span)
  else .leave (.rejected (.content fault false) span) r.2

/-- What follows a preparation that returned true. -/
def addPrepared (E : Externals) (core : CoreOps σ) (s : SyncState σ) (span : Span)
    (pblocks : List Block) : Loop.Turn (SyncState σ) Exit :=
  if pblocks ≠ [] ∧ pblocks.length ≠ span.blocks.length then .leave .sizeMismatch (s.cleanUp core).2
  else
    let r := addEntries E core span.blocks pblocks s.core
    let s := s.withCore r.2
    match r.1 with
    | .stopping => .leave .stopping (s.cleanUp core).2
    | .threw entry => .leave (.addThrew entry) s
    | .fault fault => s.rejectContent core span fault
    | .through =>
      let r := s.cleanUp core
      if r.1 then .again (r.2.removeSpan span) else .leave .cleanupFailed r.2

/-- The blocks of a span prepared and added. -/
def processSpan (E : Externals) (core : CoreOps σ) (s : SyncState σ) (span : Span) :
    Loop.Turn (SyncState σ) Exit :=
  let r := core.prepareHandleIncomingBlocks s.core span.blocks
  let s := (s.withCore r.2.2).record (.prepared r.1)
  match r.1 with
  | .throws => .leave .prepareThrew s
  | .returns false => .leave (.rejected .preparation span) (s.dropConnections span.origin)
  | .returns true => s.addPrepared E core span r.2.1

/-- One turn of the loop. -/
def addNextSpan (E : Externals) (core : CoreOps σ) (peer : PeerOps σ) (s : SyncState σ) :
    Loop.Turn (SyncState σ) Exit :=
  match s.queue.getNextSpan with
  | none => .leave .noSpan s
  | some span =>
    let s := s.record .tookSpan
    match s.screen E core span with
    | .discard => .again (s.removeSpan span)
    | .threw => .leave .screenThrew s
    | .parentHeight =>
      .leave (.rejected .parentHeight span) (s.dropConnection span.connectionId)
    | .parentRequested => .leave .parentRequested s
    | .parentLater =>
      if peer.shouldDropConnection s then
        .leave .contextDropped (s.dropConnectionWithScore s.context.connectionId true)
      else .leave .parentLater s
    | .parentUnknown =>
      let s := s.removeSpan span
      .leave .parentUnknown
        (s.withContext { s.context with neededObjects := [], lastResponseHeight := 0 })
    | .process => s.processSpan E core span

/-! ## The function -/

/-- What follows the label `skip`: `request_missing_objects`, which first flushes the spans that
    wait for connections that are gone. -/
def skip (peer : PeerOps σ) (s : SyncState σ) (forceNextSpan : Bool) : SyncState σ :=
  let live := s.connections.map Connection.connectionId
  let s := s.withQueue (s.queue.flushStaleSpans live)
  let r := peer.requestMissingObjects s forceNextSpan
  let s := (s.withQueue r.2.1).withContext r.2.2
  if r.1 then s else s.dropConnectionWithScore s.context.connectionId false

/-- What follows a `break` out of the loop. -/
def stopAdding (peer : PeerOps σ) (s : SyncState σ) : SyncState σ :=
  if peer.shouldDownloadNextSpan s then s.skip peer true
  else if peer.shouldDropConnection s then
    if s.context.isIncome then s else s.dropConnectionWithScore s.context.connectionId false
  else s.skip peer false

/-- `try_add_next_blocks`; `none` when the loop has used up its turns. -/
def tryAddNextBlocks (E : Externals) (core : CoreOps σ) (peer : PeerOps σ) (s : SyncState σ) :
    Option (Exit × SyncState σ) :=
  if s.syncLocked then some (.lockBusy, s.skip peer false)
  else
    (Loop.run (addNextSpan E core peer) (s.queue.blocks.length + 1) s).map fun r =>
      match r.1 with
      | .noSpan => (.noSpan, r.2.stopAdding peer)
      | .parentRequested => (.parentRequested, r.2.stopAdding peer)
      | .parentLater => (.parentLater, r.2.skip peer false)
      | .parentUnknown => (.parentUnknown, r.2.skip peer false)
      | exit => (exit, r.2)

end SyncState

/-! ## The core of a node -/

/-- What a node meets over the calls it makes, by their number. -/
structure NodeEnv where
  now : UInt64
  depth : Nat
  prepare : Nat → PrepareEnv
  stopping : Nat → Bool

/-- The calls of the handler on a node, which counts them. -/
def nodeCore (E : Externals) (env : NodeEnv) : CoreOps (Node × Nat) where
  height c := UInt64.ofNat c.1.chain.height
  haveBlock c id := c.1.chain.haveBlock id
  prepareHandleIncomingBlocks c entries :=
    let r := c.1.prepareHandleIncomingBlocks E (env.prepare c.2) entries
    (r.1, r.2.1, r.2.2, c.2 + 1)
  handleIncomingBlock c blob b ps :=
    let r := c.1.handleIncomingBlock E env.now env.depth blob b ps
    (r.1, r.2, c.2 + 1)
  cleanupHandleIncomingBlocks c :=
    let r := c.1.cleanupHandleIncomingBlocks
    (r.1, r.2, c.2 + 1)
  stopping c := env.stopping c.2

end CocaineNode
