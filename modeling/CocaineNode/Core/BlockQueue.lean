import CocaineNode.Core.Pruning
import CocaineNode.Core.Types
import CocaineNode.Lib.OrderedSet
import Mathlib.Data.List.AList

/-!
# The Block Queue

The spans of blocks a node is downloading (`cryptonote_protocol/block_queue`).
A span is a range of heights given to one connection; its list of blocks is
empty until the connection has answered, and a span with blocks is called
filled. The source keeps spans in a set ordered by start height, so no two
start at the same height: here they are a list that carries its order.

Two tables go with the spans: the hashes that were requested, and the heights
of those that were received. A span that is erased takes its hashes out of
both.

Rates, sizes and times are left out: they steer which peer is asked next. So is
the number of blocks of a span: only `get_next_needed_height` reads it, and
takes it as a function of the span.

## Main definitions

* `Span`: A range of blocks and the connection it was given to.
* `BlockQueue`: The spans and the two tables.
-/

namespace CocaineNode

/-- `boost::uuids::uuid` of a connection. -/
abbrev ConnectionId := BitVec 128

/-- `epee::net_utils::network_address`, as far as `is_same_host` tells addresses apart. -/
structure NetworkAddress where
  host : Blob
  port : UInt16
  deriving DecidableEq, Repr

/-- `is_same_host`. -/
def NetworkAddress.isSameHost (a b : NetworkAddress) : Bool :=
  a.host = b.host

/-- `block_queue::span`. -/
structure Span where
  startBlockHeight : UInt64
  hashes : List Hash
  blocks : List BlockCompleteEntry
  connectionId : ConnectionId
  origin : NetworkAddress
  deriving DecidableEq, Repr

/-- `block_queue`. -/
structure BlockQueue where
  blocks : List Span
  requestedHashes : Finset Hash
  haveBlocks : AList fun _ : Hash => UInt64
  sorted : blocks.Pairwise fun a b => a.startBlockHeight < b.startBlockHeight

namespace BlockQueue

/-- A queue with no span. -/
def empty : BlockQueue where
  blocks := []
  requestedHashes := ∅
  haveBlocks := ∅
  sorted := .nil

/-- A walk over the spans that calls `erase_block` on some of them. -/
def eraseSpans (q : BlockQueue) (gone : Span → Bool) : BlockQueue where
  blocks := q.blocks.filter fun s => !gone s
  requestedHashes :=
    ((q.blocks.filter gone).flatMap Span.hashes).foldl Finset.erase q.requestedHashes
  haveBlocks := ((q.blocks.filter gone).flatMap Span.hashes).foldl
    (fun t h => t.erase h) q.haveBlocks
  sorted := q.sorted.filter _

/-- `flush_spans`: the spans of a connection, those without blocks or all. -/
def flushSpans (q : BlockQueue) (connectionId : ConnectionId) (all : Bool) : BlockQueue :=
  q.eraseSpans fun s => s.connectionId = connectionId && (all || s.blocks.isEmpty)

/-- `flush_stale_spans`: the spans without blocks of connections that are gone. -/
def flushStaleSpans (q : BlockQueue) (liveConnections : List ConnectionId) : BlockQueue :=
  q.eraseSpans fun s => s.blocks.isEmpty && s.connectionId ∉ liveConnections

/-- `remove_spans`: the spans of a connection that start at a height or below. -/
def removeSpans (q : BlockQueue) (connectionId : ConnectionId) (startBlockHeight : UInt64) :
    BlockQueue :=
  q.eraseSpans fun s =>
    s.connectionId = connectionId && decide (s.startBlockHeight ≤ startBlockHeight)

/-- `get_next_span` with `filled`. -/
def getNextSpan (q : BlockQueue) : Option Span :=
  q.blocks.find? fun s => !s.blocks.isEmpty

/-- `requested`. -/
def requested (q : BlockQueue) (hash : Hash) : Bool :=
  hash ∈ q.requestedHashes

/-- `have_height`, which answers with the largest word for a hash it does not have. -/
def haveHeight (q : BlockQueue) (hash : Hash) : UInt64 :=
  (q.haveBlocks.lookup hash).getD (UInt64.ofNat (2 ^ 64 - 1))

/-- `have`. -/
def haveHash (q : BlockQueue) (hash : Hash) : Bool :=
  hash ∈ q.haveBlocks

/-! ## Spans that enter -/

/-- The order of the spans. -/
def startOf (s : Span) : Nat :=
  s.startBlockHeight.toNat

theorem sorted_iff {l : List Span} :
    l.Pairwise (fun a b => a.startBlockHeight < b.startBlockHeight) ↔
      OrderedSet.Sorted startOf l := by
  rfl

/-- `blocks.insert(s)`, which does nothing when a span starts at that height. -/
def insertSpan (q : BlockQueue) (s : Span) : BlockQueue :=
  { q with
    blocks := OrderedSet.insert startOf s q.blocks
    sorted := sorted_iff.mpr (OrderedSet.sorted_insert s (sorted_iff.mp q.sorted)) }

/-- `remove_span`: the hashes of the span that starts at a height, when there is one. -/
def removeSpan (q : BlockQueue) (startBlockHeight : UInt64) : Option (List Hash) × BlockQueue :=
  match q.blocks.find? fun s => s.startBlockHeight = startBlockHeight with
  | none => (none, q)
  | some s => (some s.hashes, q.eraseSpans fun s => s.startBlockHeight = startBlockHeight)

/-- `requested_hashes.insert(h)` for some hashes. -/
def request (q : BlockQueue) (hashes : List Hash) : BlockQueue :=
  { q with requestedHashes := hashes.foldl (fun t h => insert h t) q.requestedHashes }

/-- `set_span_hashes`: the span is erased and inserted with other hashes. -/
def setSpanHashes (q : BlockQueue) (startHeight : UInt64) (connectionId : ConnectionId)
    (hashes : List Hash) : BlockQueue :=
  match q.blocks.find? fun s =>
      s.startBlockHeight = startHeight && s.connectionId = connectionId with
  | none => q
  | some s =>
    ((q.eraseSpans fun t => t.startBlockHeight = startHeight).request hashes).insertSpan
      { s with hashes }

/-- `have_blocks.emplace(h, height)`, which keeps an entry that is there. -/
def emplace (t : AList fun _ : Hash => UInt64) (h : Hash) (height : UInt64) :
    AList fun _ : Hash => UInt64 :=
  if h ∈ t then t else t.insert h height

/-- The loop of `add_blocks` over the hashes of the span that was there. -/
def emplaceAll (t : AList fun _ : Hash => UInt64) (height : UInt64) :
    List Hash → AList fun _ : Hash => UInt64
  | [] => t
  | h :: rest => emplaceAll (emplace t h height) (height + 1) rest

/-- `add_blocks` with blocks: they take the place of the span at their height, and its hashes. -/
def addBlocks (q : BlockQueue) (height : UInt64) (bcel : List BlockCompleteEntry)
    (connectionId : ConnectionId) (addr : NetworkAddress) : BlockQueue :=
  let r := q.removeSpan height
  let q := r.2.insertSpan ⟨height, [], bcel, connectionId, addr⟩
  match r.1 with
  | none => q
  | some hashes =>
    let q := q.request hashes
    let q := { q with haveBlocks := emplaceAll q.haveBlocks height hashes }
    q.setSpanHashes height connectionId hashes

/-- `add_blocks` with a number of blocks, which throws when it is 0. -/
def scheduleBlocks (q : BlockQueue) (height nblocks : UInt64) (connectionId : ConnectionId)
    (addr : NetworkAddress) : Option BlockQueue :=
  if nblocks = 0 then none else some (q.insertSpan ⟨height, [], [], connectionId, addr⟩)

/-! ## Reserving a span -/

/-- The arguments of `reserve_span`. -/
structure Reserve where
  firstBlockHeight : UInt64
  lastBlockHeight : UInt64
  maxBlocks : UInt64
  connectionId : ConnectionId
  addr : NetworkAddress
  syncPrunedBlocks : Bool
  localPruningSeed : UInt32
  pruningSeed : UInt32
  blockchainHeight : UInt64
  blockHashes : List (Hash × UInt64)
  deriving DecidableEq, Repr

/-- `while (i != block_hashes.end() && requested_internal(..))`: what is left of the hashes, and the
    height of the first of them. -/
def skipRequested (q : BlockQueue) : List (Hash × UInt64) → UInt64 → List (Hash × UInt64) × UInt64
  | [], height => ([], height)
  | e :: rest, height =>
    if q.requested e.1 then skipRequested q rest (height + 1) else (e :: rest, height)

/-- The loop that collects the hashes of the span, with so many collected before. -/
def collectSpan (r : Reserve) (start : UInt64) (firstIsPruned : Bool) :
    List (Hash × UInt64) → UInt64 → List Hash
  | [], _ => []
  | e :: rest, spanLength =>
    let height := start + spanLength
    if spanLength < r.maxBlocks &&
        (r.syncPrunedBlocks ||
          Pruning.hasUnprunedBlock height r.blockchainHeight r.pruningSeed) then
      if r.syncPrunedBlocks && firstIsPruned ==
          Pruning.hasUnprunedBlock height r.blockchainHeight r.localPruningSeed then []
      else e.1 :: collectSpan r start firstIsPruned rest (spanLength + 1)
    else []

/-- Where the span would start that skips what the peer has pruned. The next unpruned height goes
    through a 32-bit variable. -/
def unprunedStart (r : Reserve) (start : UInt64) : UInt64 :=
  if r.syncPrunedBlocks then start
  else
    let nextUnprunedHeight := (Pruning.getNextUnprunedBlockHeight start r.blockchainHeight
      r.pruningSeed).toUInt32.toUInt64
    if nextUnprunedHeight > start && nextUnprunedHeight < start + Pruning.pruningStripeSize then
      nextUnprunedHeight
    else start

/-- The span that `reserve_span` chooses: its start and its hashes. -/
def chooseSpan (q : BlockQueue) (r : Reserve) : Option (UInt64 × List Hash) :=
  if r.lastBlockHeight < r.firstBlockHeight || r.maxBlocks = 0 then none
  else if UInt64.ofNat r.blockHashes.length > r.lastBlockHeight then none
  else
    let hashesStart := r.lastBlockHeight - UInt64.ofNat r.blockHashes.length + 1
    -- skip everything we've already requested
    let start := unprunedStart r (q.skipRequested r.blockHashes hashesStart).2
    if start ≥ UInt64.ofNat r.blockHashes.length + hashesStart then none
    else
      let rest := q.skipRequested (r.blockHashes.drop (start - hashesStart).toNat) start
      let firstIsPruned := r.syncPrunedBlocks &&
        !Pruning.hasUnprunedBlock rest.2 r.blockchainHeight r.localPruningSeed
      let hashes := collectSpan r rest.2 firstIsPruned rest.1 0
      if hashes = [] then none else some (rest.2, hashes)

/-- `reserve_span`: the span it returns, and the queue. -/
def reserveSpan (q : BlockQueue) (r : Reserve) : (UInt64 × UInt64) × BlockQueue :=
  match q.chooseSpan r with
  | none => ((0, 0), q)
  | some (start, hashes) =>
    let q := q.insertSpan ⟨start, [], [], r.connectionId, r.addr⟩
    ((start, UInt64.ofNat hashes.length), q.setSpanHashes start r.connectionId hashes)

/-! ## The next height -/

/-- The loop of `get_next_needed_height` over the spans that are left. -/
def coverSpans (nblocks : Span → UInt64) (blockchainHeight : UInt64) : List Span → UInt64 → UInt64
  | [], coveredUntil => coveredUntil
  | s :: rest, coveredUntil =>
    if s.startBlockHeight + nblocks s - 1 < blockchainHeight then
      coverSpans nblocks blockchainHeight rest coveredUntil
    else if s.startBlockHeight > coveredUntil then coveredUntil
    else
      coverSpans nblocks blockchainHeight rest
        (max coveredUntil (s.startBlockHeight + nblocks s))

/-- `get_next_needed_height`, with the number of blocks of each span. -/
def getNextNeededHeight (q : BlockQueue) (nblocks : Span → UInt64) (blockchainHeight : UInt64) :
    UInt64 :=
  if q.blocks.isEmpty then blockchainHeight
  else coverSpans nblocks blockchainHeight q.blocks blockchainHeight

/-! ## Calls -/

/-- A call that changes the queue. -/
inductive Call where
  | addBlocks (height : UInt64) (bcel : List BlockCompleteEntry) (connectionId : ConnectionId)
      (addr : NetworkAddress)
  | scheduleBlocks (height nblocks : UInt64) (connectionId : ConnectionId) (addr : NetworkAddress)
  | reserveSpan (r : Reserve)
  | setSpanHashes (startHeight : UInt64) (connectionId : ConnectionId) (hashes : List Hash)
  | flushSpans (connectionId : ConnectionId) (all : Bool)
  | flushStaleSpans (liveConnections : List ConnectionId)
  | removeSpan (startBlockHeight : UInt64)
  | removeSpans (connectionId : ConnectionId) (startBlockHeight : UInt64)
  deriving DecidableEq

/-- The queue after a call; `none` when it throws. -/
def Call.apply (q : BlockQueue) : Call → Option BlockQueue
  | addBlocks height bcel connectionId addr => some (q.addBlocks height bcel connectionId addr)
  | scheduleBlocks height nblocks connectionId addr =>
    q.scheduleBlocks height nblocks connectionId addr
  | reserveSpan r => some (q.reserveSpan r).2
  | setSpanHashes startHeight connectionId hashes =>
    some (q.setSpanHashes startHeight connectionId hashes)
  | flushSpans connectionId all => some (q.flushSpans connectionId all)
  | flushStaleSpans liveConnections => some (q.flushStaleSpans liveConnections)
  | removeSpan startBlockHeight => some (q.removeSpan startBlockHeight).2
  | removeSpans connectionId startBlockHeight => some (q.removeSpans connectionId startBlockHeight)

/-! ## What stays -/

@[simp] theorem mem_eraseSpans (q : BlockQueue) (gone : Span → Bool) (s : Span) :
    s ∈ (q.eraseSpans gone).blocks ↔ s ∈ q.blocks ∧ gone s = false := by
  simp [eraseSpans]

@[simp] theorem mem_flushSpans (q : BlockQueue) (id : ConnectionId) (all : Bool) (s : Span) :
    s ∈ (q.flushSpans id all).blocks ↔
      s ∈ q.blocks ∧ (s.connectionId = id → all = false ∧ s.blocks ≠ []) := by
  simp [flushSpans, List.isEmpty_eq_false_iff]

@[simp] theorem mem_removeSpans (q : BlockQueue) (id : ConnectionId) (start : UInt64) (s : Span) :
    s ∈ (q.removeSpans id start).blocks ↔
      s ∈ q.blocks ∧ (s.connectionId = id → ¬ s.startBlockHeight ≤ start) := by
  simp [removeSpans]

end BlockQueue

end CocaineNode
