import CocaineNode.Core.Sync

/-!
# The Answer to a Chain Request

`handle_response_chain_entry` of the protocol handler: a peer names the blocks
of its chain from some height on, and the handler keeps those it wants to
download. The ids are compared with hashes over groups of 512 ids that are
compiled in (`prevalidate_block_hashes`), and with the blocks the node has.

The model ends where the blocks are asked for. A connection that is dropped is
given a score, which is the error here. Log messages, download statistics and
the score of a peer whose chain got shorter are left out.

## Main definitions

* `Blockchain.prevalidateBlockHashes`: How many of the ids can be used.
* `handleResponseChainEntry`: What the handler asks for, unless it drops the connection.
-/

namespace CocaineNode

/-- `HASH_OF_HASHES_STEP`. -/
def hashOfHashesStep : Nat := 512

/-- `m_blocks_hash_of_hashes`, with `cn_fast_hash` of the ids and of the weights of a group. -/
structure CompiledHashes where
  hashOfHashes : List (Hash × Hash)
  hashIds : List Hash → Hash
  hashWeights : List UInt64 → Hash

/-- The `where` of `have_block`. -/
inductive HaveBlock where
  | mainChain
  | altChain
  | invalid
  deriving DecidableEq, Repr

namespace Blockchain

/-- `have_block_unlocked`. -/
def haveBlockUnlocked (s : Blockchain) (id : Hash) : Option HaveBlock :=
  if s.db.blockExists id then some .mainChain
  else if (s.db.altBlocks.lookup id).isSome then some .altChain
  else if id ∈ s.invalidBlocks then some .invalid
  else none

/-- The ids of a group are entered in `m_blocks_hash_check`, with their weights when there are some.
    An entry that is there already must be the same. -/
def enterGroup (weighted : Bool) :
    Nat → List (Hash × UInt64) → List (Hash × UInt64) → Bool × List (Hash × UInt64)
  | _, [], check => (true, check)
  | i, (id, weight) :: rest, check =>
    let old := check.getD i (nullHash, 0)
    if !(old.1 = nullHash || old.1 = id) then (false, check)
    else
      let named := check.set i (id, old.2)
      if weighted then
        if !(old.2 = 0 || old.2 = weight) then (false, named)
        else enterGroup weighted (i + 1) rest (named.set i (id, weight))
      else enterGroup weighted (i + 1) rest named

/-- The loop of `prevalidate_block_hashes` over groups, of which the data start with `first`. A
    group that was entered differently before makes the answer 0. -/
def prevalidateLoop (K : CompiledHashes) (size first : Nat) (ids : List Hash)
    (weights : List UInt64) :
    Nat → Nat → UInt64 → List (Hash × UInt64) → UInt64 × List (Hash × UInt64)
  | 0, _, usable, check => (usable, check)
  | groups + 1, n, usable, check =>
    match K.hashOfHashes[n]? with
    | some (hashIds, hashWeights) =>
      let offset := (n - first) * hashOfHashesStep
      let group := (ids.drop offset).take hashOfHashesStep
      let groupWeights := (weights.drop offset).take hashOfHashesStep
      -- A group that is not complete cannot be checked.
      if ids.length < offset + hashOfHashesStep then (usable, check)
      else if !(K.hashIds group = hashIds &&
          (weights.isEmpty || K.hashWeights groupWeights = hashWeights)) then (usable, check)
      else
        let entered := enterGroup (!weights.isEmpty) (n * hashOfHashesStep)
          (group.zip (if weights.isEmpty then group.map fun _ => 0 else groupWeights)) check
        if entered.1 then
          prevalidateLoop K size first ids weights groups (n + 1)
            (usable + UInt64.ofNat hashOfHashesStep) entered.2
        else (0, entered.2)
    | none =>
      -- After the last group that is compiled in, anything is accepted.
      let usable := usable + UInt64.ofNat hashOfHashesStep
      prevalidateLoop K size first ids weights groups (n + 1)
        (if usable > UInt64.ofNat size then UInt64.ofNat size else usable) check

/-- `prevalidate_block_hashes`, called with one id or more. -/
def prevalidateBlockHashes (K : CompiledHashes) (s : Blockchain) (height : Nat) (hashes : List Hash)
    (weights : List UInt64) : UInt64 × Blockchain :=
  let size := hashes.length
  let step := hashOfHashesStep
  let first := height / step
  let last := (height + size - 1) / step
  if !(weights.isEmpty || weights.length = size) then (0, s)
  else if height ≥ K.hashOfHashes.length * step then (UInt64.ofNat size, s)
  else if s.blocksHashCheck.isEmpty then (UInt64.ofNat size, s)
  else if first = last ∧ size < step ∧ (height + size) % step ≠ 0 then (UInt64.ofNat size, s)
  else
    -- Blocks that are missing below the ids are skipped up to the next group.
    let disconnected : Bool := height > s.height && height % step ≠ 0
    let first := if disconnected then first + 1 else first
    let pop := if disconnected then step - height % step else 0
    let below := if disconnected then [] else (s.db.blocks.take height).drop (first * step)
    let r := prevalidateLoop K size first (below.map StoredBlock.hash ++ hashes.drop pop)
      (if weights.isEmpty then [] else below.map StoredBlock.weight ++ weights.drop pop)
      (last + 1 - first) first (UInt64.ofNat (first * step) - UInt64.ofNat height) s.blocksHashCheck
    -- The count starts below zero when a group starts below the ids.
    (if r.1 < UInt64.ofNat ((2 ^ 64 - 1) / 2) then r.1 else 0, s.withHashCheck r.2)

end Blockchain

/-- `NOTIFY_RESPONSE_CHAIN_ENTRY::request`. -/
structure ResponseChainEntry where
  startHeight : UInt64
  totalHeight : UInt64
  blockIds : List Hash
  blockWeights : List UInt64
  deriving DecidableEq, Repr

namespace ResponseChainEntry

/-- `NOTIFY_RESPONSE_CHAIN_ENTRY::ID`. -/
def id : UInt32 := 2007

/-- The weights of the blocks, 0 when the peer sends none. -/
def weights (arg : ResponseChainEntry) : List UInt64 :=
  if arg.blockWeights.isEmpty then arg.blockIds.map fun _ => 0 else arg.blockWeights

end ResponseChainEntry

/-- What the handler keeps about the chain of a peer. -/
structure ChainContext extends PeerContext where
  expectResponse : UInt32
  expectHeight : UInt64
  remoteBlockchainHeight : UInt64
  expectedHeightsStart : UInt64
  expectedHeights : List Hash
  deriving DecidableEq, Repr

/-- The checks of one id at a position, and whether a known block may still follow. -/
def checkChainId (s : Blockchain) (q : BlockQueue) (start : UInt64) (i : Nat) (expectUnknown : Bool)
    (id : Hash) : Except Nat Bool :=
  let found := s.haveBlockUnlocked id
  if i = 0 then
    if found = none ∧ q.haveHeight id ≠ start then .error 5 else .ok found.isNone
  else
    match found with
    | none => .ok true
    | some .invalid => .error 1
    | some .mainChain =>
      if expectUnknown then .error 5
      else if s.db.blockIdByHeight (start + UInt64.ofNat i).toNat ≠ id then .error 5
      else .ok false
    | some .altChain => if expectUnknown then .error 5 else .ok false

/-- The loop over the ids, with those kept so far. It ends early once enough are kept. -/
def keepChainIds (s : Blockchain) (q : BlockQueue) (start nUseBlocks : UInt64) :
    List Hash → Bool → List Hash → Except Nat (List Hash)
  | [], _, kept => .ok kept
  | id :: rest, expectUnknown, kept =>
    if id ∈ kept then .error 5
    else
      match checkChainId s q start kept.length expectUnknown id with
      | .error score => .error score
      | .ok expectUnknown =>
        let kept := kept ++ [id]
        if UInt64.ofNat kept.length = nUseBlocks then .ok kept
        else keepChainIds s q start nUseBlocks rest expectUnknown kept

/-- `handle_response_chain_entry`, up to its call of `request_missing_objects`. -/
def handleResponseChainEntry (K : CompiledHashes) (s : Blockchain) (q : BlockQueue)
    (arg : ResponseChainEntry) (c : ChainContext) : Except Nat (ChainContext × Blockchain) :=
  let size := arg.blockIds.length
  if c.expectResponse ≠ ResponseChainEntry.id then .error 1
  -- An overlapping block is expected.
  else if arg.startHeight + 1 > c.expectHeight then .error 1
  else if arg.blockIds.isEmpty then .error 1
  else if arg.totalHeight.toNat < size ∨ arg.startHeight.toNat > arg.totalHeight.toNat - size then
    .error 1
  else if !arg.blockWeights.isEmpty && arg.blockWeights.length ≠ size then .error 1
  else if arg.totalHeight ≥ 500000000 ∨ size > 25000 then .error 0
  else
    let lastResponseHeight := arg.startHeight + UInt64.ofNat size - 1
    if lastResponseHeight > arg.totalHeight then .error 0
    else
      let (nUseBlocks, s) :=
        s.prevalidateBlockHashes K arg.startHeight.toNat arg.blockIds arg.blockWeights
      if nUseBlocks = 0 ∨ nUseBlocks.toNat + hashOfHashesStep ≤ size then .error 1
      else
        match keepChainIds s q arg.startHeight nUseBlocks arg.blockIds false [] with
        | .error score => .error score
        | .ok kept =>
          .ok ({ c with
            expectResponse := 0
            remoteBlockchainHeight := arg.totalHeight
            expectedHeightsStart := arg.startHeight
            expectedHeights := kept
            neededObjects := kept.zip arg.weights
            lastResponseHeight := lastResponseHeight - (UInt64.ofNat size - nUseBlocks) }, s)

end CocaineNode
