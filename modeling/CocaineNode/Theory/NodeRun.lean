import CocaineNode.Core.IncomingBlocks
import CocaineNode.Core.LongTermMedian
import CocaineNode.Theory.DifficultyPaths

/-!
# A Node over Time

The chain of a node together with what lives beside it: the batch that may be
open on the database, and the cache of long term weights. `NodeStep` lists what
can happen to them. It refines the moves of a chain in three ways. A block that
is pushed has passed the checks of `handle_block_to_main_chain`, so it has the
version in force, the difficulty has just been asked for, and its long term
weight was computed through the cache. A batch can be opened and closed, and an
aborted batch puts the database back, and nothing else. The caches are asked at
any time.

Two ghosts record what has happened: the records of the blocks pushed so far,
and the block-time target that was in force whenever the difficulty was asked
for, by the top block. No operation reads them.

## Theorems

* `NodeStep.suffixes`: The ghosts only grow.
-/

namespace CocaineNode

open List

open Transition Blockchain

/-! ## The node -/

/-- A node: its chain, the batch that may be open, and the long term cache. `log` and `asked` are
    ghosts. -/
structure NodeState where
  chain : Blockchain
  batch : Option BlockchainDB
  longTerm : LongTermCache
  log : List StoredBlock
  asked : List (Hash × Nat)

namespace NodeState

/-- The node with another chain state. -/
def withChain (n : NodeState) (chain : Blockchain) : NodeState :=
  { n with chain }

/-- The difficulty asked for. -/
def ask (n : NodeState) : NodeState :=
  { n with
    chain := n.chain.getDifficultyForNextBlock.2
    asked := (n.chain.db.topBlockHash, difficultyTarget n.chain.hardfork) :: n.asked }

/-- The part of `cleanup_handle_incoming_blocks` that follows `batch_stop`. -/
def settleDifficulties (n : NodeState) : NodeState :=
  if n.chain.difficultyCache.resetTimestampsAndDifficultiesHeight then
    n.withChain (n.chain.withCache { n.chain.difficultyCache with
      timestampsAndDifficultiesHeight := 0, resetTimestampsAndDifficultiesHeight := false })
  else n

/-- The request for the long term median that the callers make. -/
def requestMedian (window : Nat) (n : NodeState) : Option (UInt64 × LongTermCache) :=
  n.chain.db.getLongTermBlockWeightMedian n.longTerm (n.chain.height - min window n.chain.height)
    (min window n.chain.height)

end NodeState

/-- A block that has passed the checks of `handle_block_to_main_chain` in a state, as it is
    recorded. The difficulty has been asked for, so the cache holds the top block. -/
structure Checked (E : Externals) (s : Blockchain) (b : StoredBlock) : Prop where
  hash : b.hash = E.blockHash b.block
  parent : b.block.prevId = s.db.topBlockHash
  version : s.hardfork.check b.block = true
  asked : s.fixedDifficulty = 0 →
    s.difficultyCache.difficultyForNextBlockTopHash = s.db.topBlockHash
  work : b.cumulativeDifficulty = s.getDifficultyForNextBlock.1 + s.topWork

/-- What can happen to a node. -/
inductive NodeStep (E : Externals) (window : Nat) : NodeState → NodeState → Prop
  | other (n : NodeState) (s : Blockchain) : s.db.blocks = n.chain.db.blocks →
      s.hardfork = n.chain.hardfork → s.fixedDifficulty = n.chain.fixedDifficulty →
      s.difficultyCache = n.chain.difficultyCache → NodeStep E window n (n.withChain s)
  | query (n : NodeState) : NodeStep E window n n.ask
  | request (n : NodeState) (answer : UInt64) (c : LongTermCache) : 0 < n.chain.height →
      n.requestMedian window = some (answer, c) → NodeStep E window n { n with longTerm := c }
  | reset (n : NodeState) : NodeStep E window n (n.withChain n.chain.resetDifficulties)
  | push (n : NodeState) (s : Blockchain) (b : StoredBlock) (db : BlockchainDB)
    (c : LongTermCache) :
      Checked E n.chain b →
      n.chain.nextLongTermBlockWeight window n.longTerm b.weight = some (b.longTermWeight, c) →
      s.db.blocks = n.chain.db.blocks ++ [b] →
      s.hardfork = (n.chain.hardfork.add db b.block n.chain.height).2.1 →
      s.fixedDifficulty = n.chain.fixedDifficulty → s.difficultyCache = n.chain.difficultyCache →
      NodeStep E window n { n with chain := s, longTerm := c, log := b :: n.log }
  | pop (n : NodeState) (s : Blockchain) (db : BlockchainDB) :
      s.db.blocks = n.chain.db.blocks.dropLast →
      s.hardfork = n.chain.hardfork.onBlockPopped db 1 →
      s.fixedDifficulty = n.chain.fixedDifficulty →
      s.difficultyCache = n.chain.resetDifficulties.difficultyCache →
      NodeStep E window n (n.withChain s)
  | refork (n : NodeState) (height : Nat) :
      NodeStep E window n (n.withChain (n.chain.reorganizeHardfork height))
  | batchStart (n : NodeState) : n.batch = none →
      NodeStep E window n { n with batch := some n.chain.db }
  | batchStop (n : NodeState) : NodeStep E window n { n with batch := none }
  | cleanup (n : NodeState) : NodeStep E window n { n.settleDifficulties with batch := none }
  | batchAbort (n : NodeState) (before : BlockchainDB) : n.batch = some before →
      NodeStep E window n { n with chain := n.chain.withDb before, batch := none }
  | restart (n : NodeState) (s : Blockchain) (tipHash : Hash) (rm : RollingMedian UInt64) :
      n.batch = none → s.db.blocks = n.chain.db.blocks →
      s.hardfork = n.chain.hardfork.init s.db → s.fixedDifficulty = n.chain.fixedDifficulty →
      s.difficultyCache = {} → tipHash = nullHash ∨ tipHash = n.chain.db.topBlockHash →
      (∃ data pos heap, RollingMedian.construct 8 window data pos heap = some rm) →
      NodeStep E window n { n with chain := s, longTerm := ⟨tipHash, rm⟩ }

/-- A node that has just been started for the first time. -/
structure NodeState.Fresh (window : Nat) (n : NodeState) : Prop where
  blocks : n.chain.db.blocks = []
  difficultyCache : n.chain.difficultyCache = {}
  batch : n.batch = none
  tipHash : n.longTerm.tipHash = nullHash
  rollingMedian : ∃ data pos heap,
    RollingMedian.construct 8 window data pos heap = some n.longTerm.rollingMedian

section

variable {E : Externals} {window : Nat} {n n' : NodeState}

theorem settleDifficulties_log (n : NodeState) :
    n.settleDifficulties.log = n.log ∧ n.settleDifficulties.asked = n.asked := by
  unfold NodeState.settleDifficulties
  split <;> exact ⟨rfl, rfl⟩

/-- The ghosts only grow. -/
theorem NodeStep.suffixes (h : NodeStep E window n n') :
    n.log <:+ n'.log ∧ n.asked <:+ n'.asked := by
  cases h with
  | query => exact ⟨suffix_refl _, suffix_cons _ _⟩
  | push s b => exact ⟨suffix_cons _ _, suffix_refl _⟩
  | cleanup =>
    rcases settleDifficulties_log n with ⟨hlog, hasked⟩
    rw [hlog, hasked]
    exact ⟨suffix_refl _, suffix_refl _⟩
  | _ => exact ⟨suffix_refl _, suffix_refl _⟩

end

theorem CollisionFree.of_suffix {E : Externals} {log log' : List StoredBlock} (h : log <:+ log')
    (hfree : CollisionFree E (log'.map StoredBlock.block)) :
    CollisionFree E (log.map StoredBlock.block) :=
  hfree.mono (map_subset _ h.subset)

/-! ## Two blocks -/

/-- The record of a first block on mainnet. -/
def firstBlock : StoredBlock where
  block := { Block.null with majorVersion := 12, minorVersion := 12 }
  hash := 1
  minerTxHash := 2
  txs := []
  weight := 80
  longTermWeight := 80
  cumulativeDifficulty := 1
  coins := 0

/-- A mainnet node with an empty database. -/
def emptyNode (window : Nat) : NodeState where
  chain := mainnetStart
  batch := none
  longTerm := ⟨nullHash,
    RollingMedian.clear ⟨fun _ => 0, fun _ => 0, fun _ => 0, window, 0, 0, 0, 0⟩⟩
  log := []
  asked := []

/-- The node with its first block. -/
def firstBlockNode : NodeState :=
  { emptyNode 3 with
    chain := mainnetStart.withChain
      { BlockchainDB.empty with
        blocks := [firstBlock]
        ids_nodup := nodup_singleton _
        linked := List.IsChain.singleton _ }
      (mainnetStart.hardfork.add .empty firstBlock.block 0).2.1
    log := [firstBlock] }

theorem emptyNode_fresh {window : Nat} (h : window * (8 + 4 * 2) < 2 ^ 31) :
    (emptyNode window).Fresh window :=
  ⟨rfl, rfl, rfl, rfl, fun _ => 0, fun _ => 0, fun _ => 0, if_pos h⟩

/-- The record of a second block, two minutes later. -/
def secondBlock : StoredBlock where
  block :=
    { Block.null with
      majorVersion := 12, minorVersion := 12, timestamp := 120, prevId := 1, nonce := 1 }
  hash := 2
  minerTxHash := 3
  txs := []
  weight := 90
  longTermWeight := 90
  cumulativeDifficulty := 2
  coins := 0

/-- The node with both blocks, which was asked for the difficulty in between. -/
def secondBlockNode (c : LongTermCache) : NodeState :=
  { firstBlockNode.ask with
    chain := firstBlockNode.ask.chain.withChain
      { BlockchainDB.empty with
        blocks := [firstBlock, secondBlock]
        ids_nodup := by decide
        linked := by simp [firstBlock, secondBlock] }
      (firstBlockNode.chain.hardfork.add .empty secondBlock.block 1).2.1
    longTerm := c
    log := [secondBlock, firstBlock] }

theorem secondBlockNode_run :
    ∃ c, Run (NodeStep Externals.sample 3) (emptyNode 3) (secondBlockNode c) := by
  have hfirst : NodeStep Externals.sample 3 (emptyNode 3) firstBlockNode := by
    refine .push (emptyNode 3) _ firstBlock .empty (emptyNode 3).longTerm ⟨rfl, rfl, ?_, ?_, ?_⟩ ?_
      rfl rfl rfl rfl
    · decide +kernel
    · exact fun _ => rfl
    · decide +kernel
    · rfl
  have hweight : (firstBlockNode.ask.chain.nextLongTermBlockWeight 3 firstBlockNode.ask.longTerm
      90).map Prod.fst = some 90 := by decide +kernel
  rcases Option.map_eq_some_iff.mp hweight with ⟨⟨weight, c⟩, hnext, rfl⟩
  refine ⟨c, ((Relation.ReflTransGen.single hfirst).tail (.query _)).tail
    (.push firstBlockNode.ask _ secondBlock .empty c ⟨?_, ?_, ?_, ?_, ?_⟩ hnext rfl rfl rfl rfl)⟩
  · decide +kernel
  · decide +kernel
  · decide +kernel
  · intro _
    decide +kernel
  · decide +kernel

theorem secondBlockNode_free (c : LongTermCache) :
    CollisionFree Externals.sample ((secondBlockNode c).log.map StoredBlock.block) := by
  change CollisionFree Externals.sample [secondBlock.block, firstBlock.block]
  exact ⟨by decide +kernel, by decide +kernel⟩

end CocaineNode
