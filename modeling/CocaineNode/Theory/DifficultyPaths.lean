import CocaineNode.Theory.AltChain
import CocaineNode.Theory.CachedWork
import CocaineNode.Theory.HardFork

/-!
# Difficulty on Both Paths

On the main chain the difficulty of the next block comes through two caches:
the last answer, keyed by the id of the top block, and the window it was
computed from, which is shifted when one block has been added. On a side chain
it is computed afresh from a window put together from both chains.

For the main chain, `MainnetNode` is kept by every move of a node, and it says
that the caches never show: the answer is `nextWork` of the chain
(`MainnetNode.difficulty`). It needs that no two blocks the node has seen share
an id, since the first cache is keyed by an id. For a side chain, the window is
the window of the whole chain it would become (`altWindow_eq`).

What is left is the block-time target. The main chain goes by the version in
force, which is 12 on mainnet, and takes 120 seconds. The side chain asks
`get_ideal_version`, which answers 1, and takes 60, for the next block as for
those whose work it has stored. So the two paths agree on a block exactly when
the work they find in its window makes up for the target.

## Theorems

* `Blockchain.altWindow_eq`: The side chain's window.
* `altDifficulty_agrees_iff`: When the two paths agree.
-/

namespace CocaineNode

open List StoredBlock Nat

open Transition Blockchain

variable {E : Externals} {log : List Block}

/-! ## The main chain -/

/-- With the one version of mainnet the target is two minutes. -/
theorem mainnet_target {hf : HardFork} (h : HardFork.OneFork ⟨12, 0, 0, 1733900000⟩ 1 hf) :
    difficultyTargetV2 = difficultyTarget hf := by
  rw [difficultyTarget, h.getCurrentVersion]
  rfl

/-- The invariant of a mainnet node, with the log of the blocks it has seen. -/
structure MainnetNode (E : Externals) (s : Blockchain) (log : List Block) : Prop where
  fork : HardFork.OneFork ⟨12, 0, 0, 1733900000⟩ 1 s.hardfork
  kept : ∃ records, records.map block = log ∧
    WorkKept E (fun _ => difficultyTargetV2) True records s

namespace MainnetNode

variable {s : Blockchain} (h : MainnetNode E s log)
include h

theorem fixed : s.fixedDifficulty = 0 := by
  rcases h.kept with ⟨records, -, hkept⟩
  exact hkept.fixed

/-- The caches never show: the answer is the difficulty of the chain. -/
theorem difficulty (hfree : CollisionFree E log) :
    s.getDifficultyForNextBlock.1 =
      nextWork difficultyTargetV2 (s.db.blocks.map work) := by
  rcases h.kept with ⟨records, rfl, hkept⟩
  exact hkept.answer hfree (.inl (mainnet_target h.fork))

end MainnetNode

theorem Blockchain.Move.log_subset {p p' : Blockchain × List Block}
    (h : Move E p p') : p.2 ⊆ p'.2 := by
  cases h with
  | push s s' b db log => exact subset_cons_self _ _
  | _ => exact Subset.refl _

/-- Every move keeps the invariant, as long as no two blocks seen share an id. -/
theorem mainnetNode_move {p p' : Blockchain × List Block} (hmove : Move E p p')
    (h : CollisionFree E p.2 → MainnetNode E p.1 p.2) (hfree : CollisionFree E p'.2) :
    MainnetNode E p'.1 p'.2 := by
  have hbefore := hfree.mono hmove.log_subset
  have htarget := mainnet_target (h hbefore).fork
  rcases h hbefore with ⟨hfork, records, hrecords, hkept⟩
  cases hmove with
  | other s s' log hblocks hhardfork hfixed hcache =>
    exact ⟨hhardfork ▸ hfork, records, hrecords, hkept.of_same hblocks hfixed hcache⟩
  | query s log =>
    refine ⟨?_, records, hrecords, hkept.query (hrecords ▸ hbefore) htarget⟩
    rw [getDifficultyForNextBlock_hardfork]
    exact hfork
  | reset s log => exact ⟨hfork, records, hrecords, hkept.of_reset hkept.chain rfl rfl⟩
  | keep s log =>
    rcases hkept.cached with ⟨cs, hready, hnear⟩
    exact ⟨hfork, records, hrecords, hkept.fixed, hkept.chain, cs,
      ⟨hready.known, hready.top, hready.answer, hready.window⟩,
      fun hne => ⟨(hnear hne).1, fun _ => .inl ((hnear hne).1 trivial)⟩⟩
  | push s s' b db log hblocks hhash hparent hwork hadded hfixed hcache =>
    refine ⟨hadded ▸ hfork.add db b.block s.height, b :: records, congrArg _ hrecords, ?_⟩
    exact hkept.push (hrecords ▸ hbefore) hhash hparent hwork (.inl ⟨trivial, htarget⟩) hblocks
      hfixed hcache
  | pop s s' db log hblocks hpopped hfixed hcache =>
    refine ⟨hpopped ▸ hfork.onBlockPopped db 1, records, hrecords, hkept.of_reset ?_ hfixed hcache⟩
    rw [hblocks]
    exact hkept.chain.dropLast
  | refork s height log =>
    exact ⟨hfork.reorganizeFromChainHeight s.db height, records, hrecords,
      hkept.of_same (reorganizeHardfork_tables s height).1 rfl rfl⟩
  | restart s s' log hblocks hhardfork hfixed hcache =>
    refine ⟨hhardfork ▸ hfork.init s'.db, records, hrecords,
      workKept_default (hfixed.trans hkept.fixed) ?_ hcache⟩
    rw [hblocks]
    exact hkept.chain

/-- A mainnet node that starts with an empty database. -/
def mainnetStart : Blockchain :=
  start .empty (HardFork.mainnet.init .empty)

/-- The invariant holds along every run of a mainnet node. -/
theorem mainnetNode_run {s : Blockchain} (hrun : Run (Move E) (mainnetStart, []) (s, log))
    (hfree : CollisionFree E log) : MainnetNode E s log := by
  have hkeeps : Preserves (Move E) fun p => CollisionFree E p.2 → MainnetNode E p.1 p.2 :=
    fun _ _ h hmove hfree => mainnetNode_move hmove h hfree
  refine hkeeps.run hrun (fun _ => ?_) hfree
  exact ⟨⟨rfl, rfl, rfl⟩, [], rfl, workKept_default rfl Known.nil rfl⟩

/-! ## Side chains -/

/-- What the difficulty rule reads of a block of a side chain. -/
def BlockExtendedInfo.work (bei : BlockExtendedInfo) : UInt64 × Difficulty :=
  (bei.bl.timestamp, bei.cumulativeDifficulty)

namespace Blockchain

/-- The chain a side chain would become, as timestamps and work. -/
def sideWork (s : Blockchain) (alt : List BlockExtendedInfo) (split : Nat) :
    List (UInt64 × Difficulty) :=
  (s.db.blocks.take split).map work ++ alt.map BlockExtendedInfo.work

/-- The work of a side chain was computed by the node, block by block. -/
def WorkedOut (s : Blockchain) (alt : List BlockExtendedInfo) (split : Nat) : Prop :=
  ∀ i (hi : i < alt.length), alt[i].cumulativeDifficulty =
    (s.altParent (alt.take i) alt[i].bl.prevId).2.2 +
      s.getNextDifficultyForAlternativeChain (alt.take i) (split + i)

variable {E : Externals} {s : Blockchain} {alt : List BlockExtendedInfo} {split : Nat}
  (h : Attached E s alt split)
include h

theorem Attached.length_take : (s.db.blocks.take split).length = split := by
  rw [List.length_take]
  exact min_eq_left h.le

/-- The window of a side chain is the window of the chain it would become, wherever it leaves
    the main chain. -/
theorem altWindow_eq :
    s.altWindow alt (split + alt.length) = windowBlocks (s.sideWork alt split) := by
  have hpos := h.pos
  have hcount : difficultyBlocksCount = 735 := rfl
  have hmain : ((s.db.blocks.take split).map work).length = split := by
    rw [length_map, h.length_take]
  have hlen : (s.sideWork alt split).length = split + alt.length := by
    rw [sideWork, length_append, hmain, length_map]
  simp only [altWindow, windowBlocks, hlen, hcount]
  change (if alt.length < 735 then _ else drop _ (alt.map BlockExtendedInfo.work)) = _
  split
  · rename_i hshort
    have hstop : (alt.head?.map BlockExtendedInfo.height).getD (split + alt.length) = split := by
      cases alt with
      | nil => rfl
      | cons front rest => exact (h.front front rfl).1
    rw [hstop, min_eq_right (le_of_lt hshort), sideWork]
    -- Both drop the same number of main chain blocks, at least the genesis block.
    have hstart : (if split - min (735 - alt.length) split = 0 then 1
        else split - min (735 - alt.length) split) =
        if split + alt.length - min (split + alt.length) 735 = 0 then 1
        else split + alt.length - min (split + alt.length) 735 := by
      split <;> split <;> omega
    rw [hstart, drop_append_of_le_length (by rw [hmain]; split <;> omega), map_drop]
    rfl
  · rename_i hlong
    have hnone : ((s.db.blocks.take split).map work).drop
        (split + alt.length - min (split + alt.length) 735) = [] :=
      drop_of_length_le (by rw [hmain]; omega)
    rw [if_neg (by omega), sideWork, drop_append, hmain, hnone, nil_append,
      show split + alt.length - min (split + alt.length) 735 - split = alt.length - 735 by omega]

/-- The difficulty of the next block of a side chain on mainnet. -/
theorem getNextDifficultyForAlternativeChain_eq {log : List Block} (hnode : MainnetNode E s log) :
    s.getNextDifficultyForAlternativeChain alt (split + alt.length) =
      nextWork difficultyTargetV1 (s.sideWork alt split) := by
  have hwidth : ¬(windowBlocks (s.sideWork alt split)).length > difficultyBlocksCount := by
    rw [length_windowBlocks]
    omega
  unfold getNextDifficultyForAlternativeChain
  rw [if_neg (not_not.mpr hnode.fixed)]
  simp only [altWindow_eq h]
  rw [if_neg hwidth, hnode.fork.getIdealVersion]
  rfl

end Blockchain

/-- For the next block of a side chain, `get_next_difficulty_for_alternative_chain` and what
    `get_difficulty_for_next_block` answers on a node whose main chain is the common part and the
    same side blocks agree exactly when the window has at most one block, or 60 times the work the
    side chain stores for it and 120 times the work of the node round to the same difficulty. -/
theorem altDifficulty_agrees_iff (E : Externals) (s node : Blockchain) (log nodeLog : List Block)
    (alt : List BlockExtendedInfo) (split : Nat) (hrun : Run (Move E) (mainnetStart, []) (s, log))
    (hfree : CollisionFree E log) (hatt : Attached E s alt split)
    (hnode : Run (Move E) (mainnetStart, []) (node, nodeLog)) (hnodeFree : CollisionFree E nodeLog)
    (hchain : node.db.blocks.map block =
      (s.db.blocks.take split).map block ++ alt.map BlockExtendedInfo.bl) :
    let side := windowBlocks (s.sideWork alt split)
    let main := windowBlocks (node.db.blocks.map work)
    s.getNextDifficultyForAlternativeChain alt (split + alt.length) =
        node.getDifficultyForNextBlock.1 ↔
      main.length ≤ 1 ∨
      SameRounding (Difficulty.timeSpan ((main.map Prod.fst).take difficultyWindow)).toNat
        (60 * (Difficulty.totalWork ((side.map Prod.snd).take difficultyWindow)).toNat)
        (120 * (Difficulty.totalWork ((main.map Prod.snd).take difficultyWindow)).toNat) := by
  intro side main
  have hs := mainnetNode_run hrun hfree
  have hn := mainnetNode_run hnode hnodeFree
  rw [getNextDifficultyForAlternativeChain_eq hatt hs, hn.difficulty hnodeFree]
  refine nextWork_eq_nextWork_iff ?_
  -- The two chains consist of the same blocks, so they have the same timestamps.
  have htimes := congrArg (map Block.timestamp) hchain
  rw [map_append, map_map, map_map, map_map] at htimes
  rw [sideWork, map_append, map_map, map_map, map_map]
  exact htimes.symm

/-! ## Two blocks ten seconds apart -/

/-- A block at a height of a chain in which block `i` has id `i + 1`. -/
def quickBlock (height : Nat) (timestamp : UInt64) : Block where
  majorVersion := 12
  minorVersion := 12
  timestamp := timestamp
  prevId := BitVec.ofNat 256 height
  nonce := UInt32.ofNat height
  minerTx := { vin := [.gen (UInt64.ofNat height)], unlockTime := UInt64.ofNat height + 60
               extra := [UInt8.ofNat height] }
  txHashes := []

/-- A mainnet node that was given these blocks. -/
def quickNode (blocks : List Block) : Blockchain :=
  (connectAll .sample 2000 mainnetStart blocks).2

/-- Three blocks, the last two of them ten seconds apart. -/
def quickChain : List Block :=
  [quickBlock 0 0, quickBlock 1 1000, quickBlock 2 1010]

/-- A side chain that leaves the three blocks after the second, with long pauses. -/
def slowSide : List BlockExtendedInfo :=
  [⟨quickBlock 2 5000, 2, 0, 3, 0⟩, ⟨quickBlock 3 9000, 3, 0, 4, 0⟩]

/-- With these pauses both paths ask for a difficulty of 1. -/
theorem altDifficulty_agrees_slow :
    (quickNode quickChain).WorkedOut slowSide 2 ∧
      (quickNode quickChain).getNextDifficultyForAlternativeChain slowSide 4 =
        (quickNode (quickChain.take 2 ++ slowSide.map BlockExtendedInfo.bl)
          ).getDifficultyForNextBlock.1 := by
  have hiff := altDifficulty_agrees_iff .sample (quickNode quickChain)
    (quickNode (quickChain.take 2 ++ slowSide.map BlockExtendedInfo.bl)) _ _ slowSide 2
    (connectAll_run .sample 2000 mainnetStart quickChain [] (by decide +kernel))
    ⟨by decide +kernel, by decide +kernel⟩
    ⟨by decide, by decide +kernel, by decide +kernel, by decide +kernel⟩
    (connectAll_run .sample 2000 mainnetStart (quickChain.take 2 ++ slowSide.map (·.bl)) []
      (by decide +kernel))
    ⟨by decide +kernel, by decide +kernel⟩ (by decide +kernel)
  refine ⟨?_, hiff.mpr (.inr (.inl ⟨1, by decide +kernel⟩))⟩
  unfold WorkedOut
  decide +kernel

/-- On top of the three blocks a side chain asks for half the difficulty of the main chain. -/
theorem altDifficulty_halves :
    ∃ (E : Externals) (s n : Blockchain) (log nodeLog : List Block) (split : Nat),
      Run (Move E) (mainnetStart, []) (s, log) ∧ CollisionFree E log ∧ Attached E s [] split ∧
        s.WorkedOut [] split ∧ Run (Move E) (mainnetStart, []) (n, nodeLog) ∧
        CollisionFree E nodeLog ∧
        n.db.blocks.map block = (s.db.blocks.take split).map block ∧
        s.getNextDifficultyForAlternativeChain [] split = 6 ∧
        n.getDifficultyForNextBlock.1 = 12 := by
  refine ⟨.sample, quickNode (quickChain ++ [quickBlock 3 1020]), quickNode quickChain, _, _, 3,
    connectAll_run .sample 2000 mainnetStart (quickChain ++ [quickBlock 3 1020]) []
      (by decide +kernel),
    ⟨by decide +kernel, by decide +kernel⟩,
    ⟨by decide, by decide +kernel, isChain_nil, fun f hf => by cases hf⟩,
    fun i hi => absurd hi (not_lt_zero i),
    connectAll_run .sample 2000 mainnetStart quickChain [] (by decide +kernel),
    ⟨by decide +kernel, by decide +kernel⟩, by decide +kernel, by decide +kernel,
    by decide +kernel⟩

end CocaineNode
