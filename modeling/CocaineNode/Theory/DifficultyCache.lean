import CocaineNode.Theory.NodeRun

/-!
# The Cached Difficulty

`get_difficulty_for_next_block` keeps its last answer with the id of the top
block, and the window the answer was computed from with the height of the
chain. Neither is dropped when a batch is aborted. The window is shifted only
when the chain has grown by one block since; a block is pushed only after the
difficulty was asked for, so by then the window has been read for the chain
that is there (`DifficultyKept.push`). What a pop undoes is covered by the reset
flag, which stays up until a batch has ended well.

The answer is another matter. It depends on the block-time target as well, that
is on the version in force, and the cache is keyed by the top block alone. As
long as a top block is never asked for under two targets, the answer is right
(`difficulty_run`). The version in force is not determined by the chain when a batch was aborted,
so elsewhere a stale answer is possible.

## Theorems

* `difficultyKept_step`: Every step keeps the invariant.
* `difficulty_run`: The answer after any run.
-/

namespace CocaineNode

open List StoredBlock

open Transition Blockchain

/-! ## Targets -/

/-- The targets that go with what was asked for. -/
def Answers (target : Hash → Nat) (asked : List (Hash × Nat)) : Prop :=
  ∀ p ∈ asked, target p.1 = p.2

/-- No top block was asked for under two targets. -/
def OneTarget (asked : List (Hash × Nat)) : Prop :=
  ∀ p ∈ asked, ∀ q ∈ asked, p.1 = q.1 → p.2 = q.2

/-- Then there is one target for each block. -/
theorem OneTarget.answers {asked : List (Hash × Nat)} (h : OneTarget asked) :
    ∃ target, Answers target asked := by
  refine ⟨fun id => ((asked.find? fun p => p.1 = id).map Prod.snd).getD 0, ?_⟩
  intro p hp
  rcases hfind : asked.find? fun q => q.1 = p.1 with _ | q
  · rw [find?_eq_none] at hfind
    exact absurd (by simp) (hfind p hp)
  · have hid : q.1 = p.1 := by simpa using find?_some hfind
    simp only [hfind, Option.map_some, Option.getD_some]
    exact h q (mem_of_find?_eq_some hfind) p hp hid

theorem Answers.of_suffix {target : Hash → Nat} {asked asked' : List (Hash × Nat)}
    (h : asked <:+ asked') (hanswers : Answers target asked') : Answers target asked :=
  fun p hp => hanswers p (h.subset hp)

/-! ## The node -/

/-- The invariant of a node. While the reset flag is down, an abort only shortens the chain. -/
structure DifficultyKept (E : Externals) (target : Hash → Nat) (n : NodeState) : Prop extends
    WorkKept E target False n.log n.chain where
  batch : ∀ before, n.batch = some before → Known E (WorkRule target) n.log before.blocks ∧
    (n.chain.difficultyCache.resetTimestampsAndDifficultiesHeight = false →
      before.blocks <+: n.chain.db.blocks)

section Kept

variable {E : Externals} {target : Hash → Nat} {n n' : NodeState}

namespace DifficultyKept

variable (h : DifficultyKept E target n)
include h

/-- A node with the same blocks, batch, fixed difficulty and difficulty cache. -/
theorem of_same (hlog : n'.log = n.log)
    (hblocks : n'.chain.db.blocks = n.chain.db.blocks) (hbatch : n'.batch = n.batch)
    (hfixed : n'.chain.fixedDifficulty = n.chain.fixedDifficulty)
    (hcache : n'.chain.difficultyCache = n.chain.difficultyCache) : DifficultyKept E target n' := by
  refine ⟨hlog ▸ h.toWorkKept.of_same hblocks hfixed hcache, ?_⟩
  rw [hlog, hblocks, hbatch, hcache]
  exact h.batch

theorem query (hfree : CollisionFree E (n.log.map StoredBlock.block))
    (htarget : target n.chain.db.topBlockHash = difficultyTarget n.chain.hardfork) :
    DifficultyKept E target n.ask := by
  refine ⟨h.toWorkKept.query hfree htarget, ?_⟩
  rw [NodeState.ask, getDifficultyForNextBlock_cached h.fixed]
  simp only [cachedDifficulty]
  split <;> exact h.batch

/-- A block that is pushed was preceded by a question. -/
theorem push {s : Blockchain} {b : StoredBlock} {c : LongTermCache}
    (hfree : CollisionFree E (n.log.map block)) (hchecked : Checked E n.chain b)
    (hblocks : s.db.blocks = n.chain.db.blocks ++ [b])
    (hfixed : s.fixedDifficulty = n.chain.fixedDifficulty)
    (hcache : s.difficultyCache = n.chain.difficultyCache) :
    DifficultyKept E target { n with chain := s, longTerm := c, log := b :: n.log } := by
  refine ⟨h.toWorkKept.push hfree hchecked.hash hchecked.parent hchecked.work
    (.inr (hchecked.asked h.fixed)) hblocks hfixed hcache, fun before hbefore => ?_⟩
  rcases h.batch before hbefore with ⟨hknown, hbegins⟩
  refine ⟨hknown.cons_log b, ?_⟩
  rw [hcache, hblocks]
  exact fun hflag => (hbegins hflag).trans (prefix_append _ _)

/-- While the flag is up nothing is asked of what an abort goes back to. -/
theorem of_reset {s : Blockchain} (hknown : Known E (WorkRule target) n.log s.db.blocks)
    (hfixed : s.fixedDifficulty = n.chain.fixedDifficulty)
    (hcache : s.difficultyCache = n.chain.resetDifficulties.difficultyCache) :
    DifficultyKept E target (n.withChain s) := by
  refine ⟨h.toWorkKept.of_reset hknown hfixed hcache, fun before hbefore =>
    ⟨(h.batch before hbefore).1, fun hdown => ?_⟩⟩
  change s.difficultyCache.resetTimestampsAndDifficultiesHeight = false at hdown
  rw [hcache] at hdown
  cases hdown

/-- Closing a batch leaves nothing to go back to. -/
theorem batchStop : DifficultyKept E target { n with batch := none } :=
  ⟨h.toWorkKept, nofun⟩

/-- When the flag is lowered the window is given up. -/
theorem cleanup : DifficultyKept E target { n.settleDifficulties with batch := none } := by
  unfold NodeState.settleDifficulties
  split
  · rcases h.cached with ⟨cs, hready, -⟩
    exact ⟨⟨h.fixed, h.chain, cs, ⟨hready.known, hready.top, hready.answer, absurd rfl⟩,
      absurd rfl⟩, nofun⟩
  · exact h.batchStop

/-- An abort shortens the chain or finds the flag up. -/
theorem batchAbort {before : BlockchainDB} (hbatch : n.batch = some before) :
    DifficultyKept E target { n with chain := n.chain.withDb before, batch := none } := by
  rcases h.batch before hbatch with ⟨hknown, hbegins⟩
  rcases h.cached with ⟨cs, hready, hnear⟩
  refine ⟨⟨h.fixed, hknown, cs, hready, fun hne => ⟨False.elim, fun hflag => ?_⟩⟩, nofun⟩
  exact ((hnear hne).2 hflag).of_begins ((hbegins hflag).map work)

end DifficultyKept

/-! ## Every step keeps the invariant -/

theorem difficultyKept_step {window : Nat} (hstep : NodeStep E window n n')
    (hfree : CollisionFree E (n'.log.map block)) (htargets : Answers target n'.asked)
    (h : DifficultyKept E target n) : DifficultyKept E target n' := by
  have hbefore := CollisionFree.of_suffix hstep.suffixes.1 hfree
  cases hstep with
  | other s hblocks _ hfixed hcache => exact h.of_same rfl hblocks rfl hfixed hcache
  | query => exact h.query hbefore (htargets _ mem_cons_self)
  | request answer c => exact h.of_same rfl rfl rfl rfl rfl
  | reset => exact h.of_reset h.chain rfl rfl
  | push s b db c hchecked _ hblocks _ hfixed hcache =>
    exact h.push hbefore hchecked hblocks hfixed hcache
  | pop s db hblocks _ hfixed hcache =>
    refine h.of_reset ?_ hfixed hcache
    rw [hblocks]
    exact h.chain.dropLast
  | refork height =>
    exact h.of_same rfl (reorganizeHardfork_tables n.chain height).1 rfl rfl rfl
  | batchStart =>
    refine ⟨h.toWorkKept, fun before hsome => ?_⟩
    rw [← Option.some.inj hsome]
    exact ⟨h.chain, fun _ => prefix_refl _⟩
  | batchStop => exact h.batchStop
  | cleanup => exact h.cleanup
  | batchAbort before hbatch => exact h.batchAbort hbatch
  | restart s tipHash rm hbatch hblocks _ hfixed hcache =>
    refine ⟨workKept_default (hfixed.trans h.fixed) ?_ hcache, fun before hsome => ?_⟩
    · change Known E (WorkRule target) n.log s.db.blocks
      rw [hblocks]
      exact h.chain
    · cases hbatch.symm.trans hsome

end Kept

theorem NodeState.Fresh.difficultyKept {E : Externals} {window : Nat} {target : Hash → Nat}
    {n : NodeState} (h : n.Fresh window) (hfixed : n.chain.fixedDifficulty = 0) :
    DifficultyKept E target n := by
  refine ⟨workKept_default hfixed ?_ h.difficultyCache, fun before hsome => ?_⟩
  · rw [h.blocks]
    exact Known.nil
  · cases h.batch.symm.trans hsome

/-- The invariant holds along every run, for any targets that go with what was asked. -/
theorem difficultyKept_run {E : Externals} {window : Nat} {target : Hash → Nat} {n n' : NodeState}
    (hfresh : n.Fresh window) (hfixed : n.chain.fixedDifficulty = 0)
    (hrun : Run (NodeStep E window) n n')
    (hfree : CollisionFree E (n'.log.map block)) (htargets : Answers target n'.asked) :
    DifficultyKept E target n' := by
  have hkeeps : Preserves (NodeStep E window) fun n =>
      CollisionFree E (n.log.map block) → Answers target n.asked → DifficultyKept E target n := by
    intro n n' h hstep hfree htargets
    refine difficultyKept_step hstep hfree htargets (h ?_ ?_)
    · exact CollisionFree.of_suffix hstep.suffixes.1 hfree
    · exact htargets.of_suffix hstep.suffixes.2
  exact hkeeps.run hrun (fun _ _ => hfresh.difficultyKept hfixed) hfree htargets

/-- The answer is the difficulty of the chain, read afresh. -/
theorem DifficultyKept.afresh {E : Externals} {target : Hash → Nat} {n : NodeState}
    (h : DifficultyKept E target n) (hfree : CollisionFree E (n.log.map block))
    (htop : target n.chain.db.topBlockHash = difficultyTarget n.chain.hardfork) :
    n.chain.getDifficultyForNextBlock.1 = Difficulty.nextDifficulty
        ((windowBlocks n.chain.db.blocks).map fun b => b.block.timestamp)
        ((windowBlocks n.chain.db.blocks).map cumulativeDifficulty)
        (difficultyTarget n.chain.hardfork) := by
  rw [h.answer hfree (.inl htop), htop, nextWork, windowBlocks_map, map_map, map_map]
  rfl

/-- After any run in which no top block is asked for under two block-time targets, the answer is the
    difficulty of the chain, read afresh. -/
theorem difficulty_run (E : Externals) (window : Nat) (n n' : NodeState) (hfresh : n.Fresh window)
    (hfixed : n.chain.fixedDifficulty = 0) (hrun : Run (NodeStep E window) n n')
    (hfree : CollisionFree E (n'.log.map block))
    (htargets : OneTarget ((n'.chain.db.topBlockHash, difficultyTarget n'.chain.hardfork) ::
      n'.asked)) :
    n'.chain.getDifficultyForNextBlock.1 = Difficulty.nextDifficulty
        ((windowBlocks n'.chain.db.blocks).map fun b => b.block.timestamp)
        ((windowBlocks n'.chain.db.blocks).map cumulativeDifficulty)
        (difficultyTarget n'.chain.hardfork) := by
  rcases htargets.answers with ⟨target, hanswers⟩
  exact (difficultyKept_run hfresh hfixed hrun hfree
    (hanswers.of_suffix (suffix_cons _ _))).afresh hfree (hanswers _ mem_cons_self)

theorem difficulty_run_second :
    ∃ c, Run (NodeStep Externals.sample 3) (emptyNode 3) (secondBlockNode c) ∧
      (secondBlockNode c).chain.getDifficultyForNextBlock.1 = Difficulty.nextDifficulty
        ((windowBlocks [firstBlock, secondBlock]).map fun b => b.block.timestamp)
        ((windowBlocks [firstBlock, secondBlock]).map cumulativeDifficulty) 120 := by
  rcases secondBlockNode_run with ⟨c, hrun⟩
  refine ⟨c, hrun, difficulty_run Externals.sample 3 (emptyNode 3) (secondBlockNode c)
    (emptyNode_fresh (by decide)) rfl hrun (secondBlockNode_free c) ?_⟩
  change OneTarget [((2 : Hash), 120), (1, 120)]
  unfold OneTarget
  decide

end CocaineNode
