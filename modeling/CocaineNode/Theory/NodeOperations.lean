import CocaineNode.Core.Operations
import CocaineNode.Theory.BatchAbort
import CocaineNode.Theory.DifficultyCache
import CocaineNode.Theory.LongTermMedian

/-!
# Operations of a Node as Steps

Every call that changes a node is a run of steps: adding a block, with whatever
reorganisation it sets off, opening and closing a batch, popping blocks and
asking for the difficulty. So what holds along every run of steps holds along
every run of calls. The blocks that are pushed are ones that the calls offer,
also in a reorganisation, which takes them from the database. So there is no
need to look at the log: what is asked of it can be asked of the blocks offered.

The steps compute the long term weight of a block through the cache. The chain
model computes it from the database at once. The two agree on a node that keeps
its weights (`WeightsKept`), which every run does as long as the blocks it has
seen are sound. So the simulation is for sound logs.

At the end stands a run of calls after which the cached difficulty is not the
one a fresh computation gives. The chain has just passed a fork at which the
block-time target changes. Two blocks are to be popped; the first pop takes the
hard fork state back over the fork; the second one fails, and the database goes
back to what it was. The top block is the one the cached answer is for.

## Theorems

* `operations_simulated`: Every run of calls is a run of steps.
* `calls_difficulty`: On mainnet the cached difficulty is the one of the chain.
* `stale_difficulty`: A run of calls that leaves a stale answer.
-/

namespace CocaineNode

open Transition Blockchain List Relation.ReflTransGen

/-! ## Runs of steps -/

/-- A step, or the push of a checked block when the weights are not kept or the blocks seen are no
    longer sound. -/
inductive CallStep (E : Externals) : NodeState → NodeState → Prop
  | step {n n' : NodeState} : NodeStep E 100000 n n' → CallStep E n n'
  | unsound (n : NodeState) (s : Blockchain) (b : StoredBlock) (db : BlockchainDB) :
      Checked E n.chain b → s.db.blocks = n.chain.db.blocks ++ [b] →
      s.hardfork = (n.chain.hardfork.add db b.block n.chain.height).2.1 →
      s.fixedDifficulty = n.chain.fixedDifficulty → s.difficultyCache = n.chain.difficultyCache →
      ¬ (LogSound E (b :: n.log) ∧ WeightsKept E 100000 n) →
      CallStep E n { n with chain := s, log := b :: n.log }

/-- The long term weight of the next block, computed from the database at once. -/
theorem getNextLongTermBlockWeight_eq (s : Blockchain) (blockWeight : UInt64) :
    s.getNextLongTermBlockWeight blockWeight =
      longTermBound s.hardfork.getCurrentVersion
        (longTermWindow 100000 s.db.blocks) blockWeight := by
  have hempty : longTermWindow 100000 s.db.blocks = [] ↔ s.height = 0 := by
    rw [← length_eq_zero_iff, longTermWindow, RollingMedian.length_lastItems, length_map, height,
      BlockchainDB.height]
    omega
  have hmedian : s.longTermMedian = Epee.median (longTermWindow 100000 s.db.blocks) := by
    rw [longTermMedian, median, longTermWindow, RollingMedian.lastItems, length_map, ← map_drop,
      height, BlockchainDB.height, show ∀ n, n - min 100000 n = n - 100000 by omega]
  simp only [getNextLongTermBlockWeight, boundedBlockWeight, longTermBound, hempty, hmedian]
  by_cases hversion : s.hardfork.getCurrentVersion < 10
  · simp [hversion]
  · by_cases hzero : s.height = 0 <;> simp [hversion, hzero]

section Accept

variable {E : Externals} {s chain : Blockchain} {bl : Block} {ps : PoolSupplement} {now : UInt64}

/-- A block that is accepted has passed the checks, in the state the answer leaves. -/
theorem checked_of_accepted (hheader : s.headerExit bl now = none)
    (a : Accepted E s.getDifficultyForNextBlock.2 bl ps now s.getDifficultyForNextBlock.1 chain) :
    Checked E s.getDifficultyForNextBlock.2 a.stored := by
  refine ⟨rfl, ?_, ?_, fun hfixed => ?_, a.stored_work⟩
  · rw [getDifficultyForNextBlock_db]
    exact (headerExit_none hheader).1
  · rw [getDifficultyForNextBlock_hardfork]
    exact (headerExit_none hheader).2
  · have hfixed' : s.fixedDifficulty = 0 := by
      by_contra hne
      rw [getDifficultyForNextBlock_fixed hne] at hfixed
      exact hne hfixed
    rw [getDifficultyForNextBlock_top hfixed', getDifficultyForNextBlock_db]

/-- The push of an accepted block. Its record has the long term weight that the cache gives. -/
theorem push_accepted {n : NodeState} (hchain : n.chain = s) (hheader : s.headerExit bl now = none)
    (a : Accepted E s.getDifficultyForNextBlock.2 bl ps now s.getDifficultyForNextBlock.1 chain) :
    ∃ c : LongTermCache, CallStep E n.ask
      { n.ask with chain := a.written, longTerm := c, log := a.stored :: n.log } := by
  subst hchain
  have hchecked := checked_of_accepted hheader a
  by_cases hready : LogSound E (a.stored :: n.log) ∧ WeightsKept E 100000 n.ask
  · rcases nextLongTermBlockWeight_ready (by decide) (hready.1.of_suffix (suffix_cons _ _))
      hready.2.ready hready.2.chain a.stored.weight with ⟨c, hnext, -⟩
    rw [← getNextLongTermBlockWeight_eq] at hnext
    exact ⟨c, .step (NodeStep.push n.ask a.written a.stored a.db c hchecked hnext a.written_blocks
      rfl rfl rfl)⟩
  · exact ⟨n.longTerm, .unsound n.ask a.written a.stored a.db hchecked a.written_blocks rfl
      rfl rfl hready⟩

end Accept

/-! ## Calls -/

/-- The state with the chain and the batch of a node. -/
def NodeState.showing (n : NodeState) (m : Node) : NodeState :=
  { n with chain := m.chain, batch := m.batch }

/-- A record that is written for an accepted block. -/
def Written (E : Externals) (b : StoredBlock) : Prop :=
  ∃ (s chain : Blockchain) (ps : PoolSupplement) (now : UInt64) (diffic : Difficulty)
    (a : Accepted E s b.block ps now diffic chain), b = a.stored

/-- A run of steps between two nodes, whatever the cache and the ghosts hold. The blocks that are
    pushed have a property. -/
def Steps (E : Externals) (G : Block → Prop) (m m' : Node) : Prop :=
  ∀ n : NodeState, ∃ n' : NodeState, Run (CallStep E) (n.showing m) (n'.showing m') ∧
    ∀ b ∈ n'.log, b ∈ n.log ∨ G b.block ∧ Written E b

namespace Steps

variable {E : Externals} {G : Block → Prop} {m m' m'' : Node}

theorem trans (h : Steps E G m m') (h' : Steps E G m' m'') : Steps E G m m'' := by
  intro n
  rcases h n with ⟨n₁, hrun, hlog⟩
  rcases h' n₁ with ⟨n₂, hrun', hlog'⟩
  exact ⟨n₂, hrun.trans hrun', fun b hb => (hlog' b hb).elim (hlog b) .inr⟩

/-- One step. -/
theorem of_step (h : ∀ n : NodeState, NodeStep E 100000 (n.showing m) (n.showing m')) :
    Steps E G m m' :=
  fun n => ⟨n, single (.step (h n)), fun _ => .inl⟩

end Steps

/-- Every block in the database and in what an abort goes back to has a property. -/
def Node.Holds (G : Block → Prop) (m : Node) : Prop :=
  Blockchain.Holds G m.chain.db ∧ ∀ before, m.batch = some before → Blockchain.Holds G before

/-- A call that is a run of steps, as long as the blocks that are there have the property. -/
def Simulated (E : Externals) (G : Block → Prop) (m m' : Node) : Prop :=
  m.Holds G → m'.Holds G ∧ Steps E G m m'

namespace Simulated

variable {E : Externals} {G : Block → Prop} {m m' m'' : Node}

theorem trans (h : Simulated E G m m') (h' : Simulated E G m' m'') : Simulated E G m m'' :=
  fun hm => ⟨(h' (h hm).1).1, (h hm).2.trans (h' (h hm).1).2⟩

theorem refl (m : Node) : Simulated E G m m :=
  fun hm => ⟨hm, fun n => ⟨n, Relation.ReflTransGen.refl, fun _ => .inl⟩⟩

/-- A change of the chain that is a run of steps, whatever the node holds beside it. -/
def OnChain (E : Externals) (G : Block → Prop) (s s' : Blockchain) : Prop :=
  Holds G s.db → Holds G s'.db ∧ ∀ m : Node, Steps E G (m.withChain s) (m.withChain s')

/-- Operations of the chain are put together from runs of steps. -/
theorem composes (E : Externals) (G : Block → Prop) : Composes E G (OnChain E G) where
  refl s hs := ⟨hs, fun m n => ⟨n, Relation.ReflTransGen.refl, fun _ => .inl⟩⟩
  trans h h' hs := ⟨(h' (h hs).1).1, fun m => ((h hs).2 m).trans ((h' (h hs).1).2 m)⟩
  given h hs := h hs hs
  other hholds hblocks hhardfork hfixed hcache hs := ⟨hholds hs, fun m =>
    .of_step fun n => NodeStep.other (n.showing _) _ hblocks hhardfork hfixed hcache⟩
  query s hs := ⟨getDifficultyForNextBlock_db (s := s) ▸ hs, fun m n =>
    ⟨(n.showing (m.withChain s)).ask, single (.step (NodeStep.query _)), fun _ => .inl⟩⟩
  reset s hs := ⟨hs, fun m => .of_step fun n => NodeStep.reset (n.showing (m.withChain s))⟩
  refork s height hs := by
    rcases reorganizeHardfork_tables s height with ⟨hblocks, halts⟩
    exact ⟨hs.of_tables (hblocks ▸ Subset.refl _) halts, fun m =>
      .of_step fun n => NodeStep.refork (n.showing (m.withChain s)) height⟩
  pop := by
    intro s s' b hpopped hs
    refine ⟨hpopped.holds hs,
      fun m => .of_step fun n => NodeStep.pop (n.showing (m.withChain s)) s' _
      ?_ hpopped.hardfork hpopped.fixedDifficulty hpopped.difficultyCache⟩
    rcases hpopped.top with ⟨top, htop, -⟩
    change s'.db.blocks = s.db.blocks.dropLast
    rw [htop, dropLast_concat]
  accept := by
    intro s chain bl ps now hbl hheader a hs
    rcases a.tables with ⟨hblocks, halts⟩
    rw [getDifficultyForNextBlock_db] at hblocks halts
    refine ⟨⟨?_, halts ▸ hs.alts⟩, fun m n => ?_⟩
    · rw [hblocks]
      exact forall_mem_append.mpr ⟨hs.main, forall_mem_singleton.mpr hbl⟩
    -- A question, the push, the question for the next block, and the rest.
    rcases push_accepted (n := n.showing (m.withChain s)) rfl hheader a with ⟨c, hpush⟩
    set written : NodeState := { (n.showing (m.withChain s)).ask with
      chain := a.written, longTerm := c, log := a.stored :: n.log }
    refine ⟨written.ask, (((single (.step (NodeStep.query _))).tail hpush).tail
      (.step (NodeStep.query written))).tail (.step ?_),
      forall_mem_cons.mpr ⟨.inr ⟨hbl, _, _, _, _, _, a, rfl⟩, fun _ => .inl⟩⟩
    exact NodeStep.other _ _ (congrArg BlockchainDB.blocks a.untouched.db) a.untouched.hardfork
      a.untouched.fixedDifficulty a.untouched.difficultyCache

/-- A change of the chain, with the batch as it is. -/
theorem of_chain (h : OnChain E G m.chain m'.chain) (hbatch : m'.batch = m.batch) :
    Simulated E G m m' := by
  intro hm
  rcases h hm.1 with ⟨hholds, hsteps⟩
  refine ⟨⟨hholds, hbatch ▸ hm.2⟩, fun n => ?_⟩
  have hshown (n' : NodeState) : n'.showing m' = n'.showing (m.withChain m'.chain) := by
    rw [NodeState.showing, hbatch]
    rfl
  simp only [hshown]
  exact hsteps m n

/-- A call that leaves the parts of the chain state that count. -/
theorem of_untouched (h : Untouched m.chain m'.chain) (hbatch : m'.batch = m.batch) :
    Simulated E G m m' :=
  of_chain ((composes E G).untouched h) hbatch

theorem popLoop (E : Externals) (env : PopEnv) (now : UInt64) (count popped : Nat)
    (s : Blockchain) : OnChain E G s (popLoop E env now count popped s).2 := by
  have h := composes E G
  induction count generalizing popped s with
  | zero => exact h.refl s
  | succ count ih =>
    unfold Blockchain.popLoop
    split
    · exact h.refl s
    · split
      · exact h.reset s
      · split
        · exact h.reset s
        · rename_i hpop
          exact h.trans (h.pop (popBlockFromBlockchain_some hpop)) (ih _ _)

theorem batchStart (h : m.batch = none) : Simulated E G m m.batchStart :=
  fun hm => ⟨⟨hm.1, fun _ hsome => Option.some.inj hsome ▸ hm.1⟩,
    .of_step fun n => NodeStep.batchStart (n.showing m) h⟩

theorem batchAbort {before : BlockchainDB} (h : m.batch = some before) :
    Simulated E G m (m.batchAbort before) :=
  fun hm => ⟨⟨hm.2 before h, nofun⟩,
    .of_step fun n => NodeStep.batchAbort (n.showing m) before h⟩

theorem closeBatch (m : Node) : Simulated E G m m.closeBatch.2 := by
  unfold Node.closeBatch
  split
  · exact refl m
  · rename_i before hbatch
    split
    · refine fun hm => ⟨⟨?_, nofun⟩, .of_step fun n => ?_⟩
      · simp only
        split_ifs <;> exact hm.1
      · convert NodeStep.cleanup (n.showing m) using 1
        delta NodeState.showing NodeState.settleDifficulties
        dsimp only
        split_ifs <;> rfl
    · exact batchAbort hbatch

theorem cleanup (m : Node) : Simulated E G m m.cleanupHandleIncomingBlocks.2 := by
  refine trans (closeBatch m.lockBlockchain) (of_untouched ?_ rfl)
  change Untouched m.lockBlockchain.closeBatch.2.chain (if _ then _ else _)
  split <;> exact ⟨rfl, rfl, rfl, rfl⟩

theorem prepare {env : PrepareEnv} (hbatch : m.batch = none) (hwaits : env.waits = [])
    (entries : List BlockCompleteEntry) :
    Simulated E G m (m.prepareHandleIncomingBlocks E env entries).2.2 := by
  have hchain : Simulated E G m
      (m.lockIncomingTx.chainPrepareHandleIncomingBlocks E env entries).2.2 := by
    set held := m.lockIncomingTx.lockTxPool.lockBlockchain with hheld
    simp only [Node.chainPrepareHandleIncomingBlocks, ← hheld, hwaits]
    split
    · exact refl m
    · set opened := held.batchStart.withChain held.batchStart.chain.startBatch
      have hopened : Simulated E G held opened :=
        (batchStart hbatch).trans (of_untouched ⟨rfl, rfl, rfl, rfl⟩ rfl)
      exact hopened.trans (of_untouched (Node.prepareBlocks_untouched E env opened entries)
        (Node.prepareBlocks_sameHold E env opened entries).2)
  simp only [Node.prepareHandleIncomingBlocks]
  split
  · exact hchain.trans (cleanup _)
  · exact hchain

theorem add (m : Node) (now : UInt64) (depth : Nat) (blob : Blob) (b : Option Block)
    (ps : PoolSupplement) (hb : ∀ bl, b.or (E.parseBlock blob) = some bl → G bl) :
    Simulated E G m (m.handleIncomingBlock E now depth blob b ps).2 := by
  unfold Node.handleIncomingBlock
  split
  · exact refl m
  · split
    · exact refl m
    · rename_i hbl
      split
      · exact refl m
      · exact of_chain ((composes E G).addNewBlock now depth m.chain ps (hb _ hbl)) rfl

theorem pop (m : Node) (env : PopEnv) (now : UInt64) (nblocks : Nat) :
    Simulated E G m (m.popBlocks E env now nblocks) := by
  have hlimit : ∀ (m : Node) (s : Blockchain), Simulated E G (m.withChain s)
      (m.withChain s.updateNextCumulativeWeightLimit) :=
    fun m s => of_untouched ⟨rfl, rfl, rfl, rfl⟩ rfl
  have hloop : ∀ (m : Node) (count : Nat), Simulated E G m
      (m.withChain (Blockchain.popLoop E env now count 0 m.chain).2) :=
    fun m count => of_chain (popLoop E env now count 0 m.chain) rfl
  simp only [Node.popBlocks]
  by_cases hbatch : m.batch.isNone = true
  · -- The batch is its own, so it is closed at the end.
    have hstart := batchStart (E := E) (G := G) (Option.isNone_iff_eq_none.mp hbatch)
    simp only [if_pos hbatch]
    generalize (if m.batchStart.chain.height > 0 then _ else nblocks) = count
    split
    · exact hstart.trans ((hloop _ count).trans ((hlimit _ _).trans
        fun hm => ⟨⟨hm.1, nofun⟩, .of_step fun n => NodeStep.batchStop (n.showing _)⟩))
    · exact hstart.trans ((hloop _ count).trans (batchAbort rfl))
  · simp only [if_neg hbatch]
    generalize (if m.chain.height > 0 then _ else nblocks) = count
    split
    · exact (hloop _ count).trans (hlimit _ _)
    · exact hloop _ count

/-- Every call is a run of steps, and so is every run of calls. -/
theorem run (h : Run (Node.CallOf E G) m m') : Simulated E G m m' := by
  induction h with
  | refl => exact refl m
  | tail _ hcall ih =>
    refine ih.trans ?_
    cases hcall with
    | add now depth blob b ps hb => exact add _ now depth blob b ps hb
    | prepare env entries hbatch hwaits => exact prepare hbatch hwaits entries
    | cleanup => exact cleanup _
    | pop env now nblocks => exact pop _ env now nblocks
    | difficulty => exact of_chain ((composes E G).query _) rfl

end Simulated

/-! ## Runs of calls -/

/-- A mainnet node that has just been started. -/
def startedNode : Node where
  chain := mainnetStart
  locks := {}
  batch := none
  scanTable := ∅

/-- A node with blocks added one by one. -/
def added (m : Node) (bs : List Block) : Node :=
  bs.foldl (fun m b => (m.handleIncomingBlock Externals.sample 2000 1 [] (some b) {}).2) m

theorem added_run {G : Block → Prop} {bs : List Block} (m : Node) (hbs : ∀ b ∈ bs, G b) :
    Run (Node.CallOf Externals.sample G) m (added m bs) := by
  induction bs generalizing m with
  | nil => exact refl
  | cons b rest ih =>
    rw [forall_mem_cons] at hbs
    exact head (.add m 2000 1 [] (some b) {} fun _ h => Option.some.inj h ▸ hbs.1) (ih _ hbs.2)

/-- Five blocks, of which the last two make a side chain that takes over. -/
def offeredBlocks : List Block :=
  [forkBlock 0 0 0 100, forkBlock 1 1 1 100, forkBlock 2 2 2 100, forkBlock 3 2 2 100,
    forkBlock 4 4 3 100]

theorem offeredBlocks_free : CollisionFree Externals.sample offeredBlocks :=
  ⟨by decide +kernel, by decide +kernel⟩

/-- A node with the one version of mainnet, so that every question was under one target. -/
structure NodeState.OnMainnet (n : NodeState) : Prop where
  fork : HardFork.OneFork ⟨12, 0, 0, 1733900000⟩ 1 n.chain.hardfork
  asked : Answers (fun _ => difficultyTargetV2) n.asked

section Mainnet

variable {E : Externals} {n n' : NodeState}

theorem CallStep.onMainnet (h : CallStep E n n') (hn : n.OnMainnet) : n'.OnMainnet := by
  cases h with
  | unsound s b db _ _ hadded => exact ⟨hadded ▸ hn.fork.add db b.block _, hn.asked⟩
  | step hstep =>
    cases hstep with
    | other s _ hhardfork => exact ⟨hhardfork ▸ hn.fork, hn.asked⟩
    | query =>
      refine ⟨?_, forall_mem_cons.mpr ⟨mainnet_target hn.fork, hn.asked⟩⟩
      change HardFork.OneFork _ _ n.chain.getDifficultyForNextBlock.2.hardfork
      rw [getDifficultyForNextBlock_hardfork]
      exact hn.fork
    | push s b db c _ _ _ hadded => exact ⟨hadded ▸ hn.fork.add db b.block _, hn.asked⟩
    | pop s db _ hpopped => exact ⟨hpopped ▸ hn.fork.onBlockPopped db 1, hn.asked⟩
    | refork height => exact ⟨hn.fork.reorganizeFromChainHeight _ height, hn.asked⟩
    | cleanup =>
      unfold NodeState.settleDifficulties
      split <;> exact ⟨hn.fork, hn.asked⟩
    | restart s _ _ _ _ hhardfork => exact ⟨hhardfork ▸ hn.fork.init s.db, hn.asked⟩
    | _ => exact ⟨hn.fork, hn.asked⟩

/-- The cached difficulty is kept also where the weights are not. -/
theorem CallStep.difficultyKept {target : Hash → Nat} (h : CallStep E n n')
    (hfree : CollisionFree E (n'.log.map StoredBlock.block)) (htargets : Answers target n'.asked)
    (hkept : CollisionFree E (n.log.map StoredBlock.block) → DifficultyKept E target n) :
    DifficultyKept E target n' := by
  cases h with
  | step hstep =>
    exact difficultyKept_step hstep hfree htargets (hkept (hfree.of_suffix hstep.suffixes.1))
  | unsound s b db hchecked hblocks _ hfixed hcache =>
    have hbefore : CollisionFree E (n.log.map StoredBlock.block) :=
      hfree.mono (subset_cons_self _ _)
    exact (hkept hbefore).push hbefore hchecked hblocks hfixed hcache

end Mainnet

/-- On mainnet, whatever calls were made, the difficulty is the one of the chain read afresh. -/
theorem calls_difficulty (E : Externals) (offered : List Block) (m m' : Node)
    (hchain : m.chain = mainnetStart) (hbatch : m.batch = none)
    (hrun : Run (Node.CallOf E (· ∈ offered)) m m') (hfree : CollisionFree E offered) :
    m'.chain.getDifficultyForNextBlock.1 = Difficulty.nextDifficulty
        ((windowBlocks m'.chain.db.blocks).map fun b => b.block.timestamp)
        ((windowBlocks m'.chain.db.blocks).map StoredBlock.cumulativeDifficulty) 120 := by
  have hkeeps : Preserves (CallStep E) fun n => n.OnMainnet ∧
      (CollisionFree E (n.log.map StoredBlock.block) →
        DifficultyKept E (fun _ => difficultyTargetV2) n) := by
    intro n n' hn hstep
    have hnext := hstep.onMainnet hn.1
    exact ⟨hnext, fun hfree => hstep.difficultyKept hfree hnext.asked hn.2⟩
  have hshown : (emptyNode 1).showing m = emptyNode 1 := by
    rw [NodeState.showing, hchain, hbatch]
    rfl
  have hholds : m.Holds (· ∈ offered) := by
    rw [Node.Holds, hchain, hbatch]
    exact ⟨⟨nofun, nofun⟩, nofun⟩
  rcases (Simulated.run hrun hholds).2 (emptyNode 1) with ⟨n', hcalls, hpushed⟩
  have hlogged : CollisionFree E (n'.log.map StoredBlock.block) := by
    refine hfree.mono fun _ => forall_mem_map.mpr (fun b hb => ?_) _
    exact (hpushed b hb).elim nofun And.left
  have hstart : (emptyNode 1).OnMainnet := ⟨⟨rfl, rfl, rfl⟩, nofun⟩
  rw [hshown] at hcalls
  rcases hkeeps.run hcalls ⟨hstart, fun _ => (emptyNode_fresh (by decide)).difficultyKept rfl⟩ with
    ⟨hmainnet, hkept⟩
  have htarget := mainnet_target hmainnet.fork
  rw [show 120 = difficultyTarget m'.chain.hardfork from htarget]
  exact (hkept hlogged).afresh hlogged htarget

/-- The last of two pops throws, so the side chain that took over is put back. -/
theorem calls_difficulty_aborted : ((added startedNode offeredBlocks).popBlocks Externals.sample
      { dbThrows := fun popped => popped = 1 } 2000 2).chain.getDifficultyForNextBlock.1 =
    Difficulty.nextDifficulty [100, 100, 100] [2, 3, 123] 120 :=
  calls_difficulty Externals.sample offeredBlocks startedNode _ rfl rfl
    ((added_run _ fun _ => id).tail (.pop _ _ _ _)) offeredBlocks_free

/-! ## A pop that fails behind a fork -/

/-- A table with a second version, and with it another block-time target, from height 4 on. -/
def twoForks : HardFork where
  originalVersion := 1
  windowSize := HardFork.mainnet.windowSize
  defaultThresholdPercent := 80
  heights := [⟨1, 0, 0, 1⟩, ⟨2, 4, 0, 2⟩]
  versions := []
  lastVersions := fun _ => 0
  currentForkIndex := 0
  window_pos := by decide
  heights_sorted := by simp [HardforkT.Before]

/-- The block of version 1 at a height, with the full reward after so many coins. -/
def rewardedBlock (height : UInt8) (timestamp coins : UInt64) : Block where
  majorVersion := 1
  minorVersion := 1
  timestamp := timestamp
  prevId := BitVec.ofNat 256 height.toNat
  nonce := height.toUInt32
  minerTx :=
    { vin := [.gen height.toUInt64], vout := [⟨baseReward coins 1, .toKey 0⟩]
      unlockTime := height.toUInt64 + 60, extra := [height] }
  txHashes := []

/-- Four blocks, the last three ten seconds apart. -/
def rewardedBlocks : List Block :=
  [rewardedBlock 0 0 0, rewardedBlock 1 1000 35184372088831, rewardedBlock 2 1010 70368677068799,
    rewardedBlock 3 1020 105552914940031]

/-- A node with an empty database and these forks. -/
def forksNode : Node where
  chain := start .empty (twoForks.init .empty)
  locks := {}
  batch := none
  scanTable := ∅

/-- The node with the four blocks. -/
def pastForkNode : Node :=
  added forksNode rewardedBlocks

/-- The database throws at the second of two pops. -/
def unpoppedNode : Node :=
  pastForkNode.popBlocks Externals.sample { dbThrows := fun popped => popped = 1 } 2000 2

/-- The answer of 42 was right for a target of 120 seconds. The chain is what it was, but now 60
    seconds are in force, and they give 21. -/
theorem stale_difficulty :
    ∃ (E : Externals) (m m' : Node), m.chain = start .empty (twoForks.init .empty) ∧
      m.batch = none ∧ Run (Node.Operation E) m m' ∧
      m'.chain.getDifficultyForNextBlock.1 = 42 ∧
      Difficulty.nextDifficulty
        ((windowBlocks m'.chain.db.blocks).map fun b => b.block.timestamp)
        ((windowBlocks m'.chain.db.blocks).map StoredBlock.cumulativeDifficulty)
        (difficultyTarget m'.chain.hardfork) = 21 := by
  refine ⟨Externals.sample, _, unpoppedNode, rfl, rfl,
    (added_run (G := fun _ => True) _ fun _ _ => trivial).tail (.pop _ _ _ _), ?_, ?_⟩
  · decide +kernel
  · decide +kernel

end CocaineNode
