import CocaineNode.Theory.IncomingBlocks
import CocaineNode.Theory.Reorg
import CocaineNode.Theory.VoteWindow

/-!
# The Hard Fork State after an Aborted Batch

Blocks that a peer sends are added between `prepare_handle_incoming_blocks` and
`cleanup_handle_incoming_blocks`, inside one database batch. The hard fork state
counts each block as it is added. When a write fails the batch is aborted, and
the database goes back to what it was; the hard fork state is not told.

So after the cleanup it is the state of the chain that was given up. It is also
that of the chain that is left only if the two happen to look alike: the last
`window_size` blocks voted the same way, and the same fork is in force
(`abort_hardfork_iff`). While the chain is shorter than the window one more
block is enough to tell them apart.

## Theorems

* `abort_hardfork_iff`: When the state is right after an abort.
* `abort_leaves_vote`: A batch that leaves a vote behind.
-/

namespace CocaineNode

open Transition

/-! ## What keeps the table -/

namespace Blockchain

open HardFork

variable {s s' : Blockchain}

/-- No move of a chain changes the table of forks. -/
theorem Moves.sameTable {E : Externals} (h : Moves E s s')
    (hne : s.hardfork.heights ≠ []) : SameTable s.hardfork s'.hardfork := by
  rcases h [] with ⟨log, hrun⟩
  have hkeeps : Preserves (Move E) fun p => SameTable s.hardfork p.1.hardfork := by
    intro p p' hp hmove
    cases hmove with
    | other t t' log _ hhardfork =>
      rw [hhardfork]
      exact hp
    | query t log =>
      rw [getDifficultyForNextBlock_hardfork]
      exact hp
    | reset t log | keep t log => exact hp
    | push t t' b db log _ _ _ _ hhardfork =>
      rw [hhardfork]
      exact hp.trans (sameTable_add _ _ _ _)
    | pop t t' db log _ hhardfork =>
      rw [hhardfork]
      exact hp.trans (sameTable_onBlockPopped _ _ _)
    | refork t height log => exact hp.trans (sameTable_reorganize _ _ _)
    | restart t t' log _ hhardfork =>
      rw [hhardfork]
      refine hp.trans (sameTable_init _ _ ?_)
      rw [hp.heights]
      exact hne
  exact hkeeps.run hrun (sameTable_refl _)

/-! ## What happens beside the chain -/

/-- The blocks, the recorded versions and the hard fork state are as they were. -/
structure Aside (s s' : Blockchain) : Prop where
  blocks : s'.db.blocks = s.db.blocks
  hfVersions : s'.db.hfVersions = s.db.hfVersions
  hardfork : s'.hardfork = s.hardfork

theorem Aside.of_untouched (h : Untouched s s') : Aside s s' :=
  ⟨by rw [h.db], by rw [h.db], h.hardfork⟩

theorem Aside.synced (h : Aside s s') (hs : s.hardfork.Synced s.db) : s'.hardfork.Synced s'.db := by
  rw [h.hardfork]
  exact hs.of_eq h.blocks h.hfVersions

theorem aside_query (s : Blockchain) : Aside s s.getDifficultyForNextBlock.2 := by
  refine ⟨?_, ?_, getDifficultyForNextBlock_hardfork s⟩ <;> rw [getDifficultyForNextBlock_db]

/-- A block that is stored beside the chain, unless it sets off a reorganisation. -/
theorem handleAlternativeBlock_aside (E : Externals) (now : UInt64) (depth : Nat) (s : Blockchain)
    (b : Block) (id : Hash) (bvc : Bvc) (ps : PoolSupplement) :
    (handleAlternativeBlock E now depth s b id bvc ps).outcome.leavesMainChain = false ∨
      Aside s (handleAlternativeBlock E now depth s b id bvc ps).chain := by
  rcases handleAlternativeBlock_eq E now depth s b id bvc ps with ⟨reorganise, hdepth⟩
  rw [hdepth]
  rcases altBlock_cases E s b id bvc ps now with
    ⟨r, -, hr, heq⟩ | ⟨s₁, alt, -, bei, hr, -, -, -, -, heq | ⟨discard, heq⟩⟩
  · have h := Aside.of_untouched hr
    rw [heq]
    exact Or.inr ⟨h.blocks, h.hfVersions, h.hardfork⟩
  · have h := Aside.of_untouched hr
    rw [heq]
    exact Or.inr ⟨h.blocks, h.hfVersions, h.hardfork⟩
  · rw [(heq reorganise).2]
    exact Or.inl (by split <;> rfl)

/-! ## Blocks offered -/

/-- Offering a block to the main chain keeps the hard fork state in step, whether the block is
    taken or not. -/
theorem handleBlockToMainChain_synced (E : Externals) (s : Blockchain) (bl : Block) (id : Hash)
    (ps : PoolSupplement) (now : UInt64) (hs : s.hardfork.Synced s.db) :
    (s.handleBlockToMainChain E bl id {} ps now).chain.hardfork.Synced
      (s.handleBlockToMainChain E bl id {} ps now).chain.db := by
  by_cases hexit : (s.handleBlockToMainChain E bl id {} ps now).exit = none
  · rcases handleBlockToMainChain_accepted hexit with ⟨hheader, ⟨a⟩, -⟩
    have hcheck := (headerExit_none hheader).2
    have hquery := aside_query s
    rw [← hquery.hardfork] at hcheck
    rcases BlockchainDB.addBlock_ok a.added with ⟨-, -, hblocks, -, -⟩
    have hadd := add_synced (b := a.stored) (hquery.synced hs) hblocks hcheck
    rw [a.untouched.hardfork, a.untouched.db, getDifficultyForNextBlock_hardfork,
      getDifficultyForNextBlock_db]
    exact hadd
  · rcases handleBlockToMainChain_refused hexit with h | h
    · exact (Aside.of_untouched h).synced hs
    · exact (Aside.of_untouched h).synced ((aside_query s).synced hs)

variable (E : Externals) (now : UInt64) (depth : Nat) (s : Blockchain) (bl : Block)
  (ps : PoolSupplement)

variable {E bl} in
theorem Composes.addNewBlock {G : Block → Prop} {P : Blockchain → Blockchain → Prop}
    (h : Composes E G P) (hbl : G bl) : P s (s.addNewBlock E now depth bl {} ps).2 := by
  simp only [Blockchain.addNewBlock]
  split
  · exact h.refl s
  · split
    · exact h.handleAlternativeBlock now depth s hbl _ _ ps
    · exact h.handleBlockToMainChain s hbl _ ps now

theorem addNewBlock_moves : Moves E s (s.addNewBlock E now depth bl {} ps).2 :=
  (moves_composes E).addNewBlock now depth s ps trivial

/-- So does offering a block anywhere, unless it sets off a reorganisation. -/
theorem addNewBlock_synced (hs : s.hardfork.Synced s.db) :
    (bl.prevId ≠ s.db.topBlockHash ∧ (handleAlternativeBlock E now depth s bl (E.blockHash bl) {}
        ps).outcome.leavesMainChain = false) ∨
      (s.addNewBlock E now depth bl {} ps).2.hardfork.Synced
        (s.addNewBlock E now depth bl {} ps).2.db := by
  simp only [addNewBlock]
  split
  · exact Or.inr hs
  · split
    · rename_i hparent
      rcases handleAlternativeBlock_aside E now depth s bl (E.blockHash bl) {} ps with h | h
      · exact Or.inl ⟨hparent, h⟩
      · exact Or.inr (h.synced hs)
    · exact Or.inr (handleBlockToMainChain_synced E s bl _ ps now hs)

end Blockchain

/-! ## The batch -/

namespace Node

open Blockchain

/-- One block of a batch. If it sets off a reorganisation, that has to end with the hard fork state
    in step with the new chain. -/
def Offered (E : Externals) (n n' : Node) : Prop :=
  ∃ (now : UInt64) (depth : Nat) (blob : Blob) (b : Option Block) (ps : PoolSupplement),
    n' = (n.handleIncomingBlock E now depth blob b ps).2 ∧
      ∀ lb, b.or (E.parseBlock blob) = some lb → lb.prevId ≠ n.chain.db.topBlockHash →
        (handleAlternativeBlock E now depth n.chain lb (E.blockHash lb) {}
          ps).outcome.leavesMainChain = false → n'.chain.hardfork.Synced n'.chain.db

/-- What holds while a batch is open: the hard fork state is in step with the chain, and the batch
    remembers the database it started from. -/
structure InBatch (hf : HardFork) (before : BlockchainDB) (n : Node) : Prop where
  batch : n.batch = some before
  synced : n.chain.hardfork.Synced n.chain.db
  table : HardFork.SameTable hf n.chain.hardfork

/-- A block of a batch keeps the hard fork state in step. -/
theorem Offered.synced {E : Externals} {hf : HardFork} {before : BlockchainDB} :
    Preserves (Offered E) (InBatch hf before) := by
  rintro n n' ⟨hbatch, hsynced, htable⟩ ⟨now, depth, blob, b, ps, rfl, hreorg⟩
  unfold handleIncomingBlock at hreorg ⊢
  by_cases hbig : n.chain.currentBlockCumulWeightLimit + 100 < UInt64.ofNat blob.length
  · rw [if_pos hbig]
    exact ⟨hbatch, hsynced, htable⟩
  · rw [if_neg hbig] at hreorg ⊢
    cases hblock : b.or (E.parseBlock blob) with
    | none => exact ⟨hbatch, hsynced, htable⟩
    | some lb =>
      rw [hblock] at hreorg
      simp only at hreorg ⊢
      by_cases hthrows : (b.isNone && lb.hashThrows) = true
      · rw [if_pos hthrows]
        exact ⟨hbatch, hsynced, htable⟩
      · rw [if_neg hthrows] at hreorg ⊢
        refine ⟨hbatch, ?_, ?_⟩
        · rcases addNewBlock_synced E now depth n.chain lb ps hsynced with ⟨hparent, hloud⟩ | h
          · exact hreorg lb rfl hparent hloud
          · exact h
        · exact htable.trans
            ((addNewBlock_moves E now depth n.chain lb ps).sameTable hsynced.heights_ne)

/-- Preparing blocks fills tables, and leaves the rest of the chain state alone. -/
theorem prepareBlocks_untouched (E : Externals) (env : PrepareEnv) (n : Node)
    (entries : List BlockCompleteEntry) :
    Untouched n.chain (prepareBlocks E env n entries).2.2.chain := by
  rcases prepareBlocks_eq E env n entries with ⟨_, _, _, _, heq⟩
  rw [heq]
  exact ⟨rfl, rfl, rfl, rfl⟩

theorem waitForBatch_batch (waits : List Blockchain) (n : Node) :
    (waitForBatch waits n).batch = some (waitForBatch waits n).chain.db := by
  induction waits generalizing n with
  | nil => rfl
  | cons chain rest ih => exact ih _

/-- With true the batch is open, on the chain that was found. -/
theorem prepare_opened {E : Externals} {env : PrepareEnv} {n n' : Node}
    {entries : List BlockCompleteEntry} {blocks : List Block}
    (h : n.prepareHandleIncomingBlocks E env entries = (.returns true, blocks, n')) :
    n'.batch = some (env.chainFound n.chain).db ∧ n'.chain.db = (env.chainFound n.chain).db ∧
      n'.chain.hardfork = (env.chainFound n.chain).hardfork := by
  simp only [prepareHandleIncomingBlocks] at h
  unfold chainPrepareHandleIncomingBlocks at h
  by_cases hempty : entries = []
  · simp [if_pos hempty] at h
  · simp only [if_neg hempty] at h
    set held := n.lockIncomingTx.lockTxPool.lockBlockchain
    have hfound : (waitForBatch env.waits held).chain = env.chainFound n.chain :=
      waitForBatch_chain env.waits held
    have hbatch := waitForBatch_batch env.waits held
    set opened := (waitForBatch env.waits held).withChain
      (waitForBatch env.waits held).chain.startBatch
    have hhold := (prepareBlocks_sameHold E env opened entries).2
    rcases prepareBlocks_untouched E env opened entries with ⟨hdb, hhardfork, -, -⟩
    split at h
    · simp at h
    · rw [Prod.mk.injEq, Prod.mk.injEq] at h
      rw [← h.2.2, ← hfound]
      exact ⟨hhold.trans hbatch, hdb, hhardfork⟩

/-- After an abort the database is what it was, and the hard fork state what it has become. -/
theorem cleanup_abort {n : Node} {before : BlockchainDB} (hbatch : n.batch = some before)
    (hfail : n.chain.batchSuccess = false) :
    n.cleanupHandleIncomingBlocks.2.chain.db = before ∧
      n.cleanupHandleIncomingBlocks.2.chain.hardfork = n.chain.hardfork := by
  have hclose : n.lockBlockchain.closeBatch = (true, n.lockBlockchain.batchAbort before) := by
    have hbatch' : n.lockBlockchain.batch = some before := hbatch
    have hfail' : n.lockBlockchain.chain.batchSuccess = false := hfail
    simp only [closeBatch, hbatch', hfail', Bool.false_eq_true, if_false]
  simp only [cleanupHandleIncomingBlocks, chainCleanupHandleIncomingBlocks, hclose]
  split <;> exact ⟨rfl, rfl⟩

end Node

/-- After a batch that is aborted, the hard fork state is the one a restart would compute exactly
    when the last blocks of the chain that was given up voted as those of the chain that is left,
    and no fork came into force on the way. -/
theorem abort_hardfork_iff (E : Externals) (env : PrepareEnv) (n₀ n₁ n₂ : Node)
    (found : Blockchain) (entries : List BlockCompleteEntry) (blocks : List Block)
    (hfound : env.chainFound n₀.chain = found) (hsynced : found.hardfork.Synced found.db)
    (hprepare : n₀.prepareHandleIncomingBlocks E env entries = (.returns true, blocks, n₁))
    (hrun : Run (Node.Offered E) n₁ n₂) (hfail : n₂.chain.batchSuccess = false) :
    n₂.cleanupHandleIncomingBlocks.2.chain.db = found.db ∧
      (n₂.cleanupHandleIncomingBlocks.2.chain.hardfork = found.hardfork.init found.db ↔
        found.hardfork.voteWindow n₂.chain.db = found.hardfork.voteWindow found.db ∧
          n₂.chain.hardfork.currentForkIndex = found.hardfork.currentForkIndex) := by
  rcases Node.prepare_opened hprepare with ⟨hbatch, hdb, hhardfork⟩
  rw [hfound] at hbatch hdb hhardfork
  have hstart : n₁.InBatch found.hardfork found.db := by
    refine ⟨hbatch, ?_, ?_⟩
    · rw [hdb, hhardfork]
      exact hsynced
    · rw [hhardfork]
      exact HardFork.sameTable_refl _
  have hend := Node.Offered.synced.run hrun hstart
  rcases Node.cleanup_abort hend.batch hfail with ⟨hback, hkept⟩
  refine ⟨hback, ?_⟩
  rw [hkept, hsynced]
  exact HardFork.synced_eq_iff hsynced hend.synced hend.table

/-! ## A batch that fails at its second block -/

/-- The blobs of some transactions of two bytes each. -/
def listedTxs : Blob → List Blob
  | a :: b :: rest => [a, b] :: listedTxs rest
  | _ => []

/-- A block that is all in its blob: nonce, parent, height, the extra field of its miner
    transaction, and the transactions. -/
def listedBlock (blob : Blob) : Block :=
  let byte (i : Nat) : UInt8 := blob.getD i 0
  { majorVersion := 12
    minorVersion := 12
    timestamp := 100
    prevId := BitVec.ofNat 256 (byte 1).toNat
    nonce := (byte 0).toUInt32
    minerTx :=
      { vin := [.gen (byte 2).toUInt64], unlockTime := (byte 2).toUInt64 + 60, extra := [byte 3] }
    txHashes := (listedTxs (blob.drop 4)).map fun b => Externals.sample.txHash (sampleTx b) }

/-- The transactions of such a block, as they come with it. -/
def listedSupplement (E : Externals) (blob : Blob) : PoolSupplement where
  txsByTxid := ((listedTxs (blob.drop 4)).map fun b =>
    let tx := (E.parseTx b).getD {}
    (⟨E.txHash tx, (tx, b)⟩ : Sigma fun _ : Hash => Transaction × Blob)).toAList

/-- Such a block as a peer sends it. -/
def listedEntry (blob : Blob) : BlockCompleteEntry where
  block := blob
  txs := (listedTxs (blob.drop 4)).map fun b => { blob := b }

/-- The sample interpretation with this way of reading blocks. -/
def listedExternals : Externals :=
  { Externals.sample with parseBlock := fun blob => some (listedBlock blob) }

/-- A mainnet node with its first block. -/
def oneBlockNode : Node where
  chain := ((Blockchain.start .empty (HardFork.mainnet.init .empty)).handleBlockToMainChain
    listedExternals (listedBlock [0, 0, 0, 0]) 1 {} {} 2000).chain
  locks := {}
  batch := none
  scanTable := ∅

theorem oneBlockNode_synced : oneBlockNode.chain.hardfork.Synced oneBlockNode.chain.db :=
  Blockchain.handleBlockToMainChain_synced listedExternals _ _ _ _ _
    (HardFork.init_synced HardFork.mainnet .empty)

/-- Two blocks, of which the second has two transactions that spend one key image. -/
def failingEntries : List BlockCompleteEntry :=
  [listedEntry [1, 1, 1, 1], listedEntry [2, 2, 2, 2, 7, 9, 8, 9]]

/-- The node with the batch open. -/
def openedNode : Node :=
  (oneBlockNode.prepareHandleIncomingBlocks listedExternals oneThread failingEntries).2.2

/-- The node when some blocks of the batch have been offered. -/
def offeredNode (entries : List BlockCompleteEntry) : Node :=
  entries.foldl (fun n e => (n.handleIncomingBlock listedExternals 2000 0 e.block none
    (listedSupplement listedExternals e.block)).2) openedNode

theorem openedNode_prepared :
    oneBlockNode.prepareHandleIncomingBlocks listedExternals oneThread failingEntries =
      (.returns true, failingEntries.map (listedBlock ∘ BlockCompleteEntry.block), openedNode) := by
  refine Prod.ext ?_ (Prod.ext ?_ rfl)
  · decide +kernel
  · decide +kernel

/-- Both blocks follow the top when they are offered, so neither sets off a reorganisation. -/
theorem offeredNode_run :
    Run (Node.Offered listedExternals) openedNode (offeredNode failingEntries) := by
  have hstep : ∀ (n : Node) (e : BlockCompleteEntry),
      (listedBlock e.block).prevId = n.chain.db.topBlockHash → Node.Offered listedExternals n
        (n.handleIncomingBlock listedExternals 2000 0 e.block none
          (listedSupplement listedExternals e.block)).2 := by
    intro n e hparent
    refine ⟨2000, 0, e.block, none, listedSupplement listedExternals e.block, rfl,
      fun lb hlb hne => absurd ?_ hne⟩
    cases hlb
    exact hparent
  refine (Relation.ReflTransGen.single (hstep openedNode (listedEntry [1, 1, 1, 1]) ?_)).tail
    (hstep _ (listedEntry [2, 2, 2, 2, 7, 9, 8, 9]) ?_)
  · decide +kernel
  · decide +kernel

/-- On this batch the windows differ, and so do the states. -/
theorem abort_hardfork_iff_listed :
    (offeredNode failingEntries).cleanupHandleIncomingBlocks.2.chain.db = oneBlockNode.chain.db ∧
      ((offeredNode failingEntries).cleanupHandleIncomingBlocks.2.chain.hardfork =
          oneBlockNode.chain.hardfork.init oneBlockNode.chain.db ↔
        oneBlockNode.chain.hardfork.voteWindow (offeredNode failingEntries).chain.db =
            oneBlockNode.chain.hardfork.voteWindow oneBlockNode.chain.db ∧
          (offeredNode failingEntries).chain.hardfork.currentForkIndex =
            oneBlockNode.chain.hardfork.currentForkIndex) :=
  abort_hardfork_iff listedExternals oneThread _ _ _ _ _ _ rfl oneBlockNode_synced
    openedNode_prepared offeredNode_run (by decide +kernel)

/-- The first block leaves its vote behind when the second makes the batch fail. -/
theorem abort_leaves_vote :
    ∃ (E : Externals) (env : PrepareEnv) (n₀ n₁ n₂ : Node) (entries : List BlockCompleteEntry)
      (blocks : List Block),
      n₀.chain.hardfork.Synced n₀.chain.db ∧ env.chainFound n₀.chain = n₀.chain ∧
        n₀.prepareHandleIncomingBlocks E env entries = (.returns true, blocks, n₁) ∧
        Run (Node.Offered E) n₁ n₂ ∧ n₂.chain.batchSuccess = false ∧
        n₂.cleanupHandleIncomingBlocks.2.chain.db.blocks = n₀.chain.db.blocks ∧
        n₂.cleanupHandleIncomingBlocks.2.chain.hardfork.versions = [12, 12] ∧
        (n₀.chain.hardfork.init n₀.chain.db).versions = [12] := by
  refine ⟨listedExternals, oneThread, oneBlockNode, _, _, _, _, oneBlockNode_synced, rfl,
    openedNode_prepared, offeredNode_run, ?_, ?_, ?_, ?_⟩
  · decide +kernel
  · decide +kernel
  · decide +kernel
  · decide +kernel

end CocaineNode
