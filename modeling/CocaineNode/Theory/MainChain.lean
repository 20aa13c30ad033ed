import CocaineNode.Core.Blockchain

/-!
# What a Block Does to the Main Chain

`handle_block_to_main_chain` is read once here, and later modules use what this
one says about it. A refused block leaves the database and the hard fork state
alone (`handleBlockToMainChain_refused`). An accepted one appends a single
record, whose fields are spelled out by `Accepted`.

The second half is about the transaction pool. The function takes the
transactions of a block out of the pool one at a time, and a refusal has to
give them back. `HandedBack` compares what was taken with what was added, call
by call. Two of the fifteen exits miss their duty: the one for a difficulty of
zero does not set the flag, and the one for a pruned block of unknown weight
neither sets the flag nor gives anything back.

## Theorems

* `Blockchain.txLoop_taken`: The loop records what it takes.
* `Blockchain.handedBack_iff`: When a refusal gives everything back and says so.
-/

namespace CocaineNode

namespace Blockchain

/-! ## The difficulty query -/

section Query

variable (s : Blockchain)

/-- The query only touches the cache. -/
theorem getDifficultyForNextBlock_state : ∃ c, s.getDifficultyForNextBlock.2 = s.withCache c := by
  unfold getDifficultyForNextBlock
  split
  · exact ⟨s.difficultyCache, rfl⟩
  · exact ⟨_, rfl⟩

@[simp] theorem getDifficultyForNextBlock_db : s.getDifficultyForNextBlock.2.db = s.db := by
  obtain ⟨c, hc⟩ := s.getDifficultyForNextBlock_state
  rw [hc]
  rfl

@[simp] theorem getDifficultyForNextBlock_hardfork :
    s.getDifficultyForNextBlock.2.hardfork = s.hardfork := by
  obtain ⟨c, hc⟩ := s.getDifficultyForNextBlock_state
  rw [hc]
  rfl

theorem getDifficultyForNextBlock_coins :
    s.getDifficultyForNextBlock.2.alreadyGeneratedCoins = s.alreadyGeneratedCoins := by
  unfold alreadyGeneratedCoins
  rw [getDifficultyForNextBlock_db]

end Query

/-! ## Accepted and refused blocks -/

/-- The part of the state a refused block does not touch. -/
structure Untouched (s s' : Blockchain) : Prop where
  db : s'.db = s.db
  hardfork : s'.hardfork = s.hardfork
  fixedDifficulty : s'.fixedDifficulty = s.fixedDifficulty
  difficultyCache : s'.difficultyCache = s.difficultyCache

variable {s : Blockchain}

theorem Untouched.trans {s' s'' : Blockchain} (h : Untouched s s') (h' : Untouched s' s'') :
    Untouched s s'' :=
  ⟨h'.db.trans h.db, h'.hardfork.trans h.hardfork, h'.fixedDifficulty.trans h.fixedDifficulty,
    h'.difficultyCache.trans h.difficultyCache⟩

theorem untouched_withPool (s : Blockchain) (p : TxPool) : Untouched s (s.withPool p) :=
  ⟨rfl, rfl, rfl, rfl⟩

/-- What `handleBlockWork` did to accept a block. -/
structure Accepted (E : Externals) (s : Blockchain) (bl : Block) (ps : PoolSupplement)
    (now : UInt64) (diffic : Difficulty) (chain : Blockchain) where
  w : TxLoop
  baseReward : UInt64
  partialReward : Bool
  db : BlockchainDB
  work : diffic ≠ 0
  prevalidated : prevalidateMinerTransaction bl s.height s.hardfork.getCurrentVersion = true
  loop : txLoop E s s.expectedHash.isSome bl.txHashes (startLoop E s bl ps) = (none, w)
  reward : s.validateMinerTransaction bl (s.recordedWeight w) w.feeSummary s.alreadyGeneratedCoins
    s.hardfork.getCurrentVersion = some (baseReward, partialReward)
  added : s.db.addBlock
    (storedBlock E s bl w.txs (s.recordedWeight w) baseReward diffic) = .ok db
  result : chain = (s.withPool w.pool).afterAddBlock E (s.hardfork.add db bl s.height).2.2
    (s.hardfork.add db bl s.height).2.1 s.height now

variable {bl : Block} {now : UInt64}

theorem headerExit_none (h : s.headerExit bl now = none) :
    bl.prevId = s.db.topBlockHash ∧ s.hardfork.check bl = true := by
  unfold headerExit at h
  split_ifs at h with hne hcheck
  exact ⟨not_not.mp hne, by simpa using hcheck⟩

variable {E : Externals} {id : Hash} {ps : PoolSupplement} {diffic : Difficulty}

theorem workExit_none (h : s.workExit E bl id ps diffic = none) :
    diffic ≠ 0 ∧ prevalidateMinerTransaction bl s.height s.hardfork.getCurrentVersion = true := by
  simp only [workExit] at h
  split_ifs at h with hdiffic _ _ _ hminer _
  exact ⟨hdiffic, by simpa using hminer⟩

variable {bvc : Bvc} {w : TxLoop}

theorem storeBlock_accepted {baseReward : UInt64} (hbvc : bvc.verifivationFailed = false)
    (h : (storeBlock E s bl now bvc diffic w baseReward).exit = none) :
    ∃ db, s.db.addBlock (storedBlock E s bl w.txs (s.recordedWeight w) baseReward diffic) = .ok db ∧
      (storeBlock E s bl now bvc diffic w baseReward).chain =
        (s.withPool w.pool).afterAddBlock E (s.hardfork.add db bl s.height).2.2
          (s.hardfork.add db bl s.height).2.1 s.height now ∧
      (storeBlock E s bl now bvc diffic w baseReward).bvc =
        { bvc with addedToMainChain := true } := by
  simp only [storeBlock, hbvc, Bool.false_eq_true, if_false] at h ⊢
  unfold addBlockToDb at h ⊢
  cases hadd : s.db.addBlock
      (storedBlock E s bl w.txs (s.recordedWeight w) baseReward diffic) with
  | error e =>
    rw [hadd] at h
    cases h
  | ok db => exact ⟨db, rfl, rfl, rfl⟩

/-- A block that is accepted, offered with a clear context. -/
theorem handleBlockWork_accepted (h : (s.handleBlockWork E bl id {} ps now diffic).exit = none) :
    Nonempty (Accepted E s bl ps now diffic (s.handleBlockWork E bl id {} ps now diffic).chain) ∧
      (s.handleBlockWork E bl id {} ps now diffic).bvc.addedToMainChain = true := by
  unfold handleBlockWork at h ⊢
  cases hwork : s.workExit E bl id ps diffic with
  | some exit =>
    rw [hwork] at h
    cases h
  | none =>
    rw [hwork] at h
    obtain ⟨hdiffic, hminer⟩ := workExit_none hwork
    rcases hloop : txLoop E s s.expectedHash.isSome bl.txHashes (startLoop E s bl ps) with
      ⟨_ | exit, w⟩
    · rw [hloop] at h
      simp only [finishBlock] at h ⊢
      by_cases hpruned : (w.nPruned > 0 && s.precomputedWeight.isNone) = true
      · rw [if_pos hpruned] at h
        cases h
      · rw [if_neg hpruned] at h ⊢
        cases hreward : s.validateMinerTransaction bl (s.recordedWeight w) w.feeSummary
            s.alreadyGeneratedCoins s.hardfork.getCurrentVersion with
        | none =>
          rw [hreward] at h
          cases h
        | some r =>
          obtain ⟨baseReward, partialReward⟩ := r
          rw [hreward] at h
          obtain ⟨db, hadd, hchain, hbvc⟩ := storeBlock_accepted rfl h
          exact ⟨⟨⟨w, baseReward, partialReward, db, hdiffic, hminer, hloop, hreward, hadd,
            hchain⟩⟩, by rw [hbvc]⟩
    · rw [hloop] at h
      cases h

theorem handleBlockToMainChain_accepted
    (h : (s.handleBlockToMainChain E bl id {} ps now).exit = none) :
    s.headerExit bl now = none ∧
      Nonempty (Accepted E s.getDifficultyForNextBlock.2 bl ps now s.getDifficultyForNextBlock.1
        (s.handleBlockToMainChain E bl id {} ps now).chain) ∧
      (s.handleBlockToMainChain E bl id {} ps now).bvc.addedToMainChain = true := by
  unfold handleBlockToMainChain at h ⊢
  cases hheader : s.headerExit bl now with
  | some exit =>
    rw [hheader] at h
    cases h
  | none =>
    rw [hheader] at h
    exact ⟨rfl, handleBlockWork_accepted h⟩

theorem finishBlock_refused (h : (finishBlock E s bl now bvc diffic w).exit ≠ none) :
    Untouched s (finishBlock E s bl now bvc diffic w).chain := by
  unfold finishBlock at h ⊢
  split
  · exact untouched_withPool s _
  · rename_i hpruned
    rw [if_neg hpruned] at h
    cases hreward : s.validateMinerTransaction bl (s.recordedWeight w) w.feeSummary
        s.alreadyGeneratedCoins s.hardfork.getCurrentVersion with
    | none => exact untouched_withPool s _
    | some r =>
      rw [hreward] at h
      simp only [storeBlock] at h ⊢
      split
      · exact ⟨rfl, rfl, rfl, rfl⟩
      · rename_i hadded
        rw [hadded] at h
        exact absurd rfl h

/-- A block that is refused touches nothing but the pool, the list of invalid blocks and the
    success of the batch, after the difficulty query. -/
theorem handleBlockToMainChain_refused
    (h : (s.handleBlockToMainChain E bl id bvc ps now).exit ≠ none) :
    Untouched s (s.handleBlockToMainChain E bl id bvc ps now).chain ∨
      Untouched s.getDifficultyForNextBlock.2
        (s.handleBlockToMainChain E bl id bvc ps now).chain := by
  unfold handleBlockToMainChain at h ⊢
  cases hheader : s.headerExit bl now with
  | some exit => exact Or.inl ⟨rfl, rfl, rfl, rfl⟩
  | none =>
    right
    rw [hheader] at h
    simp only [handleBlockWork] at h ⊢
    split
    · exact ⟨rfl, rfl, rfl, rfl⟩
    · rename_i hwork
      rw [hwork] at h
      split
      · split
        · exact ⟨rfl, rfl, rfl, rfl⟩
        · exact untouched_withPool _ _
      · rename_i w hloop
        rw [hloop] at h
        exact finishBlock_refused h

/-! ## The chain after an accepted block -/

/-- The query depends on nothing a refused block touches. -/
theorem getDifficultyForNextBlock_congr {s' : Blockchain} (h : Untouched s s') :
    s'.getDifficultyForNextBlock.1 = s.getDifficultyForNextBlock.1 ∧
      Untouched s.getDifficultyForNextBlock.2 s'.getDifficultyForNextBlock.2 := by
  unfold getDifficultyForNextBlock height
  rw [h.db, h.hardfork, h.fixedDifficulty, h.difficultyCache]
  split
  · exact ⟨rfl, h⟩
  · exact ⟨rfl, h.db, h.hardfork, h.fixedDifficulty, rfl⟩

theorem afterAddBlock_untouched (E : Externals) (s : Blockchain) (db : BlockchainDB) (hf : HardFork)
    (newHeight : Nat) (now : UInt64) :
    Untouched (s.withChain db hf).getDifficultyForNextBlock.2
      (s.afterAddBlock E db hf newHeight now) := by
  have hbefore : Untouched (s.withChain db hf)
      ((s.withChain db hf).updateNextCumulativeWeightLimit.withPool
        (s.withChain db hf).updateNextCumulativeWeightLimit.txPool.onBlockchainChange) :=
    ⟨rfl, rfl, rfl, rfl⟩
  have hquery := (getDifficultyForNextBlock_congr hbefore).2
  simp only [afterAddBlock]
  split
  · exact ⟨hquery.db, hquery.hardfork, hquery.fixedDifficulty, hquery.difficultyCache⟩
  · exact hquery

theorem add_tables (hf : HardFork) (db : BlockchainDB) (b : Block) (height : Nat) :
    (hf.add db b height).2.2.blocks = db.blocks ∧
      (hf.add db b height).2.2.altBlocks = db.altBlocks := by
  unfold HardFork.add
  split <;> exact ⟨rfl, rfl⟩

namespace Accepted

variable {E : Externals} {s chain : Blockchain} {bl : Block} {ps : PoolSupplement} {now : UInt64}
  {diffic : Difficulty}

/-- The record that was stored. -/
def stored (a : Accepted E s bl ps now diffic chain) : StoredBlock :=
  storedBlock E s bl a.w.txs (s.recordedWeight a.w) a.baseReward diffic

variable (a : Accepted E s bl ps now diffic chain)

theorem untouched : Untouched ((s.withChain (s.hardfork.add a.db bl s.height).2.2
      (s.hardfork.add a.db bl s.height).2.1).getDifficultyForNextBlock.2) chain := by
  have hafter := afterAddBlock_untouched E (s.withPool a.w.pool)
    (s.hardfork.add a.db bl s.height).2.2 (s.hardfork.add a.db bl s.height).2.1 s.height now
  have hpool := (getDifficultyForNextBlock_congr (untouched_withPool
    (s.withChain (s.hardfork.add a.db bl s.height).2.2 (s.hardfork.add a.db bl s.height).2.1)
    a.w.pool)).2
  rw [← a.result] at hafter
  exact hpool.trans hafter

/-- One record is appended, and the alternative store stays. -/
theorem tables :
    chain.db.blocks = s.db.blocks ++ [a.stored] ∧ chain.db.altBlocks = s.db.altBlocks := by
  obtain ⟨-, -, hblocks, -, halt⟩ := BlockchainDB.addBlock_ok a.added
  obtain ⟨hadd, haddAlt⟩ := add_tables s.hardfork a.db bl s.height
  rw [a.untouched.db, getDifficultyForNextBlock_db]
  exact ⟨hadd.trans hblocks, haddAlt.trans halt⟩

end Accepted

/-! ## What is taken from the pool goes back -/

/-- A transaction as it was taken, by its id. -/
abbrev Taken := Hash × TxPool.TakenTx

/-- The entry of `txs` made for a taken transaction. -/
def Taken.blockTx (t : Taken) : BlockTx :=
  ⟨t.1, t.2.tx, t.2.blob, t.2.weight, t.2.fee, true⟩

/-- The call that gives a taken transaction back. -/
def Taken.giveBack (version : UInt8) (t : Taken) : AddTxCall :=
  returnCall version t.blockTx

/-- The calls made to the pool are those that took some transactions out, followed by those that
    give the same ones back, in the same order and nothing else. -/
def HandedBack (version : UInt8) (calls : List PoolCall) : Prop :=
  ∃ taken : List Taken,
    calls = taken.map (fun t => PoolCall.take t.1 t.2) ++
      taken.map fun t => PoolCall.add (t.giveBack version)

/-- The calls so far took out exactly the transactions marked as found in the pool. -/
def TakenSoFar (w : TxLoop) : Prop :=
  ∃ taken : List Taken, w.calls = taken.map (fun t => PoolCall.take t.1 t.2) ∧
    w.txs.filter BlockTx.foundInPool = taken.map Taken.blockTx

/-- The exit for a difficulty that overflowed. -/
def DifficultyOverhead (s : Blockchain) (bl : Block) (now : UInt64) : Prop :=
  s.headerExit bl now = none ∧ s.getDifficultyForNextBlock.1 = 0

/-- The exit for a block with pruned transactions whose weight is not known. -/
def PrunedWithoutWeight (E : Externals) (s : Blockchain) (bl : Block) (id : Hash)
    (ps : PoolSupplement) (now : UInt64) : Prop :=
  let s₁ := s.getDifficultyForNextBlock.2
  let r := txLoop E s₁ s₁.expectedHash.isSome bl.txHashes (startLoop E s₁ bl ps)
  s.headerExit bl now = none ∧ s₁.workExit E bl id ps s.getDifficultyForNextBlock.1 = none ∧
    r.1 = none ∧ 0 < r.2.nPruned ∧ s₁.precomputedWeight = none

theorem findTx_taken {w' : TxLoop} {t : BlockTx} {pruned : Bool} (hw : TakenSoFar w)
    (h : findTx E w id = some (t, pruned, w')) : TakenSoFar { w' with txs := w'.txs ++ [t] } := by
  obtain ⟨taken, hcalls, htxs⟩ := hw
  unfold findTx at h
  split at h
  · rename_i entry pool _
    cases h
    refine ⟨taken ++ [(id, entry)], ?_, ?_⟩
    · rw [List.map_append, ← hcalls]
      rfl
    · rw [List.filter_append, List.map_append, ← htxs]
      rfl
  · split at h
    · cases h
    · cases h
      refine ⟨taken, hcalls, ?_⟩
      rw [List.filter_append, htxs]
      exact List.append_nil _

section

variable (E : Externals) (s : Blockchain)

/-- The loop records what it takes. -/
theorem txLoop_taken (fastCheck : Bool) (ids : List Hash) (w : TxLoop) (hw : TakenSoFar w) :
    TakenSoFar (txLoop E s fastCheck ids w).2 := by
  induction ids generalizing w with
  | nil => exact hw
  | cons id rest ih =>
    unfold txLoop
    split
    · exact hw
    · split
      · exact hw
      · rename_i t pruned w' hfind
        have htaken := findTx_taken hw hfind
        simp only
        split
        · exact htaken
        · exact ih _ htaken

theorem handedBack_returnTxsToPool (now : UInt64) (w : TxLoop) (hw : TakenSoFar w) :
    HandedBack s.hardfork.getCurrentVersion (returnTxsToPool E s now w).calls := by
  obtain ⟨taken, hcalls, htxs⟩ := hw
  refine ⟨taken, ?_⟩
  simp only [returnTxsToPool, hcalls, htxs, List.map_map]
  rfl

end

/-- An exit that gives back what was taken and sets the flag. -/
def BlockExit.Clean (exit : BlockExit) : Prop :=
  exit ≠ .difficultyOverhead ∧ exit ≠ .prunedWithoutWeight

theorem mark_failed_iff (exit : BlockExit) (bvc : Bvc) (hbvc : bvc.verifivationFailed = false) :
    (exit.mark bvc).verifivationFailed = true ↔ BlockExit.Clean exit := by
  cases exit <;> simp [BlockExit.mark, BlockExit.Clean, hbvc]

variable {exit : BlockExit}

theorem headerExit_clean (h : s.headerExit bl now = some exit) : BlockExit.Clean exit := by
  unfold headerExit at h
  split_ifs at h <;> cases h <;> exact ⟨by simp, by simp⟩

theorem workExit_clean (h : s.workExit E bl id ps diffic = some exit) :
    BlockExit.Clean exit ↔ diffic ≠ 0 := by
  simp only [workExit] at h
  split_ifs at h with hzero <;> cases h
  · simp [BlockExit.Clean, hzero]
  all_goals exact iff_of_true ⟨by simp, by simp⟩ hzero

theorem txLoop_clean {fastCheck : Bool} {ids : List Hash}
    (h : (txLoop E s fastCheck ids w).1 = some exit) : BlockExit.Clean exit := by
  induction ids generalizing w with
  | nil => cases h
  | cons id rest ih =>
    unfold txLoop at h
    split at h
    · cases h
      exact ⟨by simp, by simp⟩
    · split at h
      · cases h
        exact ⟨by simp, by simp⟩
      · simp only at h
        split at h
        · cases h
          exact ⟨by simp, by simp⟩
        · exact ih h

/-- The end of the function: a refusal is clean unless the weight of a pruned block is not known. -/
theorem finishBlock_handedBack (hw : TakenSoFar w)
    (h : (finishBlock E s bl now {} diffic w).exit ≠ none) :
    (HandedBack s.hardfork.getCurrentVersion (finishBlock E s bl now {} diffic w).calls ∧
        (finishBlock E s bl now {} diffic w).bvc.verifivationFailed = true) ↔
      ¬(0 < w.nPruned ∧ s.precomputedWeight = none) := by
  have hback := handedBack_returnTxsToPool E s now w hw
  unfold finishBlock at h ⊢
  by_cases hpruned : (w.nPruned > 0 && s.precomputedWeight.isNone) = true
  · -- `goto leave`: the flag is as it was at the start.
    rw [if_pos hpruned]
    rw [Bool.and_eq_true, decide_eq_true_eq, Option.isNone_iff_eq_none] at hpruned
    exact iff_of_false (fun hc => by cases hc.2) (not_not.mpr hpruned)
  · rw [if_neg hpruned] at h ⊢
    rw [Bool.and_eq_true, decide_eq_true_eq, Option.isNone_iff_eq_none] at hpruned
    refine iff_of_true ?_ hpruned
    cases hreward : s.validateMinerTransaction bl (s.recordedWeight w) w.feeSummary
        s.alreadyGeneratedCoins s.hardfork.getCurrentVersion with
    | none => exact ⟨hback, rfl⟩
    | some r =>
      rw [hreward] at h
      simp only [storeBlock] at h ⊢
      split
      · exact ⟨hback, rfl⟩
      · rename_i hadded
        rw [hadded] at h
        exact absurd rfl h

/-- When `handle_block_to_main_chain` returns false, it has given every transaction it took back
    to the pool, nothing else has entered the pool, and the flag is set, unless the difficulty
    was zero or the block had pruned transactions and no known weight. -/
theorem handedBack_iff (E : Externals) (s : Blockchain) (bl : Block) (id : Hash)
    (ps : PoolSupplement) (now : UInt64)
    (hfalse : (s.handleBlockToMainChain E bl id {} ps now).exit ≠ none) :
    (HandedBack s.hardfork.getCurrentVersion
          (s.handleBlockToMainChain E bl id {} ps now).calls ∧
        (s.handleBlockToMainChain E bl id {} ps now).bvc.verifivationFailed = true) ↔
      ¬s.DifficultyOverhead bl now ∧ ¬s.PrunedWithoutWeight E bl id ps now := by
  simp only [DifficultyOverhead, PrunedWithoutWeight]
  unfold handleBlockToMainChain at hfalse ⊢
  cases hheader : s.headerExit bl now with
  | some exit =>
    have hflag := (mark_failed_iff exit {} rfl).mpr (headerExit_clean hheader)
    simp only [reduceCtorEq, false_and, not_false_eq_true, and_self, iff_true]
    exact ⟨⟨[], rfl⟩, hflag⟩
  | none =>
    rw [hheader] at hfalse
    simp only [true_and, handleBlockWork] at hfalse ⊢
    set s₁ := s.getDifficultyForNextBlock.2 with hs₁
    set diffic := s.getDifficultyForNextBlock.1
    have hversion : s.hardfork.getCurrentVersion = s₁.hardfork.getCurrentVersion := by
      rw [hs₁, getDifficultyForNextBlock_hardfork]
    rw [hversion]
    cases hwork : s₁.workExit E bl id ps diffic with
    | some exit =>
      have hflag := mark_failed_iff exit {} rfl
      simp only [reduceCtorEq, false_and, not_false_eq_true, and_true]
      rw [hflag, workExit_clean hwork]
      exact and_iff_right ⟨[], rfl⟩
    | none =>
      rw [hwork] at hfalse
      obtain ⟨hdiffic, -⟩ := workExit_none hwork
      simp only [hdiffic, not_false_eq_true, true_and]
      have htaken := txLoop_taken E s₁ s₁.expectedHash.isSome bl.txHashes (startLoop E s₁ bl ps)
        ⟨[], rfl, rfl⟩
      rcases hloop : txLoop E s₁ s₁.expectedHash.isSome bl.txHashes
          (startLoop E s₁ bl ps) with ⟨_ | exit, w⟩
      · rw [hloop] at hfalse htaken
        simpa using finishBlock_handedBack htaken hfalse
      · rw [hloop] at htaken
        have hclean : BlockExit.Clean exit := txLoop_clean (by rw [hloop])
        have hflag := (mark_failed_iff exit {} rfl).mpr hclean
        simp only [reduceCtorEq, false_and, not_false_eq_true, iff_true]
        refine ⟨?_, hflag⟩
        split
        · exact handedBack_returnTxsToPool E _ now w htaken
        · exact handedBack_returnTxsToPool E _ now w htaken

/-! ## A transaction lost -/

/-- A genesis block on a node that knows the hash of the next block but not its weight, with one
    transaction in its pool. -/
def lossNode : Blockchain :=
  let genesis : StoredBlock :=
    { block := ⟨12, 12, 0, 0, 0, {}, []⟩, hash := 1, minerTxHash := 0, txs := [], weight := 0
      longTermWeight := 0, cumulativeDifficulty := 1, coins := 0 }
  let db := BlockchainDB.empty.append genesis (by decide) (by decide)
  let s := { start db .mainnet with blocksHashCheck := [(1, 0), (2, 0)] }
  let call : AddTxCall :=
    { tx := sampleTx [7], id := 263, blob := [7], txWeight := 1, txRelay := .fluff
      relayed := true, version := 12 }
  s.withPool (s.txPool.addTx .sample s.view call 0 {}).2.2

/-- The next block, with that transaction and one more. -/
def lossBlock : Block where
  majorVersion := 12
  minorVersion := 12
  timestamp := 0
  prevId := 1
  nonce := 1
  minerTx := { vin := [.gen 1], unlockTime := 61 }
  txHashes := [263, 264]

/-- A block with that transaction alone, which pays too much. -/
def overpaidBlock : Block :=
  { lossBlock with
    minerTx := { lossBlock.minerTx with vout := [⟨2 ^ 63, .toKey 0⟩] }
    txHashes := [263] }

/-- The transaction is taken from the pool and put back. -/
theorem overpaid_handedBack :
    (lossNode.handleBlockToMainChain .sample overpaidBlock 2 {} {} 0).calls.length = 2 ∧
      HandedBack lossNode.hardfork.getCurrentVersion
        (lossNode.handleBlockToMainChain .sample overpaidBlock 2 {} {} 0).calls ∧
      (lossNode.handleBlockToMainChain .sample overpaidBlock 2 {} {} 0).bvc.verifivationFailed =
        true := by
  refine ⟨by decide +kernel,
    (handedBack_iff .sample lossNode overpaidBlock 2 {} 0 (by decide +kernel)).mpr ⟨?_, ?_⟩⟩
  · unfold DifficultyOverhead
    decide +kernel
  · unfold PrunedWithoutWeight
    decide +kernel

/-- The other transaction comes with the block, pruned. -/
def lossSupplement : PoolSupplement where
  txsByTxid := AList.singleton 264 ({ sampleTx [8] with pruned := true }, [8])

/-- The block is refused, the transaction has left the pool, no call put it back, and the flag
    is not set. -/
theorem prunedWithoutWeight_loses :
    let r := lossNode.handleBlockToMainChain .sample lossBlock 2 {} lossSupplement 0
    (263 : Hash) ∈ lossNode.txPool.txpool ∧ (263 : Hash) ∉ r.chain.txPool.txpool ∧
      r.exit = some .prunedWithoutWeight ∧ r.calls.length = 1 ∧
      r.bvc.verifivationFailed = false := by
  decide +kernel

end Blockchain

end CocaineNode
