import CocaineNode.Lib.WordSum
import CocaineNode.Theory.MainChain
import Mathlib.Algebra.Order.BigOperators.Group.List

/-!
# The Money Supply

Every block creates the difference between what its miner transaction pays out
and the fees of its transactions. From version 2 to 12 a miner may claim less
than the full reward, so `validate_miner_transaction` overwrites the reward by
that difference, taken in unsigned arithmetic, and the chain adds it to
`already_generated_coins` up to `MONEY_SUPPLY`.

`Issued` follows a chain from its first block, keeping for each block what it
paid and what its reward could have been. The only thing asked of a block is
that reward and fees together fit in a word. Then nothing wraps: outputs that
overflow fail the prevalidation, and a difference that wrapped would be larger
than any reward (`reward_word`).

## Theorems

* `addCoins_toNat`: Coins are added up to the money supply.
* `emissionLaw`: The law, for every chain.
-/

namespace CocaineNode

open List Blockchain

/-! ## Words -/

/-- The overflow test passes exactly when the sum fits in a word. -/
theorem sumNoOverflow_iff (money : UInt64) (amounts : List UInt64) :
    sumNoOverflow money amounts = true ↔ money.toNat + (amounts.map UInt64.toNat).sum < 2 ^ 64 := by
  induction amounts generalizing money with
  | nil => simpa [sumNoOverflow] using money.toNat_lt
  | cons a rest ih =>
    have ha := a.toNat_lt
    simp only [sumNoOverflow, map_cons, sum_cons, gt_iff_lt, UInt64.lt_iff_toNat_lt,
      UInt64.toNat_add]
    split
    · -- The sum after the addition is below the sum before it: a wrap.
      simp only [Bool.false_eq_true, false_iff]
      omega
    · rw [ih, UInt64.toNat_add]
      omega

/-- Coins are added up to the money supply. -/
theorem addCoins_toNat (coins reward : UInt64) : (Blockchain.addCoins coins reward).toNat =
      min moneySupply.toNat (coins.toNat + reward.toNat) := by
  have hsupply : moneySupply.toNat = 2 ^ 64 - 1 := rfl
  have hc := coins.toNat_lt
  have hle : coins ≤ moneySupply := by
    rw [UInt64.le_iff_toNat_le, hsupply]
    omega
  unfold addCoins
  split
  · rename_i hroom
    rw [UInt64.lt_iff_toNat_lt, UInt64.toNat_sub_of_le _ _ hle] at hroom
    rw [UInt64.toNat_add]
    omega
  · rename_i hfull
    rw [UInt64.lt_iff_toNat_lt, UInt64.toNat_sub_of_le _ _ hle] at hfull
    omega

/-- A difference of words that is at most `reward` has not wrapped, when reward and subtrahend
    fit in a word together. -/
theorem reward_word {money fee reward : UInt64} (hfit : reward.toNat + fee.toNat < 2 ^ 64)
    (hle : money - fee ≤ reward) : fee ≤ money ∧ (money - fee).toNat = money.toNat - fee.toNat := by
  have hfee : fee ≤ money := by
    by_contra hlt
    rw [UInt64.le_iff_toNat_le] at hle hlt
    rw [UInt64.toNat_sub] at hle
    omega
  exact ⟨hfee, UInt64.toNat_sub_of_le _ _ hfee⟩

namespace Blockchain

/-! ## One block -/

/-- The fees of a list of transactions, in a word. -/
def feeWord (txs : List BlockTx) : UInt64 :=
  (txs.map BlockTx.fee).foldl (· + ·) 0

/-- The fee summary of a finished loop is the sum of the fees of its transactions. -/
theorem txLoop_fees {E : Externals} {s : Blockchain} {fastCheck : Bool} {ids : List Hash}
    {w w' : TxLoop} (hw : w.feeSummary = feeWord w.txs)
    (h : txLoop E s fastCheck ids w = (none, w')) : w'.feeSummary = feeWord w'.txs := by
  induction ids generalizing w with
  | nil =>
    cases h
    exact hw
  | cons id rest ih =>
    unfold txLoop at h
    split at h
    · cases h
    · split at h
      · cases h
      · rename_i t pruned found hfind
        simp only at h
        split at h
        · cases h
        · -- Finding a transaction changes neither the list nor the sum.
          have hsame : found.txs = w.txs ∧ found.feeSummary = w.feeSummary := by
            unfold findTx at hfind
            split at hfind
            · cases hfind
              exact ⟨rfl, rfl⟩
            · split at hfind
              · cases hfind
              · cases hfind
                exact ⟨rfl, rfl⟩
          refine ih ?_ h
          simp only [hsame.1, hsame.2, hw, feeWord, map_append, map_cons, map_nil,
            foldl_append, foldl_cons, foldl_nil]

/-- The reward a block is recorded with is what it pays without the fees, at every version. -/
theorem validateMinerTransaction_some {s : Blockchain} {bl : Block}
    {weight fee coins baseReward : UInt64} {version : UInt8} {partialReward : Bool}
    (h : s.validateMinerTransaction bl weight fee coins version =
      some (baseReward, partialReward)) :
    ∃ full, getBlockReward (s.rewardMedianWeight version) weight coins version = some full ∧
      bl.minerTx.outsMoneyAmount - fee ≤ full ∧
      baseReward = bl.minerTx.outsMoneyAmount - fee := by
  simp only [validateMinerTransaction] at h
  split at h
  · cases h
  · split at h
    · cases h
    · rename_i full hfull
      split_ifs at h with hless hexact hsame hle
      · -- Outside of versions 2 to 12 the miner takes the whole reward.
        cases h
        have heq : bl.minerTx.outsMoneyAmount - fee = baseReward := by
          rw [← not_not.mp hsame, UInt64.add_sub_cancel]
        exact ⟨baseReward, hfull, UInt64.le_of_eq heq, heq.symm⟩
      · cases h
        exact ⟨full, hfull, hle, rfl⟩

theorem prevalidate_outputs {bl : Block} {height : Nat} {version : UInt8}
    (h : prevalidateMinerTransaction bl height version = true) :
    bl.minerTx.checkOutsOverflow = true := by
  unfold prevalidateMinerTransaction at h
  split at h
  · simp only [Bool.and_eq_true] at h
    exact h.1.2
  · cases h

/-- What the loop over the transactions of an offered block collects. -/
def collected (E : Externals) (s : Blockchain) (bl : Block) (ps : PoolSupplement) : TxLoop :=
  let s := s.getDifficultyForNextBlock.2
  (txLoop E s s.expectedHash.isSome bl.txHashes (startLoop E s bl ps)).2

/-- The value of `get_block_reward` for an offered block. -/
def fullReward (E : Externals) (s : Blockchain) (bl : Block) (ps : PoolSupplement) :
    Option UInt64 :=
  let version := s.hardfork.getCurrentVersion
  let s₁ := s.getDifficultyForNextBlock.2
  getBlockReward (s₁.rewardMedianWeight version) (s₁.recordedWeight (collected E s bl ps))
    s.alreadyGeneratedCoins version

end Blockchain

/-! ## The law -/

/-- An accepted block as the money supply sees it: what its miner transaction pays, its
    transactions, the reward for its weight, and the coins there were before it. -/
structure Mint where
  minerTx : Transaction
  txs : List BlockTx
  reward : UInt64
  alreadyGeneratedCoins : UInt64

namespace Mint

/-- The coinbase outputs as an integer. -/
def outputs (x : Mint) : Nat :=
  ((x.minerTx.vout.map TxOut.amount).map UInt64.toNat).sum

/-- The fees as an integer. -/
def fees (x : Mint) : Nat :=
  ((x.txs.map BlockTx.fee).map UInt64.toNat).sum

/-- What the block creates. -/
def minted (x : Mint) : Int :=
  x.outputs - x.fees

/-- Neither of the two subtractions of the source wraps on the block. -/
def NoWrap (x : Mint) : Prop :=
  (moneySupply - x.alreadyGeneratedCoins).toNat =
      moneySupply.toNat - x.alreadyGeneratedCoins.toNat ∧
    x.alreadyGeneratedCoins.toNat ≤ moneySupply.toNat ∧
    (x.minerTx.outsMoneyAmount - feeWord x.txs).toNat = x.outputs - x.fees ∧
    x.fees ≤ x.outputs

end Mint

/-- A block as it is offered to a state. -/
def Blockchain.mint (E : Externals) (s : Blockchain) (bl : Block) (ps : PoolSupplement) : Mint where
  minerTx := bl.minerTx
  txs := (s.collected E bl ps).txs
  reward := (s.fullReward E bl ps).getD 0
  alreadyGeneratedCoins := s.alreadyGeneratedCoins

/-- A chain with the blocks it was made of, from the first. Blocks are accepted at versions 2 to
    12 with a reward and fees that fit in a word together; between them the top block may be
    removed, and anything may happen that leaves the blocks alone. -/
inductive Issued (E : Externals) : List Mint → Blockchain → Prop
  | start (s : Blockchain) : s.db.blocks = [] → Issued E [] s
  | accept (t : List Mint) (s : Blockchain) (bl : Block) (id : Hash) (ps : PoolSupplement)
      (now : UInt64) : Issued E t s →
      (s.handleBlockToMainChain E bl id {} ps now).exit = none →
      2 ≤ s.hardfork.getCurrentVersion → s.hardfork.getCurrentVersion ≤ 12 →
      (s.mint E bl ps).reward.toNat + (s.mint E bl ps).fees < 2 ^ 64 →
      Issued E (t ++ [s.mint E bl ps]) (s.handleBlockToMainChain E bl id {} ps now).chain
  | pop (t : List Mint) (x : Mint) (s s' : Blockchain) : Issued E (t ++ [x]) s →
      s'.db.blocks = s.db.blocks.dropLast → Issued E t s'
  | other (t : List Mint) (s s' : Blockchain) : Issued E t s →
      s'.db.blocks = s.db.blocks → Issued E t s'

/-- What holds of the coins of a chain. -/
structure EmissionLaw (t : List Mint) (s : Blockchain) : Prop where
  minted_nonneg : ∀ x ∈ t, 0 ≤ x.minted
  minted_le : ∀ x ∈ t, x.minted ≤ x.reward.toNat
  height : s.height = t.length
  coins : ∀ i b, s.db.blocks[i]? = some b →
    (b.coins.toNat : Int) = min (moneySupply.toNat : Int) ((t.take (i + 1)).map Mint.minted).sum
  monotone : (s.db.blocks.map StoredBlock.coins).Pairwise (· ≤ ·)
  noWrap : ∀ x ∈ t, x.NoWrap

variable {t : List Mint}

/-- The coins of a lawful chain are what its blocks created, up to the money supply. -/
theorem EmissionLaw.alreadyGeneratedCoins {s : Blockchain} (h : EmissionLaw t s) :
    (s.alreadyGeneratedCoins.toNat : Int) =
      min (moneySupply.toNat : Int) (t.map Mint.minted).sum := by
  unfold Blockchain.alreadyGeneratedCoins
  have hheight : s.db.blocks.length = t.length := h.height
  cases hlast : s.db.blocks.getLast? with
  | none =>
    rw [getLast?_eq_none_iff] at hlast
    rw [hlast, length_nil, eq_comm, length_eq_zero_iff] at hheight
    rw [hheight]
    rfl
  | some b =>
    rw [getLast?_eq_getElem?] at hlast
    have hcoins := h.coins _ b hlast
    rwa [take_of_length_le (by omega)] at hcoins

/-- One accepted block creates between nothing and its reward, and the record stored for it
    adds that up. -/
theorem mint_accepted {E : Externals} {s : Blockchain} {bl : Block} {id : Hash}
    {ps : PoolSupplement} {now : UInt64}
    (h : (s.handleBlockToMainChain E bl id {} ps now).exit = none)
    (hfit : (s.mint E bl ps).reward.toNat + (s.mint E bl ps).fees < 2 ^ 64) :
    0 ≤ (s.mint E bl ps).minted ∧ (s.mint E bl ps).minted ≤ (s.mint E bl ps).reward.toNat ∧
      (s.mint E bl ps).NoWrap ∧
      ∃ b, (s.handleBlockToMainChain E bl id {} ps now).chain.db.blocks = s.db.blocks ++ [b] ∧
        (b.coins.toNat : Int) = min (moneySupply.toNat : Int)
          (s.alreadyGeneratedCoins.toNat + (s.mint E bl ps).minted) := by
  obtain ⟨-, ⟨a⟩, -⟩ := handleBlockToMainChain_accepted h
  set x := s.mint E bl ps with hx
  have hcoins := s.getDifficultyForNextBlock_coins
  have hw : s.collected E bl ps = a.w := by
    simp only [collected, a.loop]
  -- The fees fit in a word, so the fee summary is their sum.
  have hfee : (feeWord x.txs).toNat = x.fees := by
    have hsum := WordSum.toNat_foldl_add_of_lt (x.txs.map BlockTx.fee) 0 (by
      change 0 + x.fees < 2 ^ 64
      omega)
    exact hsum.trans (Nat.zero_add _)
  have hsummary : a.w.feeSummary = feeWord x.txs := by
    have hloop := txLoop_fees rfl a.loop
    rw [hloop, hx, mint, hw]
  -- The outputs fit in a word, as the prevalidation has checked.
  have houtputs : bl.minerTx.outsMoneyAmount.toNat = x.outputs := by
    have hover := (sumNoOverflow_iff 0 _).mp (prevalidate_outputs a.prevalidated)
    exact (WordSum.toNat_foldl_add_of_lt _ 0 hover).trans (Nat.zero_add _)
  have hreward := a.reward
  rw [getDifficultyForNextBlock_hardfork, hcoins, hsummary] at hreward
  obtain ⟨full, hfull, hle, hbase⟩ := validateMinerTransaction_some hreward
  have hfullReward : x.reward = full := by
    rw [hx, mint, fullReward, hw, hfull, Option.getD_some]
  have hfitWord : full.toNat + (feeWord x.txs).toNat < 2 ^ 64 := by
    rw [hfee, ← hfullReward]
    exact hfit
  obtain ⟨hfeeLe, hdiff⟩ := reward_word hfitWord hle
  rw [UInt64.le_iff_toNat_le, hfee, houtputs] at hfeeLe
  rw [hfee, houtputs] at hdiff
  have hminted : x.minted = ((x.outputs - x.fees : Nat) : Int) := by
    rw [Mint.minted, Int.ofNat_sub hfeeLe]
  refine ⟨?_, ?_, ?_, a.stored, ?_, ?_⟩
  · rw [hminted]
    exact Int.natCast_nonneg _
  · rw [hminted, hfullReward, ← hdiff]
    exact Int.ofNat_le.mpr (UInt64.le_iff_toNat_le.mp hle)
  · have hsupply : x.alreadyGeneratedCoins.toNat ≤ moneySupply.toNat := by
      have hlt := x.alreadyGeneratedCoins.toNat_lt
      have hmax : moneySupply.toNat = 2 ^ 64 - 1 := rfl
      omega
    exact ⟨UInt64.toNat_sub_of_le _ _ (UInt64.le_iff_toNat_le.mpr hsupply), hsupply, hdiff, hfeeLe⟩
  · rw [a.tables.1, getDifficultyForNextBlock_db]
  · have hstored : a.stored.coins = addCoins s.alreadyGeneratedCoins a.baseReward := by
      rw [← hcoins, Blockchain.Accepted.stored, storedBlock]
    rw [hstored, addCoins_toNat, hbase, hdiff, hminted]
    omega

/-- The law is kept when a record is appended that adds up what the block created. -/
theorem EmissionLaw.append {s s' : Blockchain} {x : Mint} {b : StoredBlock}
    (h : EmissionLaw t s) (hnonneg : 0 ≤ x.minted) (hle : x.minted ≤ x.reward.toNat)
    (hwrap : x.NoWrap) (hblocks : s'.db.blocks = s.db.blocks ++ [b])
    (hcoins : (b.coins.toNat : Int) = min (moneySupply.toNat : Int)
      (s.alreadyGeneratedCoins.toNat + x.minted)) : EmissionLaw (t ++ [x]) s' := by
  have hheight : s.db.blocks.length = t.length := h.height
  have halready := h.alreadyGeneratedCoins
  have hsum : ((t ++ [x]).map Mint.minted).sum = (t.map Mint.minted).sum + x.minted := by
    rw [map_append, sum_append, map_singleton, sum_singleton]
  refine ⟨forall_mem_append.mpr ⟨h.minted_nonneg, forall_mem_singleton.mpr hnonneg⟩,
    forall_mem_append.mpr ⟨h.minted_le, forall_mem_singleton.mpr hle⟩, ?_, ?_, ?_,
    forall_mem_append.mpr ⟨h.noWrap, forall_mem_singleton.mpr hwrap⟩⟩
  · change s'.db.blocks.length = _
    rw [hblocks, length_append, length_append, hheight]
    rfl
  · intro i c hc
    rw [hblocks] at hc
    by_cases hi : i < s.db.blocks.length
    · rw [getElem?_append_left hi] at hc
      rw [take_append_of_le_length (by omega)]
      exact h.coins i c hc
    · -- The new record is the last one.
      rw [getElem?_append_right (by omega)] at hc
      obtain ⟨hlt, heq⟩ := List.getElem?_eq_some_iff.mp hc
      have hb : c = b := by
        rw [← heq]
        exact getElem_singleton _
      rw [hb, hcoins, take_of_length_le (by
        rw [length_append, length_singleton]
        omega), hsum, halready]
      omega
  · rw [hblocks, map_append, pairwise_append]
    refine ⟨h.monotone, pairwise_singleton _ _, ?_⟩
    intro c hc d hd
    rw [map_singleton, mem_singleton] at hd
    -- Every earlier record is at most the last one, which is at most the new one.
    obtain ⟨y, hy, rfl⟩ := mem_map.mp hc
    obtain ⟨i, hi, hget⟩ := getElem_of_mem hy
    have hy' := h.coins i y (List.getElem?_eq_some_iff.mpr ⟨hi, hget⟩)
    have hprefix : ((t.take (i + 1)).map Mint.minted).sum ≤ (t.map Mint.minted).sum := by
      conv_rhs => rw [← take_append_drop (i + 1) t, map_append, sum_append]
      have hrest : 0 ≤ ((t.drop (i + 1)).map Mint.minted).sum := by
        apply sum_nonneg
        intro m hm
        obtain ⟨z, hz, rfl⟩ := mem_map.mp hm
        exact h.minted_nonneg z (mem_of_mem_drop hz)
      omega
    rw [hd, UInt64.le_iff_toNat_le]
    omega

/-- The law is kept when the top block is removed. -/
theorem EmissionLaw.dropLast {x : Mint} {s s' : Blockchain} (h : EmissionLaw (t ++ [x]) s)
    (hblocks : s'.db.blocks = s.db.blocks.dropLast) : EmissionLaw t s' := by
  have hheight : s.db.blocks.length = t.length + 1 := by
    have hlen := h.height
    rwa [length_append, length_singleton] at hlen
  refine ⟨fun y hy => h.minted_nonneg y (mem_append_left _ hy),
    fun y hy => h.minted_le y (mem_append_left _ hy), ?_, ?_, ?_,
    fun y hy => h.noWrap y (mem_append_left _ hy)⟩
  · change s'.db.blocks.length = _
    rw [hblocks, length_dropLast, hheight]
    rfl
  · intro i c hc
    rw [hblocks] at hc
    have hlt := (List.getElem?_eq_some_iff.mp hc).1
    rw [length_dropLast, hheight] at hlt
    rw [getElem?_dropLast, if_pos (by omega)] at hc
    have hcoins := h.coins i c hc
    rwa [take_append_of_le_length (by omega)] at hcoins
  · rw [hblocks, map_dropLast]
    exact h.monotone.sublist (dropLast_sublist _)

/-- The money supply law holds of every chain. -/
theorem emissionLaw (E : Externals) (t : List Mint) (s : Blockchain) (h : Issued E t s) :
    EmissionLaw t s := by
  induction h with
  | start s hempty =>
    refine ⟨by simp, by simp, ?_, ?_, ?_, by simp⟩
    · change s.db.blocks.length = 0
      rw [hempty]
      rfl
    · intro i b hb
      rw [hempty] at hb
      cases hb
    · rw [hempty]
      exact List.Pairwise.nil
  | accept t s bl id ps now _ hexit _ _ hfit ih =>
    obtain ⟨hnonneg, hle, hwrap, b, hblocks, hcoins⟩ := mint_accepted hexit hfit
    exact ih.append hnonneg hle hwrap hblocks hcoins
  | pop t x s s' _ hblocks ih => exact ih.dropLast hblocks
  | other t s s' _ hblocks ih =>
    have hheight : s'.height = s.height := by
      unfold height BlockchainDB.height
      rw [hblocks]
    refine ⟨ih.minted_nonneg, ih.minted_le, hheight.trans ih.height, ?_, ?_, ih.noWrap⟩
    · rw [hblocks]
      exact ih.coins
    · rw [hblocks]
      exact ih.monotone

/-! ## Two blocks -/

/-- A block that pays one coin. -/
def coinBlock (height : UInt64) (prevId : Hash) (txHashes : List Hash) : Block where
  majorVersion := 12
  minorVersion := 12
  timestamp := 0
  prevId := prevId
  nonce := height.toUInt32
  minerTx := { vin := [.gen height], unlockTime := height + 60
               vout := [⟨1000000000000, .toKey 7⟩], extra := [height.toUInt8] }
  txHashes := txHashes

/-- A transaction with a fee of 5. -/
def feeSupplement : PoolSupplement where
  txsByTxid := AList.singleton 263 ({ sampleTx [7] with txnFee := 5 }, [7])

/-- The law on a chain of two blocks, of which the second collects a fee. -/
theorem emissionLaw_coinBlock :
    let s₀ := start .empty (HardFork.mainnet.init .empty)
    let s₁ := (s₀.handleBlockToMainChain .sample (coinBlock 0 0 []) 1 {} {} 0).chain
    let s₂ := (s₁.handleBlockToMainChain .sample (coinBlock 1 1 [263]) 2 {} feeSupplement 0).chain
    EmissionLaw [s₀.mint .sample (coinBlock 0 0 []) {},
        s₁.mint .sample (coinBlock 1 1 [263]) feeSupplement] s₂ ∧
      s₂.alreadyGeneratedCoins = 1999999999995 := by
  intro s₀ s₁ s₂
  have hstart : Issued .sample [] s₀ := Issued.start _ rfl
  have hfirst := Issued.accept [] s₀ (coinBlock 0 0 []) 1 {} 0 hstart
    (by decide +kernel) (by decide +kernel) (by decide +kernel) (by decide +kernel)
  have hsecond := Issued.accept _ s₁ (coinBlock 1 1 [263]) 2 feeSupplement 0 hfirst
    (by decide +kernel) (by decide +kernel) (by decide +kernel) (by decide +kernel)
  exact ⟨emissionLaw .sample _ _ hsecond, by decide +kernel⟩

end CocaineNode
