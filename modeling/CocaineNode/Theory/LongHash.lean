import CocaineNode.Theory.Reorg

/-!
# Proof of Work on Both Paths

The main chain asks its database for the seed block of a new block. A side
chain looks among its own blocks first and falls back on the main chain. When
the ancestors are the same the two must seed RandomX alike, and they do: the
lag keeps the seed block at least two below the new one (`seedHeight_lt`), so
it is a proper ancestor on either path. The seed block after it is known a lag
ahead, unless an epoch is shorter than the lag (`rxSeedheights_leaps`).

What breaks the agreement is one height. `get_block_longhash` returns a
constant at height 202612, left over from another chain, and
`get_altblock_longhash` has no such case. On the main chain a block at that
height therefore passes or fails the work check whatever it contains.

## Theorems

* `SeedEnv.rxSeedheights_spec`: Where the seed block of a height is, and the next one.
* `Blockchain.altSeedHash_eq`: The side chain finds the ancestor at the seed height.
* `Blockchain.proofOfWork_agrees_iff`: The two paths agree except at one height.
-/

namespace CocaineNode

open List UInt64

namespace SeedEnv

variable (env : SeedEnv) (height : UInt64)

/-- The length of an epoch. -/
def epoch : Nat :=
  env.seedhashEpochBlocks.toNat

/-- The lag. -/
def epochLag : Nat :=
  env.seedhashEpochLag.toNat

theorem isPowerOfTwo_of_isPowerOf2 {n : UInt32} (h : isPowerOf2 n = true) :
    n.toNat.isPowerOfTwo := by
  simp only [isPowerOf2, Bool.and_eq_true, decide_eq_true_eq] at h
  have hne : n.toNat ≠ 0 := fun h0 => h.1 (UInt32.toNat_inj.mp h0)
  have hone : 1 ≤ n := UInt32.le_iff_toNat_le.mpr (Nat.pos_of_ne_zero hne)
  have hand := congrArg UInt32.toNat h.2
  rw [UInt32.toNat_and, UInt32.toNat_sub_of_le _ _ hone] at hand
  exact (Nat.and_sub_one_eq_zero_iff_isPowerOfTwo hne).mp hand

theorem epochLag_bounds : 1 ≤ env.epochLag ∧ env.epochLag ≤ 64 := by
  unfold epochLag seedhashEpochLag
  split
  · split
    · decide
    · rename_i h
      simp only [Bool.or_eq_true, decide_eq_true_eq, Bool.not_eq_true', not_or, Bool.not_eq_false,
        gt_iff_lt] at h
      exact ⟨Nat.pos_of_isPowerOfTwo (isPowerOfTwo_of_isPowerOf2 h.2), UInt32.not_lt.mp h.1⟩
  · decide

/-- The epoch length is a power of two whatever the environment holds. -/
theorem epoch_pow : env.epoch ≤ 2048 ∧ env.epoch.isPowerOfTwo := by
  unfold epoch seedhashEpochBlocks
  split
  · split
    · decide
    · rename_i h
      simp only [Bool.or_eq_true, decide_eq_true_eq, Bool.not_eq_true', not_or, Bool.not_eq_false,
        gt_iff_lt] at h
      exact ⟨UInt32.not_lt.mp h.1.2, isPowerOfTwo_of_isPowerOf2 h.2⟩
  · decide

/-- A mask keeps one part of a word and its complement the other. -/
theorem toNat_and_add_and_not (x m : UInt64) : (x &&& m).toNat + (x &&& ~~~m).toNat = x.toNat := by
  have hdisjoint : x.toBitVec &&& m.toBitVec &&& (x.toBitVec &&& ~~~m.toBitVec) = 0#64 := by
    grind
  have hjoin : x.toBitVec &&& m.toBitVec ||| x.toBitVec &&& ~~~m.toBitVec = x.toBitVec := by
    grind
  have hsum := BitVec.toNat_add_of_and_eq_zero hdisjoint
  rw [BitVec.add_eq_or_of_and_eq_zero _ _ hdisjoint, hjoin] at hsum
  exact hsum.symm

/-- The seed height is the start of the epoch that the block below the lag is in. -/
theorem toNat_rxSeedheight :
    (env.rxSeedheight height).toNat =
    (height.toNat - env.epochLag - 1) / env.epoch * env.epoch := by
  have hlag := env.epochLag_bounds
  rcases env.epoch_pow with ⟨hle, hpow⟩
  rw [rxSeedheight]
  rw [epochLag, ← UInt32.toNat_toUInt64] at hlag ⊢
  rw [epoch, ← UInt32.toNat_toUInt64] at hle hpow ⊢
  generalize env.seedhashEpochLag.toUInt64 = lag at hlag ⊢
  generalize env.seedhashEpochBlocks.toUInt64 = blocks at hle hpow ⊢
  have hpos := Nat.pos_of_isPowerOfTwo hpow
  have hheight := height.toNat_lt
  -- Neither the bound nor the differences wrap.
  split
  · rename_i hlow
    rw [le_iff_toNat_le, UInt64.toNat_add] at hlow
    rw [Nat.div_eq_of_lt (by omega)]
    exact (Nat.zero_mul _).symm
  · rename_i hhigh
    rw [le_iff_toNat_le, UInt64.toNat_add] at hhigh
    have hdiff : (height - lag - 1).toNat = height.toNat - lag.toNat - 1 := by
      rw [UInt64.toNat_sub, UInt64.toNat_sub, UInt64.toNat_one]
      omega
    have hmask : (blocks - 1).toNat = blocks.toNat - 1 := by
      rw [UInt64.toNat_sub, UInt64.toNat_one]
      omega
    have hparts := toNat_and_add_and_not (height - lag - 1) (blocks - 1)
    obtain ⟨k, hk⟩ := hpow
    rw [UInt64.toNat_and, hdiff, hmask, hk, Nat.and_two_pow_sub_one_eq_mod] at hparts
    have hdiv := Nat.div_add_mod' (height.toNat - lag.toNat - 1) (2 ^ k)
    rw [hk]
    omega

/-- The seed block is the genesis block, or at least two below the block it seeds. -/
theorem rxSeedheight_le :
    env.rxSeedheight height = 0 ∨ (env.rxSeedheight height).toNat + 2 ≤ height.toNat := by
  have hlag := env.epochLag_bounds
  have hle := Nat.div_mul_le_self (height.toNat - env.epochLag - 1) env.epoch
  rw [← UInt64.toNat_inj, toNat_rxSeedheight]
  change _ = 0 ∨ _
  omega

/-- The same for a height of the chain, which is taken modulo `2^64`. -/
theorem seedHeight_lt (height : Nat) :
    env.seedHeight height = 0 ∨ env.seedHeight height + 2 ≤ height := by
  rcases env.rxSeedheight_le (ofNat height) with h | h
  · left
    rw [seedHeight, h]
    rfl
  · right
    have hmod : (ofNat height).toNat ≤ height := Nat.mod_le _ _
    exact h.trans hmod

/-- The next seed height is the present one, or the one after it. -/
def NextInTurn : Prop :=
  let (seedheight, nextheight) := env.rxSeedheights height
  nextheight.toNat = seedheight.toNat ∨ nextheight.toNat = seedheight.toNat + env.epoch

/-- Within the lag at most one epoch starts, if it is no longer than an epoch. -/
theorem nextInTurn_of_le (hlag : env.epochLag ≤ env.epoch)
    (hfits : height.toNat + env.epochLag < 2 ^ 64) : env.NextInTurn height := by
  have hpos := Nat.pos_of_isPowerOfTwo env.epoch_pow.2
  have hlater : (height + env.seedhashEpochLag.toUInt64).toNat = height.toNat + env.epochLag := by
    rw [UInt64.toNat_add, UInt32.toNat_toUInt64]
    exact Nat.mod_eq_of_lt hfits
  have hlow : (height.toNat - env.epochLag - 1) / env.epoch ≤ (height.toNat - 1) / env.epoch :=
    Nat.div_le_div_right (by omega)
  have hhigh : (height.toNat - 1) / env.epoch ≤
      (height.toNat - env.epochLag - 1) / env.epoch + 1 := by
    rw [← Nat.add_div_right _ hpos]
    exact Nat.div_le_div_right (by omega)
  simp only [NextInTurn, rxSeedheights, toNat_rxSeedheight, hlater, Nat.add_sub_cancel]
  rcases hlow.eq_or_lt with heq | hlt
  · exact Or.inl (by rw [heq])
  · exact Or.inr (by rw [hhigh.antisymm hlt, Nat.succ_mul])

/-- The seed height is the start of an epoch, does not go down, and is behind by more than the lag
    and by an epoch more at most; the next one is that of the height a lag later. -/
theorem rxSeedheights_spec :
    env.epoch ∣ (env.rxSeedheight height).toNat ∧
      (∀ later, height ≤ later → env.rxSeedheight height ≤ env.rxSeedheight later) ∧
      (env.rxSeedheight height = 0 ∨
        env.epochLag < height.toNat - (env.rxSeedheight height).toNat ∧
          height.toNat - (env.rxSeedheight height).toNat ≤ env.epoch + env.epochLag) ∧
      env.rxSeedheights height =
        (env.rxSeedheight height, env.rxSeedheight (height + env.seedhashEpochLag.toUInt64)) ∧
      (env.epochLag ≤ env.epoch → height.toNat + env.epochLag < 2 ^ 64 →
        env.NextInTurn height) := by
  refine ⟨?_, fun later hle => ?_, ?_, rfl, env.nextInTurn_of_le height⟩
  · rw [toNat_rxSeedheight]
    exact Nat.dvd_mul_left _ _
  · rw [le_iff_toNat_le] at hle
    rw [le_iff_toNat_le, toNat_rxSeedheight, toNat_rxSeedheight]
    exact Nat.mul_le_mul_right _ (Nat.div_le_div_right (by omega))
  · have hdiv := Nat.div_add_mod' (height.toNat - env.epochLag - 1) env.epoch
    have hmod := Nat.mod_lt (height.toNat - env.epochLag - 1)
      (Nat.pos_of_isPowerOfTwo env.epoch_pow.2)
    rw [← UInt64.toNat_inj, toNat_rxSeedheight]
    change _ = 0 ∨ _
    omega

/-- With the defaults the next seed block is known before it is used. -/
theorem rxSeedheights_spec_default :
    rxSeedheights ⟨none, none⟩ 4150 = (2048, 4096) ∧ NextInTurn ⟨none, none⟩ 4150 :=
  ⟨by decide, (rxSeedheights_spec ⟨none, none⟩ 4150).2.2.2.2 (by decide) (by decide)⟩

/-- An epoch shorter than the lag is skipped, and at the last height the sum wraps. -/
theorem rxSeedheights_leaps :
    ¬ NextInTurn ⟨none, some 2⟩ 100 ∧ ¬ NextInTurn ⟨none, none⟩ 0xffffffffffffffff := by
  unfold NextInTurn
  decide

end SeedEnv

namespace Blockchain

variable {E : Externals} {s : Blockchain} {alt : List BlockExtendedInfo} {split : Nat}

/-- On a side chain the entry at a height is found at its place. -/
theorem Attached.find?_height (h : Attached E s alt split) (i : Nat) (hi : i < alt.length) :
    alt.find? (fun bei => bei.height = split + i) = some alt[i] := by
  rw [find?_eq_some_iff_getElem]
  refine ⟨by simpa using h.height_getElem i hi, i, hi, rfl, ?_⟩
  intro j hj
  have hheight := h.height_getElem j (hj.trans hi)
  simp only [Bool.not_eq_true', decide_eq_false_iff_not]
  omega

/-- The seed hash a side chain selects is the id of the ancestor at the seed height. -/
theorem altSeedHash_eq (h : Attached E s alt split) : s.altSeedHash E alt (split + alt.length) =
      ((ancestors E s alt split)[E.seedEnv.seedHeight (split + alt.length)]?).getD nullHash := by
  have hpos := h.pos
  have hseed := E.seedEnv.seedHeight_lt (split + alt.length)
  simp only [altSeedHash]
  set seedheight := E.seedEnv.seedHeight (split + alt.length)
  by_cases hin : split ≤ seedheight ∧ alt ≠ []
  · -- The seed block is on the side chain, and so is the block above it.
    obtain ⟨hle, hne⟩ := hin
    obtain ⟨front, rest, rfl⟩ := exists_cons_of_ne_nil hne
    have hfront : front.height = split := (h.front front rfl).1
    have hi : seedheight + 1 - split < (front :: rest).length := by
      omega
    have hfind := h.find?_height _ hi
    have hparent := h.ancestors_prevId _ hi
    rw [show split + (seedheight + 1 - split) = seedheight + 1 by omega] at hfind hparent
    rw [Nat.add_sub_cancel] at hparent
    rw [if_pos (by simp [hfront, hle]), hfind, hparent]
    rfl
  · -- It is below the split, on the main chain.
    have hlt : seedheight < split := by
      by_contra hge
      have hnil : alt = [] := by
        by_contra hne
        exact hin ⟨by omega, hne⟩
      rw [hnil, length_nil] at hseed
      omega
    have hnot : alt.head?.any (fun front => front.height ≤ seedheight) = false := by
      cases alt with
      | nil => rfl
      | cons front rest =>
        have hfront := (h.front front rfl).1
        simp only [head?_cons, Option.any_some, decide_eq_false_iff_not]
        omega
    rw [if_neg (by rw [hnot]; exact Bool.false_ne_true), h.getElem?_ancestors_main hlt]
    rfl

/-- On the main chain a seed below the new block comes from the database. -/
theorem pendingBlockIdByHeight_eq (m : Blockchain) {k : Nat} (hk : k < m.height)
    (hprep : m.prepareHeight = 0 ∨ m.height ≤ m.prepareHeight) :
    m.pendingBlockIdByHeight k = m.db.blockIdByHeight k := by
  unfold pendingBlockIdByHeight
  rw [if_neg]
  rintro ⟨hne, hle, -⟩
  omega

/-- The work hash of the main chain and of a side chain with the same ancestors are the RandomX
    hash of the block under the ancestor at the seed height, exactly when the block is not at
    height 202612. There the main chain takes a constant, and the two agree only if RandomX
    happens to give that constant. -/
theorem proofOfWork_agrees_iff (E : Externals) (m s : Blockchain) (b : Block) (id : Hash)
    (alt : List BlockExtendedInfo) (timestamps : List UInt64) (hstore : StoreOk E s.db)
    (hbuild : s.buildAltChain b.prevId = some (alt, timestamps))
    (hsame : m.db.ids = ancestors E s alt (s.splitHeight alt b.prevId))
    (hprep : m.prepareHeight = 0 ∨ m.height ≤ m.prepareHeight)
    (htable : m.blocksLonghashTable.lookup id = none)
    (hversion : b.majorVersion ≥ rxBlockVersion) :
    let h := (s.altParent alt b.prevId).1 + 1
    let rx := E.rxSlowHash (m.db.blockIdByHeight (E.seedEnv.seedHeight h)) (E.hashingBlob b)
    (m.proofOfWork E b id = s.altProofOfWork E alt b h ∧ s.altProofOfWork E alt b h = rx) ↔
      h ≠ 202612 ∨ rx = longhash202612 := by
  intro h rx
  have hatt := buildAltChain_attached hstore hbuild
  have hh : h = s.splitHeight alt b.prevId + alt.length := altParent_height hatt
  have hheight : m.height = h := by
    rw [hh, ← hatt.length_ancestors, ← hsame, Attached.ids_length]
  have hseed : E.seedEnv.seedHeight h < m.height := by
    have hlt := E.seedEnv.seedHeight_lt h
    omega
  -- The side chain always computes RandomX, under the right seed.
  have halt : s.altProofOfWork E alt b h = rx := by
    unfold altProofOfWork
    rw [if_pos hversion, getAltblockLonghash, hh, altSeedHash_eq hatt, ← hsame, ← hh]
    rfl
  -- The main chain does so at every other height.
  have hmain : m.proofOfWork E b id = if h = 202612 then longhash202612 else rx := by
    unfold proofOfWork
    rw [htable, Option.getD_none, hheight]
    simp only [getBlockLonghash]
    rw [if_pos hversion, Option.getD_none, pendingBlockIdByHeight_eq m hseed hprep]
  rw [hmain, halt]
  split
  · rename_i hbug
    simp [hbug, eq_comm]
  · rename_i hother
    simp [hother]

theorem storeOk_of_entries {E : Externals} {db : BlockchainDB}
    (h : ∀ e ∈ db.altBlocks.entries, E.blockHash e.2.bl = e.1 ∧
      ∀ parent ∈ db.altBlocks.lookup e.2.bl.prevId, e.2.height = parent.height + 1) :
    StoreOk E db :=
  ⟨fun _ _ hlookup => (h _ (AList.mem_lookup_iff.mp hlookup)).1,
    fun _ _ parent hlookup => (h _ (AList.mem_lookup_iff.mp hlookup)).2 parent⟩

/-- A block on two side blocks, and on the chain that they end. -/
theorem proofOfWork_agrees_forked : let last := forkBlock 4 4 3 100
    let m := sideNode last
    let s := forkedNode last
    let b := forkBlock 5 5 4 100
    m.proofOfWork .sample b 6 = s.altProofOfWork .sample (forkedSide last) b 4 ∧
      s.altProofOfWork .sample (forkedSide last) b 4 = 0 := by
  intro last m s b
  have hiff := proofOfWork_agrees_iff .sample m s b 6 (forkedSide last) [100, 100, 100]
    (storeOk_of_entries (by decide +kernel)) (by decide +kernel) (by decide +kernel)
    (Or.inl (by decide +kernel)) (by decide +kernel) (by decide)
  exact hiff.mpr (Or.inl (by decide))

/-! ## A chain of any length -/

/-- A chain of `n` blocks in which block `i` has id `i + 1`. -/
def ramp (n : Nat) (hn : n < 2 ^ 256) : BlockchainDB where
  blocks := (range n).map fun i =>
    { block := ⟨12, 12, 0, BitVec.ofNat 256 i, 0, {}, []⟩, hash := BitVec.ofNat 256 (i + 1)
      minerTxHash := 0, txs := [], weight := 0, longTermWeight := 0, cumulativeDifficulty := 0
      coins := 0 }
  hfVersions := fun _ => none
  altBlocks := ∅
  ids_nodup := by
    rw [map_map]
    refine List.Nodup.map_on ?_ nodup_range
    intro i hi j hj hij
    have hi' := mem_range.mp hi
    have hj' := mem_range.mp hj
    have heq := congrArg BitVec.toNat hij
    simp only [Function.comp_apply, BitVec.toNat_ofNat] at heq
    rw [Nat.mod_eq_of_lt (by omega), Nat.mod_eq_of_lt (by omega)] at heq
    omega
  linked := by
    rw [isChain_iff_getElem]
    intro i hi
    simp only [getElem_map, getElem_range]

theorem ramp_ids (n : Nat) (hn : n < 2 ^ 256) :
    (ramp n hn).ids = (range n).map fun i => BitVec.ofNat 256 (i + 1) := by
  rw [BlockchainDB.ids, ramp, map_map]
  rfl

theorem ramp_blockHeight? (n k : Nat) (hn : n < 2 ^ 256) (hk : k < n) :
    (ramp n hn).blockHeight? (BitVec.ofNat 256 (k + 1)) = some k := by
  have hlen : k < ((range n).map fun i => BitVec.ofNat 256 (i + 1)).length := by
    rwa [length_map, length_range]
  rw [BlockchainDB.blockHeight?, ramp_ids, findIdx?_eq_some_iff_getElem]
  refine ⟨hlen, ?_, ?_⟩
  · simp only [getElem_map, getElem_range, decide_true]
  · intro j hj heq
    simp only [getElem_map, getElem_range, decide_eq_true_eq] at heq
    have hnat := congrArg BitVec.toNat heq
    simp only [BitVec.toNat_ofNat] at hnat
    omega

/-- A node whose main chain is a ramp, and the next block under one of its blocks. -/
def rampNode (n : Nat) (hn : n < 2 ^ 256) : Blockchain :=
  start (ramp n hn) .mainnet

theorem rampNode_height (n : Nat) (hn : n < 2 ^ 256) : (rampNode n hn).height = n := by
  change ((range n).map _).length = n
  rw [length_map, length_range]

def rampBlock (k : Nat) (nonce : UInt32) : Block :=
  ⟨12, 12, 0, BitVec.ofNat 256 (k + 1), nonce, {}, []⟩

/-- A block under block `k` of a ramp: the side chain is empty, and the ancestors are the
    blocks of the shorter ramp. -/
theorem rampNode_side (n k : Nat) (hn : n < 2 ^ 256) (hk : k < n) (nonce : UInt32) :
    StoreOk .sample (rampNode n hn).db ∧ (∃ timestamps,
        (rampNode n hn).buildAltChain (rampBlock k nonce).prevId = some ([], timestamps)) ∧
      ((rampNode n hn).altParent [] (rampBlock k nonce).prevId).1 = k ∧
      (rampNode (k + 1) (by omega)).db.ids = ancestors .sample (rampNode n hn) []
        ((rampNode n hn).splitHeight [] (rampBlock k nonce).prevId) := by
  have hparent : (rampNode n hn).db.blockHeight? (rampBlock k nonce).prevId = some k :=
    ramp_blockHeight? n k hn hk
  refine ⟨⟨?_, ?_⟩, ?_, ?_, ?_⟩
  · intro id bei h
    cases h
  · intro id bei parent h
    cases h
  · simp only [buildAltChain]
    rw [hparent]
    exact ⟨_, rfl⟩
  · simp only [altParent, getLast?_nil, hparent, Option.getD_some]
  · rw [splitHeight, hparent, ancestors, map_nil, append_nil]
    change (ramp (k + 1) (by omega)).ids = ((ramp n hn).ids.take (k + 1))
    rw [ramp_ids, ramp_ids, ← map_take, take_range, Nat.min_eq_left hk]

/-- At height 202612 the two paths check different hashes, and the main chain's is the same for
    every block. -/
theorem proofOfWork_ne_at_202612 :
    ∃ (E : Externals) (m s : Blockchain) (b : Block) (alt : List BlockExtendedInfo)
      (timestamps : List UInt64),
      StoreOk E s.db ∧ s.buildAltChain b.prevId = some (alt, timestamps) ∧
        m.db.ids = ancestors E s alt (s.splitHeight alt b.prevId) ∧ m.prepareHeight = 0 ∧
        b.majorVersion ≥ rxBlockVersion ∧ (s.altParent alt b.prevId).1 + 1 = 202612 ∧
        m.proofOfWork E b (E.blockHash b) ≠ s.altProofOfWork E alt b 202612 ∧
        ∀ (b' : Block) (id : Hash), m.proofOfWork E b' id = longhash202612 := by
  have hlt : 202613 < 2 ^ 256 := by decide
  obtain ⟨hstore, ⟨timestamps, hbuild⟩, hparent, hsame⟩ :=
    rampNode_side 202613 202611 hlt (by decide) 7
  have hmain : ∀ (b' : Block) (id : Hash),
      (rampNode 202612 (by decide)).proofOfWork .sample b' id = longhash202612 := by
    intro b' id
    simp only [proofOfWork, getBlockLonghash, rampNode_height, if_true]
    rfl
  refine ⟨.sample, rampNode 202612 (by decide), rampNode 202613 hlt, rampBlock 202611 7, [],
    timestamps, hstore, hbuild, hsame, rfl, by decide, ?_, ?_, hmain⟩
  · rw [hparent]
  · rw [hmain, altProofOfWork, if_pos (by decide)]
    change longhash202612 ≠ 0
    decide

end Blockchain

end CocaineNode
