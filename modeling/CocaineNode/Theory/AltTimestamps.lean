import CocaineNode.Theory.LongTermMedian
import CocaineNode.Theory.Reorg

/-!
# Timestamps on Side Chains

A block may not be older than the median of the 60 blocks below it. On the main
chain `check_block_timestamp` reads them from the database. On a side chain
`build_alt_chain` collects them while it walks down, first the blocks of the
side chain and then, in `complete_timestamps_vector`, as many of the main chain
as are missing.

The two lists are the last 60 timestamps of the same chain as long as the chain
has more than 60 blocks and the side chain no more than 60. They differ in three
cases. A chain with fewer than 60 blocks is not checked on the main chain. On a
chain of just 60 the side chain check leaves out the genesis block. And a side
chain of more than 60 blocks has all of its timestamps collected.
`altTimestamp_iff` says what the block's timestamp must be in these cases for
the two checks to agree.

## Theorems

* `Blockchain.buildAltChain_timestamps`: The timestamps that are collected.
* `Blockchain.altTimestamp_iff`: When the two checks agree.
-/

namespace CocaineNode

open List

namespace Blockchain

/-- The median does not depend on the order. -/
theorem median_perm {xs ys : List UInt64} (h : xs.Perm ys) : median xs = median ys := by
  have hsorted : xs.insertionSort (· ≤ ·) = ys.insertionSort (· ≤ ·) :=
    (((perm_insertionSort _ xs).trans h).trans
      (perm_insertionSort _ ys).symm).eq_of_pairwise'
      (pairwise_insertionSort _ xs) (pairwise_insertionSort _ ys)
  have hlen := h.length_eq
  rcases xs with _ | ⟨x, _ | ⟨x', xs⟩⟩
  · rw [h.nil_eq]
  · rw [perm_singleton.mp h.symm]
  · rcases ys with _ | ⟨y, _ | ⟨y', ys⟩⟩
    · cases hlen
    · cases hlen
    · unfold median Epee.median
      simp only [hsorted, hlen]

/-- The timestamps of the blocks below the next one on a side chain, by height. -/
def chainTimestamps (s : Blockchain) (alt : List BlockExtendedInfo) (split : Nat) : List UInt64 :=
  (s.db.blocks.take split).map (fun b => b.block.timestamp) ++ alt.map fun bei => bei.bl.timestamp

/-- What is collected of them, for a side chain of `altLength` blocks. -/
def collectedTimestamps (timestamps : List UInt64) (altLength : Nat) : List UInt64 :=
  if 60 ≤ altLength then timestamps.drop (timestamps.length - altLength)
  else timestamps.drop (max 1 (timestamps.length - 60))

section

variable {s : Blockchain} (alt : List BlockExtendedInfo) {split : Nat}

theorem length_chainTimestamps (hle : split ≤ s.height) :
    (s.chainTimestamps alt split).length = split + alt.length := by
  rw [chainTimestamps, length_append, length_map, length_map, length_take]
  change min split s.height + _ = _
  omega

/-- Completing the timestamps of a side chain from the main chain. -/
theorem completeTimestampsVector_eq (hpos : 0 < split) (hle : split ≤ s.height) :
    s.completeTimestampsVector (split - 1) (alt.map fun bei => bei.bl.timestamp).reverse =
      (collectedTimestamps (s.chainTimestamps alt split) alt.length).reverse := by
  have hlen := length_chainTimestamps alt hle
  have hmain : ((s.db.blocks.take split).map fun b => b.block.timestamp).length = split := by
    rw [length_map, length_take]
    exact Nat.min_eq_left hle
  unfold completeTimestampsVector collectedTimestamps
  rw [length_reverse, length_map]
  by_cases hlong : 60 ≤ alt.length
  · rw [if_pos (Or.inl hlong), if_pos hlong, hlen, Nat.add_sub_cancel, chainTimestamps,
      drop_left' hmain]
  · -- The main chain is read from its block below the split down to the first that is missing.
    have hread : split - 1 - (60 - alt.length) + 1 = max 1 (split + alt.length - 60) := by omega
    rw [if_neg (by omega), if_neg hlong, hlen, chainTimestamps,
      drop_append_of_le_length (by omega), reverse_append, ← map_drop]
    simp only [hread]
    rw [Nat.sub_add_cancel hpos]

end

/-- The timestamps that are collected are the last ones of the chain, from the top down. -/
theorem buildAltChain_timestamps {s : Blockchain} {prevId : Hash} {alt : List BlockExtendedInfo}
    {timestamps : List UInt64} (h : s.buildAltChain prevId = some (alt, timestamps)) :
    0 < s.splitHeight alt prevId ∧ s.splitHeight alt prevId ≤ s.height ∧ timestamps =
        (collectedTimestamps (s.chainTimestamps alt (s.splitHeight alt prevId))
          alt.length).reverse := by
  obtain ⟨-, hpos, hle, -, htimestamps⟩ := buildAltChain_some h
  exact ⟨hpos, hle, htimestamps.trans (completeTimestampsVector_eq alt hpos hle)⟩

/-! ## The two checks -/

/-- A value that one of two lower bounds lets pass and the other does not. -/
def Between (a b t : UInt64) : Prop :=
  a ≤ t ∧ t < b ∨ b ≤ t ∧ t < a

theorem le_iff_le_iff (a b t : UInt64) : (a ≤ t ↔ b ≤ t) ↔ ¬ Between a b t := by
  unfold Between
  by_cases ha : a ≤ t
  · by_cases hb : b ≤ t
    · simp [ha, hb]
    · simp [ha, hb]
  · by_cases hb : b ≤ t
    · simp [ha, hb]
    · simp [ha, hb]

/-- What the timestamp of the next block has to be for the two checks to agree. On a chain of fewer
    than 60 blocks it must not be below the median of those above genesis. On a chain of 60 it must
    not be between the medians with and without genesis. Above that nothing is needed up to 60
    blocks of side chain; with more, it must not be between the median of all of them and that of
    the last 60. -/
def TimestampsAgree (timestamps : List UInt64) (altLength : Nat) (t : UInt64) : Prop :=
  if timestamps.length < 60 then median timestamps.tail ≤ t
  else if timestamps.length = 60 then ¬ Between (median timestamps.tail) (median timestamps) t
  else altLength ≤ 60 ∨ ¬ Between (median (timestamps.drop (timestamps.length - altLength)))
      (median (timestamps.drop (timestamps.length - 60))) t

/-- The lower bound of `check_block_timestamp`, for a block that is not too far ahead. -/
theorem checkBlockTimestamp_iff {m : Blockchain} {b : Block} {now : UInt64}
    (hnow : b.timestamp ≤ now + 7200) {timestamps : List UInt64}
    (hts : m.db.blocks.map (fun b => b.block.timestamp) = timestamps) :
    m.checkBlockTimestamp b now = true ↔ timestamps.length < 60 ∨
        median (timestamps.drop (timestamps.length - 60)) ≤ b.timestamp := by
  have hlen : m.height = timestamps.length := by
    rw [← hts, length_map]
    rfl
  unfold checkBlockTimestamp notBeforeMedian
  rw [if_neg (UInt64.not_lt.mpr hnow), hlen]
  split_ifs with hshort
  · exact iff_of_true rfl (Or.inl hshort)
  · rw [or_iff_right hshort, map_drop, hts, decide_eq_true_iff]

/-- A block passes the check for side chains exactly when it passes the one on a node that has the
    side chain as its main chain, if and only if its timestamp is as `TimestampsAgree` says. -/
theorem altTimestamp_iff {s m : Blockchain} {b : Block} {alt : List BlockExtendedInfo}
    {timestamps : List UInt64} {now : UInt64}
    (hbuild : s.buildAltChain b.prevId = some (alt, timestamps))
    (hsame : m.db.blocks.map StoredBlock.block =
      (s.db.blocks.take (s.splitHeight alt b.prevId)).map StoredBlock.block ++
        alt.map BlockExtendedInfo.bl)
    (hnow : b.timestamp ≤ now + 7200) :
    (notBeforeMedian timestamps b = true ↔ m.checkBlockTimestamp b now = true) ↔
      TimestampsAgree (m.db.blocks.map fun b => b.block.timestamp) alt.length b.timestamp := by
  rcases buildAltChain_timestamps hbuild with ⟨hpos, hle, htimestamps⟩
  have hchain : m.db.blocks.map (fun b => b.block.timestamp) =
      s.chainTimestamps alt (s.splitHeight alt b.prevId) := by
    have hmap := congrArg (map Block.timestamp) hsame
    rw [map_append, map_map, map_map, map_map] at hmap
    exact hmap
  have hlen := length_chainTimestamps alt hle
  have hmedian : notBeforeMedian timestamps b = true ↔
      median (collectedTimestamps (s.chainTimestamps alt (s.splitHeight alt b.prevId)) alt.length) ≤
        b.timestamp := by
    rw [htimestamps, notBeforeMedian, decide_eq_true_iff, median_perm (reverse_perm _)]
  rw [checkBlockTimestamp_iff hnow hchain, hmedian, hchain]
  set ts := s.chainTimestamps alt (s.splitHeight alt b.prevId)
  unfold TimestampsAgree collectedTimestamps
  by_cases hshort : ts.length < 60
  · rw [if_pos hshort, if_neg (by omega), show max 1 (ts.length - 60) = 1 by omega, drop_one]
    simp [hshort]
  rw [if_neg hshort, or_iff_right hshort]
  by_cases hexact : ts.length = 60
  · rw [if_pos hexact, if_neg (by omega), show max 1 (ts.length - 60) = 1 by omega, drop_one,
      hexact, Nat.sub_self, drop_zero, le_iff_le_iff]
  rw [if_neg hexact]
  split_ifs with hlong
  · rw [le_iff_le_iff]
    constructor
    · exact Or.inr
    · intro hagree
      rcases hagree with hsixty | hnot
      · rw [show alt.length = 60 by omega, ← le_iff_le_iff]
      · exact hnot
  · rw [show max 1 (ts.length - 60) = ts.length - 60 by omega]
    exact iff_of_true Iff.rfl (Or.inl (by omega))

/-- A block on two side blocks, and on the chain that they end. -/
theorem altTimestamp_iff_forked : let last := forkBlock 4 4 3 100
    let b := forkBlock 5 5 4 150
    (forkedNode last).buildAltChain b.prevId = some (forkedSide last, [100, 100, 100]) ∧
      (notBeforeMedian [100, 100, 100] b = true ↔
        (sideNode last).checkBlockTimestamp b 1000 = true) := by
  intro last b
  have hbuild : (forkedNode last).buildAltChain b.prevId =
      some (forkedSide last, [100, 100, 100]) := by decide +kernel
  refine ⟨hbuild, (altTimestamp_iff hbuild (by decide +kernel) (by decide)).mpr ?_⟩
  rw [TimestampsAgree, if_pos (by decide +kernel)]
  decide +kernel

/-! ## A short chain -/

/-- Block `i` of a chain, with a timestamp. -/
def stampedBlock (i : Nat) (timestamp : UInt64) : StoredBlock where
  block := ⟨12, 12, timestamp, BitVec.ofNat 256 i, 0, {}, []⟩
  hash := BitVec.ofNat 256 (i + 1)
  minerTxHash := 0
  txs := []
  weight := 0
  longTermWeight := 0
  cumulativeDifficulty := 0
  coins := 0

/-- The genesis block and a block at time 100. -/
def twoStamped : BlockchainDB where
  blocks := [stampedBlock 0 0, stampedBlock 1 100]
  hfVersions := fun _ => none
  altBlocks := ∅
  ids_nodup := by decide
  linked := isChain_pair.mpr rfl

/-- With a third block on top. -/
def threeStamped : BlockchainDB where
  blocks := [stampedBlock 0 0, stampedBlock 1 100, stampedBlock 2 200]
  hfVersions := fun _ => none
  altBlocks := ∅
  ids_nodup := by decide
  linked := isChain_cons_cons.mpr ⟨rfl, isChain_pair.mpr rfl⟩

/-- A block at time 50 next to the third one. As a block of a side chain it is below the median,
    which is 100. On a chain of two blocks it is not checked. -/
theorem short_chain_disagrees :
    (start threeStamped .mainnet).buildAltChain (stampedBlock 2 50).block.prevId =
        some ([], [100]) ∧
      (start twoStamped .mainnet).db.blocks = (start threeStamped .mainnet).db.blocks.take 2 ∧
      notBeforeMedian [100] (stampedBlock 2 50).block = false ∧
      (start twoStamped .mainnet).checkBlockTimestamp (stampedBlock 2 50).block 1000 = true :=
  ⟨rfl, rfl, by decide, by decide⟩

end Blockchain

end CocaineNode
