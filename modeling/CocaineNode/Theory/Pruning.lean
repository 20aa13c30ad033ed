import CocaineNode.Core.Pruning
import CocaineNode.Lib.Stripes

/-!
# The Next Block a Pruned Node Keeps

A pruned node keeps a block when the block is at the tip of the chain or in the
node's stripe. `has_unpruned_block` tests this for one height.
`get_next_unpruned_block_height` computes a height, from the run of blocks the
given height is in and the number of rounds before it. In the natural numbers
the first is membership in a union of two sets, and the second is the smaller
of their least elements. `getNextUnprunedBlockHeight_least` puts the two
together.

Both functions work in machine words. None of their sums wraps below the limit
that `get_next_unpruned_block_height` sets on its arguments.

## Theorems

* `Pruning.getNextUnprunedBlockHeight_toNat`: The height, in the natural numbers.
* `Pruning.getNextUnprunedBlockHeight_least`: It is the least one.
* `Pruning.getNextPrunedBlockHeight_least_iff`: When the next pruned one is.
* `Pruning.hasUnprunedBlock_unique`: Every block below the tip is in one stripe.
-/

namespace CocaineNode

namespace Pruning

open Stripes UInt64 Nat

/-! ## Seeds -/

/-- The number of stripes of a seed, as a power of two, and its stripe counted from 0. -/
structure Seed (seed : UInt32) (log s : Nat) : Prop where
  log_pos : 0 < log
  log_le : log ≤ 7
  stripe_lt : s < 2 ^ log
  logStripes : (getPruningLogStripes seed).toNat = log
  stripe : (getPruningStripe seed).toNat = s + 1

theorem Seed.one_lt {seed : UInt32} {log s : Nat} (h : Seed seed log s) : 1 < 2 ^ log :=
  Nat.one_lt_two_pow h.log_pos.ne'

theorem pow_log_le {log : Nat} (h : log ≤ 7) : 2 ^ log ≤ 128 :=
  Nat.pow_le_pow_right (by decide) h

/-- A power of two as the code writes it. -/
theorem toNat_shift (a log : UInt64) (hlog : log.toNat ≤ 7) (ha : a.toNat ≤ 4096) :
    (a <<< log).toNat = a.toNat * 2 ^ log.toNat := by
  have hsmall : a.toNat * 2 ^ log.toNat ≤ 4096 * 128 := Nat.mul_le_mul ha (pow_log_le hlog)
  rw [UInt64.toNat_shiftLeft, mod_eq_of_lt (show log.toNat < 64 by omega), shiftLeft_eq]
  exact mod_eq_of_lt (by omega)

theorem toNat_mask (log : UInt64) (hlog : log.toNat ≤ 7) :
    ((1 : UInt64) <<< log - 1).toNat = 2 ^ log.toNat - 1 := by
  have hpow : ((1 : UInt64) <<< log).toNat = 2 ^ log.toNat := by
    rw [toNat_shift 1 log hlog (by decide)]
    exact one_mul _
  have hone : (1 : UInt64) ≤ 1 <<< log := by
    rw [UInt64.le_iff_toNat_le, hpow]
    exact Nat.one_le_two_pow
  rw [UInt64.toNat_sub_of_le _ _ hone, hpow]
  rfl

/-- The two parts of a seed do not overlap. -/
theorem packed_parts : ∀ log < 8, ∀ s < 128,
    let seed := (UInt32.ofNat log <<< seedLogStripesShift) ||| (UInt32.ofNat s <<< seedStripeShift)
    (getPruningLogStripes seed).toNat = log ∧
    (0 < log → (getPruningStripe seed).toNat = s + 1) := by
  decide +kernel

/-- What `make_pruning_seed` packs can be unpacked. -/
theorem seed_of_make {stripe logStripes seed : UInt32}
    (hseed : makePruningSeed stripe logStripes = some seed) (hlog : 1 ≤ logStripes) :
    Seed seed logStripes.toNat (stripe.toNat - 1) := by
  unfold makePruningSeed at hseed
  split_ifs at hseed with hbig hrange
  cases hseed
  have hlog_pos : 0 < logStripes.toNat := UInt32.le_iff_toNat_le.mp hlog
  have hlog_le : logStripes.toNat ≤ 7 := by
    have hle := UInt32.le_iff_toNat_le.mp (UInt32.not_lt.mp hbig)
    exact hle
  have hstripe_pos : 0 < stripe.toNat := by
    refine Nat.pos_of_ne_zero fun hzero => hrange (Or.inl ?_)
    exact UInt32.toNat_inj.mp hzero
  have hstripe_le : stripe.toNat ≤ 2 ^ logStripes.toNat := by
    have hle := UInt64.le_iff_toNat_le.mp (UInt64.not_lt.mp (not_or.mp hrange).2)
    rw [toNat_shift 1 _ (by simpa using hlog_le) (by decide)] at hle
    simpa using hle
  have hbound := pow_log_le hlog_le
  have hminus : (stripe - 1).toNat = stripe.toNat - 1 :=
    UInt32.toNat_sub_of_le _ _ (UInt32.le_iff_toNat_le.mpr hstripe_pos)
  have hparts := packed_parts _ (lt_succ_of_le hlog_le) _ (show (stripe - 1).toNat < 128 by omega)
  rw [UInt32.ofNat_toNat, UInt32.ofNat_toNat] at hparts
  rw [← hminus]
  exact ⟨hlog_pos, hlog_le, by omega, hparts.1, hparts.2 hlog_pos⟩

theorem makePruningSeed_some (stripe : UInt32) {logStripes : UInt32} (hlog : logStripes.toNat ≤ 7)
    (hpos : 0 < stripe.toNat) (hle : stripe.toNat ≤ 2 ^ logStripes.toNat) :
    ∃ seed, makePruningSeed stripe logStripes = some seed := by
  have hbig : ¬ logStripes > seedLogStripesMask :=
    UInt32.not_lt.mpr (UInt32.le_iff_toNat_le.mpr hlog)
  have hrange : ¬ (stripe = 0 ∨ stripe.toUInt64 > 1 <<< logStripes.toUInt64) := by
    rintro (rfl | hgt)
    · exact lt_irrefl 0 hpos
    · rw [gt_iff_lt, lt_iff_toNat_lt, toNat_shift 1 _ (by simpa using hlog) (by decide)] at hgt
      have hgt' : 1 * 2 ^ logStripes.toNat < stripe.toNat := by simpa using hgt
      omega
  rw [makePruningSeed, if_neg hbig, if_neg hrange]
  exact ⟨_, rfl⟩

/-! ## The blocks a node keeps -/

/-- The stripe of a block as the two functions compute it, counted from 1. -/
theorem toNat_blockStripe (x log : UInt64) (hlog : log.toNat ≤ 7) :
    (((x / pruningStripeSize) &&& ((1 : UInt64) <<< log - 1)) + 1).toUInt32.toNat =
      stripe 4096 (2 ^ log.toNat) x.toNat + 1 := by
  have hbound := pow_log_le hlog
  rw [UInt64.toNat_toUInt32, UInt64.toNat_add, UInt64.toNat_and, toNat_mask log hlog,
    Nat.and_two_pow_sub_one_eq_mod, UInt64.toNat_div]
  change ((x.toNat / 4096 % _ + 1) % 2 ^ 64) % 2 ^ 32 = _
  unfold stripe
  omega

section

variable {seed : UInt32} {log s : Nat}

theorem Seed.stripe_ne (hs : Seed seed log s) : getPruningStripe seed ≠ 0 := by
  intro hzero
  have hstripe := hs.stripe
  rw [hzero] at hstripe
  cases hstripe

theorem Seed.log_ne (hs : Seed seed log s) : getPruningLogStripes seed ≠ 0 := by
  intro hzero
  have hpos := hs.log_pos
  rw [← hs.logStripes, hzero] at hpos
  exact lt_irrefl 0 hpos

theorem toNat_tip (x : UInt64) : (x + pruningTipBlocks).toNat = (x.toNat + 5500) % 2 ^ 64 := by
  have htip : pruningTipBlocks.toNat = 5500 := rfl
  rw [UInt64.toNat_add, htip]

theorem tip_iff {h H : UInt64} (hsmall : h ≤ maxBlockNumber + 1) :
    h + pruningTipBlocks ≥ H ↔ H.toNat ≤ h.toNat + 5500 := by
  have hheight : h.toNat ≤ 500000001 := le_iff_toNat_le.mp hsmall
  rw [ge_iff_le, le_iff_toNat_le, toNat_tip]
  omega

theorem toNat_getBlockPruningStripe (hs : Seed seed log s) (x H : UInt64) :
    (getBlockPruningStripe x H (getPruningLogStripes seed)).toNat =
      if H.toNat ≤ (x.toNat + 5500) % 2 ^ 64 then 0 else stripe 4096 (2 ^ log) x.toNat + 1 := by
  have hlog : (getPruningLogStripes seed).toUInt64.toNat = log := hs.logStripes
  have hblock := toNat_blockStripe x _ (hlog.trans_le hs.log_le)
  unfold getBlockPruningStripe
  simp only [ge_iff_le, le_iff_toNat_le, toNat_tip]
  split
  · rfl
  · rw [hblock, hlog]

/-- A node keeps the blocks at the tip and those of its stripe. -/
theorem hasUnprunedBlock_iff (hs : Seed seed log s) (x H : UInt64) :
    hasUnprunedBlock x H seed = true ↔
      H.toNat ≤ (x.toNat + 5500) % 2 ^ 64 ∨ stripe 4096 (2 ^ log) x.toNat = s := by
  simp only [hasUnprunedBlock, if_neg hs.stripe_ne]
  rw [Bool.or_eq_true, decide_eq_true_iff, decide_eq_true_iff, ← UInt32.toNat_inj,
    ← UInt32.toNat_inj, toNat_getBlockPruningStripe hs, hs.stripe]
  split
  · rename_i htip
    exact iff_of_true (Or.inl rfl) (Or.inl htip)
  · rename_i htip
    have hzero : stripe 4096 (2 ^ log) x.toNat + 1 ≠ (0 : UInt32).toNat := succ_ne_zero _
    rw [or_iff_right hzero, or_iff_right htip, add_right_cancel_iff]

/-! ## The next one -/

variable (hs : Seed seed log s)
include hs

theorem nextRun_small (q : Nat) : nextRun (2 ^ log) s q ≤ q + 256 := by
  have hbound := pow_log_le hs.log_le
  have hlt := hs.stripe_lt
  have hle := div_mul_le_self q (2 ^ log)
  unfold nextRun
  split
  · rw [add_zero]
    omega
  · rw [Nat.add_mul, Nat.one_mul]
    omega

/-- The start of the next run of the stripe as the code computes it, which does not wrap. -/
theorem toNat_nextRun (h : UInt64) (hsmall : h ≤ maxBlockNumber + 1) (offset : UInt64)
    (hoffset : offset.toNat = if h.toNat / 4096 % 2 ^ log < s then 0 else 1) :
    (((h / pruningStripeSize) >>> (getPruningLogStripes seed).toUInt64 + offset) *
          (pruningStripeSize <<< (getPruningLogStripes seed).toUInt64) +
        ((getPruningStripe seed - 1) * pruningStripeSize.toUInt32).toUInt64).toNat =
      nextRun (2 ^ log) s (h.toNat / 4096) * 4096 := by
  have hlog : (getPruningLogStripes seed).toUInt64.toNat = log := hs.logStripes
  have hlog_le := hs.log_le
  have hbound := pow_log_le hs.log_le
  have hheight : h.toNat ≤ 500000001 := UInt64.le_iff_toNat_le.mp hsmall
  have hrun := nextRun_small hs (h.toNat / 4096)
  have hstripe : ((getPruningStripe seed - 1) * pruningStripeSize.toUInt32).toUInt64.toNat =
      s * 4096 := by
    have hone : (1 : UInt32) ≤ getPruningStripe seed := by
      rw [UInt32.le_iff_toNat_le, hs.stripe]
      exact le_add_left 1 s
    rw [UInt32.toNat_toUInt64, UInt32.toNat_mul, UInt32.toNat_sub_of_le _ _ hone, hs.stripe]
    change (s + 1 - 1) * 4096 % 2 ^ 32 = _
    have hlt := hs.stripe_lt
    omega
  have hcycles : ((h / pruningStripeSize) >>> (getPruningLogStripes seed).toUInt64).toNat =
      h.toNat / 4096 / 2 ^ log := by
    rw [UInt64.toNat_shiftRight, hlog, mod_eq_of_lt (show log < 64 by omega),
      shiftRight_eq_div_pow, UInt64.toNat_div]
    rfl
  have hround : (pruningStripeSize <<< (getPruningLogStripes seed).toUInt64).toNat =
      4096 * 2 ^ log := by
    rw [toNat_shift _ _ (hlog.trans_le hlog_le) (by decide), hlog]
    rfl
  -- The run stays near the height, so the sum is far from the end of the word.
  have hsum : (h.toNat / 4096 / 2 ^ log + offset.toNat) * (4096 * 2 ^ log) + s * 4096 =
      nextRun (2 ^ log) s (h.toNat / 4096) * 4096 := by
    rw [nextRun, hoffset, add_mul _ s, mul_assoc, mul_comm (2 ^ log) 4096]
  have hfit : nextRun (2 ^ log) s (h.toNat / 4096) * 4096 < 2 ^ 64 := by omega
  have hstart : h.toNat / 4096 / 2 ^ log ≤ h.toNat / 4096 := div_le_self _ _
  have hoffset_le : offset.toNat ≤ 1 := by
    rw [hoffset]
    split <;> decide
  rw [UInt64.toNat_add, UInt64.toNat_mul, UInt64.toNat_add, hcycles, hround, hstripe,
    mod_eq_of_lt (show h.toNat / 4096 / 2 ^ log + offset.toNat < 2 ^ 64 by omega),
    mod_eq_of_lt (show (h.toNat / 4096 / 2 ^ log + offset.toNat) * (4096 * 2 ^ log) < 2 ^ 64 by
      omega), hsum, mod_eq_of_lt hfit]

/-- What `get_next_pruned_block_height` answers: the height of the chain at the tip, the height
    itself in another stripe, and otherwise what the neighbouring stripe keeps next. -/
theorem getNextPrunedBlockHeight_cases (h H : UInt64) :
    (h + pruningTipBlocks ≥ H ∧ getNextPrunedBlockHeight h H seed = some H) ∨
      h + pruningTipBlocks < H ∧ (stripe 4096 (2 ^ log) h.toNat ≠ s ∧
          getNextPrunedBlockHeight h H seed = some h ∨
        stripe 4096 (2 ^ log) h.toNat = s ∧ ∃ seed', Seed seed' log ((s + 1) % 2 ^ log) ∧
          getNextPrunedBlockHeight h H seed = some (getNextUnprunedBlockHeight h H seed')) := by
  have hlog : (getPruningLogStripes seed).toUInt64.toNat = log := hs.logStripes
  have hlog' : (getPruningLogStripes seed).toUInt64.toUInt32 = getPruningLogStripes seed := by simp
  have hblock := toNat_blockStripe h _ (hlog.trans_le hs.log_le)
  rw [hlog] at hblock
  simp only [getNextPrunedBlockHeight, if_neg hs.stripe_ne, if_pos hs.log_ne]
  by_cases htip : h + pruningTipBlocks ≥ H
  · exact .inl ⟨htip, if_pos htip⟩
  refine .inr ⟨UInt64.not_le.mp htip, ?_⟩
  rw [if_neg htip]
  set blockStripe := (((h / pruningStripeSize) &&&
    ((1 : UInt64) <<< (getPruningLogStripes seed).toUInt64 - 1)) + 1).toUInt32
  by_cases hhere : stripe 4096 (2 ^ log) h.toNat = s
  · rw [hhere] at hblock
    rw [if_neg (not_not.mpr (UInt32.toNat_inj.mp (hblock.trans hs.stripe.symm))), hlog']
    set nextStripe := (1 + (blockStripe.toUInt64 &&&
      ((1 : UInt64) <<< (getPruningLogStripes seed).toUInt64 - 1))).toUInt32
    have hbound := pow_log_le hs.log_le
    have hnext : nextStripe.toNat = (s + 1) % 2 ^ log + 1 := by
      rw [UInt64.toNat_toUInt32, UInt64.toNat_add, UInt64.toNat_and,
        toNat_mask _ (hlog.trans_le hs.log_le), and_two_pow_sub_one_eq_mod,
        UInt32.toNat_toUInt64, hblock, hlog]
      change (1 + (s + 1) % 2 ^ log) % 2 ^ 64 % 2 ^ 32 = _
      omega
    rcases makePruningSeed_some nextStripe (hs.logStripes.trans_le hs.log_le) (by omega)
      (by rw [hs.logStripes]; omega) with ⟨seed', hseed'⟩
    have hs' := seed_of_make hseed'
      (UInt32.le_iff_toNat_le.mpr (hs.log_pos.trans_eq hs.logStripes.symm))
    rw [hs.logStripes, hnext, Nat.add_sub_cancel] at hs'
    exact .inr ⟨hhere, seed', hs', by rw [hseed']; rfl⟩
  · have hother : blockStripe ≠ getPruningStripe seed := by
      intro hsame
      rw [hsame, hs.stripe] at hblock
      exact hhere (succ.inj hblock).symm
    exact .inl ⟨hhere, if_pos hother⟩

variable {h H : UInt64} (hH : H ≤ maxBlockNumber + 1) (hh : h ≤ H)
include h H hH hh

/-- The height that the code computes: the first block of the stripe, or the first of the tip when
    that comes sooner. -/
theorem getNextUnprunedBlockHeight_toNat : (getNextUnprunedBlockHeight h H seed).toNat =
      min (next 4096 (2 ^ log) s h.toNat) (max h.toNat (H.toNat - 5500)) := by
  have hlog : (getPruningLogStripes seed).toUInt64.toNat = log := hs.logStripes
  have hsmall : h ≤ maxBlockNumber + 1 := UInt64.le_trans hh hH
  have hH' : H.toNat ≤ 500000001 := UInt64.le_iff_toNat_le.mp hH
  have hfirst : h.toNat ≤ next 4096 (2 ^ log) s h.toNat :=
    (next_isLeast (by decide) hs.stripe_lt h.toNat).1.1
  simp only [getNextUnprunedBlockHeight, if_neg (UInt64.not_lt.mpr hsmall),
    if_neg (UInt64.not_lt.mpr hH), if_neg hs.stripe_ne, tip_iff hsmall,
    if_pos hs.log_ne]
  by_cases hnear : H.toNat ≤ h.toNat + 5500
  · rw [if_pos hnear]
    omega
  rw [if_neg hnear]
  have hblock := toNat_blockStripe h _ (hlog.trans_le hs.log_le)
  rw [hlog] at hblock
  set blockStripe := (((h / pruningStripeSize) &&&
    ((1 : UInt64) <<< (getPruningLogStripes seed).toUInt64 - 1)) + 1).toUInt32
  have hsame : blockStripe = getPruningStripe seed ↔ stripe 4096 (2 ^ log) h.toNat = s := by
    rw [← UInt32.toNat_inj, hblock, hs.stripe, add_right_cancel_iff]
  by_cases hhere : stripe 4096 (2 ^ log) h.toNat = s
  · rw [if_pos (hsame.mpr hhere), next, if_pos hhere]
    omega
  rw [if_neg (mt hsame.mp hhere)]
  have hoffset : (if getPruningStripe seed > blockStripe then 0 else 1 : UInt64).toNat =
      if h.toNat / 4096 % 2 ^ log < s then 0 else 1 := by
    have hlater : getPruningStripe seed > blockStripe ↔ h.toNat / 4096 % 2 ^ log < s := by
      rw [gt_iff_lt, UInt32.lt_iff_toNat_lt, hblock, hs.stripe]
      exact succ_lt_succ_iff
    simp only [hlater]
    split <;> rfl
  have hrun := toNat_nextRun hs h hsmall _ hoffset
  set start := ((h / pruningStripeSize) >>> (getPruningLogStripes seed).toUInt64 + _) * _ + _
  have hnext : next 4096 (2 ^ log) s h.toNat = start.toNat := by
    rw [next, if_neg hhere, hrun]
  have hfar := nextRun_small hs (h.toNat / 4096)
  have hbeyond : start + pruningTipBlocks > H ↔ H.toNat < start.toNat + 5500 := by
    rw [gt_iff_lt, UInt64.lt_iff_toNat_lt, toNat_tip]
    omega
  simp only [hbeyond]
  rw [hnext] at hfirst ⊢
  by_cases hpast : H.toNat < start.toNat + 5500
  · have hlong : ¬ H < pruningTipBlocks := by
      rw [UInt64.lt_iff_toNat_lt]
      change ¬ H.toNat < 5500
      omega
    rw [if_pos hpast, if_neg hlong, UInt64.toNat_sub_of_le _ _ (UInt64.not_lt.mp hlong)]
    change H.toNat - 5500 = _
    omega
  · have hbefore : ¬ start < h := by
      rw [UInt64.lt_iff_toNat_lt]
      omega
    rw [if_neg hpast, if_neg hbefore]
    omega

end

/-- The next unpruned block is the first block, from the given height on, that the node keeps. -/
theorem getNextUnprunedBlockHeight_least {stripe logStripes seed : UInt32} {h H : UInt64}
    (hseed : makePruningSeed stripe logStripes = some seed) (hlog : 1 ≤ logStripes)
    (hH : H ≤ maxBlockNumber + 1) (hh : h ≤ H) :
    (h ≤ getNextUnprunedBlockHeight h H seed ∧
        hasUnprunedBlock (getNextUnprunedBlockHeight h H seed) H seed = true) ∧
      ∀ x, h ≤ x → hasUnprunedBlock x H seed = true → getNextUnprunedBlockHeight h H seed ≤ x := by
  have hs := seed_of_make hseed hlog
  have hH' : H.toNat ≤ 500000001 := le_iff_toNat_le.mp hH
  have hh' : h.toNat ≤ H.toNat := le_iff_toNat_le.mp hh
  have hvalue := getNextUnprunedBlockHeight_toNat hs hH hh
  rcases next_isLeast (show 0 < 4096 by decide) hs.stripe_lt h.toNat with ⟨⟨hle, hin⟩, hleast⟩
  refine ⟨⟨?_, ?_⟩, ?_⟩
  · rw [le_iff_toNat_le, hvalue]
    omega
  · rw [hasUnprunedBlock_iff hs, hvalue]
    -- The value is one of the two least elements.
    rcases le_total (next 4096 (2 ^ logStripes.toNat) (stripe.toNat - 1) h.toNat)
      (max h.toNat (H.toNat - 5500)) with hstripe | htip
    · rw [min_eq_left hstripe]
      exact Or.inr hin
    · rw [min_eq_right htip]
      exact Or.inl (by omega)
  · intro x hx hkept
    rw [le_iff_toNat_le] at hx ⊢
    rw [hvalue]
    rcases (hasUnprunedBlock_iff hs x H).mp hkept with htip | hstripe
    · -- A height whose sum with the tip wraps is above the chain.
      omega
    · exact (min_le_left _ _).trans (hleast ⟨hx, hstripe⟩)

theorem getNextUnprunedBlockHeight_least_sample :
    makePruningSeed 2 3 = some 0x181 ∧ getNextUnprunedBlockHeight 8192 1000000 0x181 = 36864 ∧
      ∀ x, 8192 ≤ x → hasUnprunedBlock x 1000000 0x181 = true → 36864 ≤ x :=
  ⟨by decide, by decide, (getNextUnprunedBlockHeight_least (h := 8192) (H := 1000000)
    (show makePruningSeed 2 3 = some 0x181 by decide) (by decide) (by decide) (by decide)).2⟩

/-- What the next pruned block is asked to be: the first that the node does not keep, where the
    height of the chain stands for none. -/
def NextPruned (h H : UInt64) (seed : UInt32) (r : UInt64) : Prop :=
  ((∃ x, h ≤ x ∧ x < H ∧ hasUnprunedBlock x H seed = false) →
    (h ≤ r ∧ hasUnprunedBlock r H seed = false) ∧
      ∀ x, h ≤ x → hasUnprunedBlock x H seed = false → r ≤ x) ∧
    ((∀ x, h ≤ x → x < H → hasUnprunedBlock x H seed = true) → r = H)

theorem getNextUnprunedBlockHeight_large {h H : UInt64} (seed : UInt32)
    (hH : ¬ H ≤ maxBlockNumber + 1) : getNextUnprunedBlockHeight h H seed = h := by
  simp [getNextUnprunedBlockHeight, UInt64.not_le.mp hH]

section

variable {seed : UInt32} {log s : Nat} (hs : Seed seed log s) {h H : UInt64}
include hs

theorem hasUnprunedBlock_eq_false (x : UInt64) : hasUnprunedBlock x H seed = false ↔
    (x.toNat + 5500) % 2 ^ 64 < H.toNat ∧ stripe 4096 (2 ^ log) x.toNat ≠ s := by
  rw [← Bool.not_eq_true, hasUnprunedBlock_iff hs, not_or, not_le]

/-- Asked about a block that is kept, the neighbouring stripe knows the first one that is not, if
    there is one before the tip and the chain is not too long. -/
theorem nextPruned_neighbour {seed' : UInt32} (hs' : Seed seed' log ((s + 1) % 2 ^ log))
    (hfar : h + pruningTipBlocks < H) (hhere : stripe 4096 (2 ^ log) h.toNat = s) (hne : h < H) :
    NextPruned h H seed (getNextUnprunedBlockHeight h H seed') ↔ H ≤ maxBlockNumber + 1 ∧
      ∃ x, h ≤ x ∧ x < H ∧ hasUnprunedBlock x H seed = false := by
  have hkept : hasUnprunedBlock h H seed = true := (hasUnprunedBlock_iff hs h H).mpr (.inr hhere)
  rw [lt_iff_toNat_lt] at hne
  by_cases hH : H ≤ maxBlockNumber + 1
  · have hH' : H.toNat ≤ 500000001 := le_iff_toNat_le.mp hH
    have hh := le_iff_toNat_le.mpr hne.le
    rw [lt_iff_toNat_lt, toNat_tip] at hfar
    have hvalue := getNextUnprunedBlockHeight_toNat hs' hH hh
    rw [max_eq_right (by omega), next_neighbour (by decide) hs.one_lt hhere] at hvalue
    have hleast := leave_isLeast (show 0 < 4096 by decide) hs.one_lt s h.toNat
    rw [and_iff_right hH]
    constructor
    · rintro ⟨-, hnone⟩
      by_contra! hall
      -- The answer is in front of the chain's height, which would be right.
      have heq := hnone fun x hx hxH => by simpa using hall x hx hxH
      rw [heq] at hvalue
      omega
    · intro hexists
      refine ⟨fun _ => ?_, fun hall => ?_⟩
      · rcases hexists with ⟨x, hx, hxH, hx'⟩
        rw [le_iff_toNat_le] at hx
        rw [lt_iff_toNat_lt] at hxH
        rcases (hasUnprunedBlock_eq_false hs x).mp hx' with ⟨hbelow, hother⟩
        have hle := hleast.2 ⟨hx, hother⟩
        -- The first block of another stripe comes before the tip, since a pruned one does.
        rw [min_eq_left (by omega)] at hvalue
        refine ⟨⟨?_, (hasUnprunedBlock_eq_false hs _).mpr ⟨by omega, hvalue ▸ hleast.1.2⟩⟩, ?_⟩
        · rw [le_iff_toNat_le, hvalue]
          exact hleast.1.1
        · intro y hy hy'
          rw [le_iff_toNat_le] at hy ⊢
          rw [hvalue]
          exact hleast.2 ⟨hy, ((hasUnprunedBlock_eq_false hs y).mp hy').2⟩
      · rcases hexists with ⟨x, hx, hxH, hx'⟩
        cases hx'.symm.trans (hall x hx hxH)
  · -- Beyond the maximum the neighbour gives back the height, which is kept.
    rw [getNextUnprunedBlockHeight_large seed' hH]
    refine iff_of_false ?_ fun hcond => hH hcond.1
    rintro ⟨hexists, hnone⟩
    by_cases hall : ∀ x, h ≤ x → x < H → hasUnprunedBlock x H seed = true
    · rw [← hnone hall] at hne
      exact lt_irrefl _ hne
    · push Not at hall
      rcases hall with ⟨x, hx, hxH, hx'⟩
      cases hkept.symm.trans (hexists ⟨x, hx, hxH, by simpa using hx'⟩).1.2

end

/-- The next pruned block is what it is asked to be exactly when, at the tip, no block from the
    height on is pruned, and below the tip the height is that of the chain or pruned itself, or some
    block in front of the chain's height is and the chain is not too long. -/
theorem getNextPrunedBlockHeight_least_iff {stripe logStripes seed : UInt32} {h H : UInt64}
    (hseed : makePruningSeed stripe logStripes = some seed) (hlog : 1 ≤ logStripes) (hh : h ≤ H) :
    (∃ r, getNextPrunedBlockHeight h H seed = some r ∧ NextPruned h H seed r) ↔
      (h + pruningTipBlocks ≥ H →
        ∀ x, h ≤ x → x < H → hasUnprunedBlock x H seed = true) ∧
      (h + pruningTipBlocks < H → h = H ∨ hasUnprunedBlock h H seed = false ∨
        H ≤ maxBlockNumber + 1 ∧ ∃ x, h ≤ x ∧ x < H ∧ hasUnprunedBlock x H seed = false) := by
  have hs := seed_of_make hseed hlog
  have hpruned {x : UInt64} (hx' : hasUnprunedBlock x H seed = false) (hx : h ≤ x) (hxH : x < H) :
      ¬ ∀ x, h ≤ x → x < H → hasUnprunedBlock x H seed = true := by
    intro hall
    cases hx'.symm.trans (hall x hx hxH)
  rcases getNextPrunedBlockHeight_cases hs h H with
    ⟨htip, hvalue⟩ | ⟨hfar, ⟨hother, hvalue⟩ | ⟨hhere, seed', hs', hvalue⟩⟩
  · rw [imp_iff_right htip, hvalue]
    simp only [Option.some.injEq, exists_eq_left', UInt64.not_lt.mpr htip, false_imp_iff, and_true]
    refine ⟨fun hnext x hx hxH => ?_, fun hall => ⟨?_, fun _ => rfl⟩⟩
    · by_contra hx'
      rw [Bool.not_eq_true] at hx'
      exact UInt64.not_le.mpr hxH ((hnext.1 ⟨x, hx, hxH, hx'⟩).2 x hx hx')
    · rintro ⟨x, hx, hxH, hx'⟩
      exact absurd hall (hpruned hx' hx hxH)
  all_goals
    rw [imp_iff_right hfar, hvalue]
    simp only [Option.some.injEq, exists_eq_left', ge_iff_le, UInt64.not_le.mpr hfar, false_imp_iff,
      true_and]
  · have hx : hasUnprunedBlock h H seed = false := by
      rw [hasUnprunedBlock_eq_false hs, ← toNat_tip]
      exact ⟨lt_iff_toNat_lt.mp hfar, hother⟩
    refine iff_of_true ⟨fun _ => ⟨⟨UInt64.le_refl h, hx⟩, fun x hx _ => hx⟩, fun hall => ?_⟩
      (.inr (.inl hx))
    by_contra hne
    exact hpruned hx (UInt64.le_refl h) (UInt64.lt_of_le_of_ne hh hne) hall
  · have hkept : hasUnprunedBlock h H seed = true := (hasUnprunedBlock_iff hs h H).mpr (.inr hhere)
    rcases eq_or_ne h H with rfl | hne
    · -- The sum with the tip wraps, which only happens beyond the maximum.
      have hlarge : ¬ h ≤ maxBlockNumber + 1 := by
        intro hle
        have hle' : h.toNat ≤ 500000001 := le_iff_toNat_le.mp hle
        rw [lt_iff_toNat_lt, toNat_tip] at hfar
        omega
      rw [getNextUnprunedBlockHeight_large seed' hlarge]
      refine iff_of_true ⟨?_, fun _ => rfl⟩ (.inl rfl)
      rintro ⟨x, hx, hxh, -⟩
      exact absurd hx (UInt64.not_le.mpr hxh)
    · rw [nextPruned_neighbour hs hs' hfar hhere (UInt64.lt_of_le_of_ne hh hne)]
      simp [hne, hkept]

/-- Beyond the maximum, block 0 is asked of the second stripe, which does not keep it. -/
theorem getNextPrunedBlockHeight_least_large :
    ∃ r, getNextPrunedBlockHeight 0 600000000 0x181 = some r ∧ NextPruned 0 600000000 0x181 r :=
  (getNextPrunedBlockHeight_least_iff (show makePruningSeed 2 3 = some 0x181 by decide) (by decide)
    (by decide)).mpr ⟨fun h => absurd h (by decide), fun _ => .inr (.inl (by decide))⟩

/-- In a chain of 9000 blocks the node of the first stripe keeps every block, and is told that the
    first block of the tip is pruned. -/
theorem getNextPrunedBlockHeight_tip :
    makePruningSeed 1 3 = some 0x180 ∧ getNextPrunedBlockHeight 0 9000 0x180 = some 3500 ∧
      hasUnprunedBlock 3500 9000 0x180 = true ∧
      ∀ x, 0 ≤ x → x < 9000 → hasUnprunedBlock x 9000 0x180 = true := by
  refine ⟨by decide, by decide, by decide, fun x _ hx => ?_⟩
  rw [hasUnprunedBlock_iff
    (seed_of_make (show makePruningSeed 1 3 = some 0x180 by decide) (by decide))]
  have hx' : x.toNat < 9000 := lt_iff_toNat_lt.mp hx
  change 9000 ≤ _ ∨ x.toNat / 4096 % 8 = 0
  omega

/-! ## All stripes together -/

/-- Below the tip, every block is kept by the nodes of one stripe and no other. -/
theorem hasUnprunedBlock_unique (logStripes : UInt32) (hlog : 1 ≤ logStripes)
    (hlog' : logStripes ≤ 7) (h H : UInt64) (htip : h.toNat + 5500 < H.toNat) :
    ∃! stripe, ∃ seed, makePruningSeed stripe logStripes = some seed ∧
      hasUnprunedBlock h H seed = true := by
  have hle : logStripes.toNat ≤ 7 := UInt32.le_iff_toNat_le.mp hlog'
  have hH := H.toNat_lt
  have hkeeps : ∀ {stripe seed : UInt32}, makePruningSeed stripe logStripes = some seed →
      (hasUnprunedBlock h H seed = true ↔
        Stripes.stripe 4096 (2 ^ logStripes.toNat) h.toNat = stripe.toNat - 1) := by
    intro stripe seed hseed
    rw [hasUnprunedBlock_iff (seed_of_make hseed hlog), mod_eq_of_lt (by omega)]
    exact or_iff_right (by omega)
  set s := Stripes.stripe 4096 (2 ^ logStripes.toNat) h.toNat
  have hs : s < 2 ^ logStripes.toNat := mod_lt _ (Nat.two_pow_pos _)
  have hbound := pow_log_le hle
  -- The seed packs the stripe counted from 1.
  have hstripe : (UInt32.ofNat (s + 1)).toNat = s + 1 :=
    UInt32.toNat_ofNat_of_lt' (show _ < 2 ^ 32 by omega)
  rcases makePruningSeed_some (UInt32.ofNat (s + 1)) hle (by omega) (by omega) with ⟨seed, hseed⟩
  refine ⟨UInt32.ofNat (s + 1), ⟨seed, hseed, (hkeeps hseed).mpr (by omega)⟩, ?_⟩
  rintro stripe ⟨seed', hseed', hkept⟩
  have hsame := (hkeeps hseed').mp hkept
  have hne : stripe.toNat ≠ 0 := by
    intro hzero
    rw [UInt32.toNat_inj (b := 0) |>.mp hzero] at hseed'
    simp [makePruningSeed] at hseed'
  exact UInt32.toNat_inj.mp (by omega)

/-- The block at height 4096 of a chain of 20000, with eight stripes. -/
theorem hasUnprunedBlock_unique_second :
    ∃! stripe, ∃ seed, makePruningSeed stripe 3 = some seed ∧
      hasUnprunedBlock 4096 20000 seed = true :=
  hasUnprunedBlock_unique 3 (by decide) (by decide) 4096 20000 (by decide)

end Pruning

end CocaineNode
