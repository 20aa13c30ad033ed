import CocaineNode.Core.Reward
import Mathlib.Tactic.Ring

/-!
# The Penalty for Heavy Blocks

A block of weight `w` over the median `m` gets `base * ((2 * m - w) * w) / m²` of
the base reward. The source computes this in words of 64 bits and two divisions
of a 128-bit product. While the median is below `2³²` nothing of it is cut off,
and the quotient is the one of the numbers.

## Theorems

* `getBlockReward_exact`: The reward of every block in numbers.
-/

namespace CocaineNode

open UInt64 Nat

/-! ## In numbers -/

/-- The part that is left falls as the weight rises above the median. -/
theorem penalty_lt {m w w' : Nat} (hw : m ≤ w) (hlt : w < w') (hmax : w' ≤ 2 * m) :
    (2 * m - w') * w' < (2 * m - w) * w := by
  obtain ⟨d, rfl⟩ := Nat.exists_eq_add_of_lt hlt
  obtain ⟨e, rfl⟩ := Nat.exists_eq_add_of_le hw
  obtain ⟨r, hr⟩ := Nat.exists_eq_add_of_le hmax
  have hleft : 2 * m - (m + e + d + 1) = r := by omega
  have hright : 2 * m - (m + e) = r + d + 1 := by omega
  have hm : m = r + e + d + 1 := by omega
  rw [hleft, hright]
  calc r * (m + e + d + 1) < r * (m + e + d + 1) + (d + 1) * (2 * e + d + 1) :=
        Nat.lt_add_of_pos_right (Nat.mul_pos d.succ_pos (Nat.succ_pos _))
    _ = (r + d + 1) * (m + e) := by
        rw [hm]
        ring

theorem penalty_le {m w w' : Nat} (hw : m ≤ w) (hle : w ≤ w') (hmax : w' ≤ 2 * m) :
    (2 * m - w') * w' ≤ (2 * m - w) * w := by
  rcases hle.eq_or_lt with rfl | hlt
  · exact le_rfl
  · exact (penalty_lt hw hlt hmax).le

/-- Up to the median nothing is lost. -/
theorem penalty_full (m : Nat) : (2 * m - m) * m = m * m := by
  rw [two_mul, Nat.add_sub_cancel]

/-! ## In words -/

/-- Two words of a dividend are divided as one number. -/
theorem div12864_toNat {hi lo : UInt64} (divisor : UInt64) {n : Nat}
    (h : hi.toNat * 2 ^ 64 + lo.toNat = n) (hn : n < 2 ^ 128) :
    (div12864 hi lo divisor).1.toNat * 2 ^ 64 + (div12864 hi lo divisor).2.toNat =
      n / divisor.toNat := by
  have hhigh : n / divisor.toNat / 2 ^ 64 < 2 ^ 64 :=
    Nat.div_lt_of_lt_mul (Nat.lt_of_le_of_lt (Nat.div_le_self _ _) hn)
  simp only [div12864, h, toNat_ofNat', mod_eq_of_lt hhigh]
  rw [mul_comm, div_add_mod]

theorem mul_toNat (a b : UInt64) :
    (Difficulty.mul a b).2.toNat * 2 ^ 64 + (Difficulty.mul a b).1.toNat = a.toNat * b.toNat := by
  have hlt : a.toNat * b.toNat < 2 ^ 64 * 2 ^ 64 := mul_lt_mul'' a.toNat_lt b.toNat_lt
  simp only [Difficulty.mul, UInt64.toNat_ofNat', UInt64.toNat_mul]
  omega

theorem twice_toNat {m : UInt64} (h : m.toNat < 2 ^ 32) : (2 * m).toNat = 2 * m.toNat := by
  exact mod_eq_of_lt (by change 2 * m.toNat < _; omega)

/-- The reward of a heavy block, while the median is below `2³²`. -/
theorem rewardWords_toNat (base : UInt64) {m w : UInt64} (hm : m.toNat < 2 ^ 32)
    (hw : m ≤ w) (hmax : w ≤ 2 * m) :
    (rewardWords base m w).1 = 0 ∧ (rewardWords base m w).2.toNat =
      base.toNat * ((2 * m.toNat - w.toNat) * w.toNat) / (m.toNat * m.toNat) := by
  have htwice := twice_toNat hm
  rw [UInt64.le_iff_toNat_le] at hw
  have hmax' := UInt64.le_iff_toNat_le.mp hmax
  rw [htwice] at hmax'
  have hfull := penalty_le le_rfl hw hmax'
  rw [penalty_full] at hfull
  have hsquare : m.toNat * m.toNat < 2 ^ 32 * 2 ^ 32 := Nat.mul_lt_mul'' hm hm
  -- The product that the base is multiplied with fits a word.
  have hfactor : ((2 * m - w) * w).toNat = (2 * m.toNat - w.toNat) * w.toNat := by
    rw [UInt64.toNat_mul, UInt64.toNat_sub_of_le _ _ hmax, htwice]
    exact Nat.mod_eq_of_lt (by omega)
  have hproduct := mul_toNat base ((2 * m - w) * w)
  rw [hfactor] at hproduct
  set factor := (2 * m.toNat - w.toNat) * w.toNat
  have hbig : base.toNat * factor < 2 ^ 64 * 2 ^ 64 := Nat.mul_lt_mul'' base.toNat_lt (by omega)
  have hfirst := div12864_toNat m hproduct (by omega)
  have hsecond := div12864_toNat m hfirst
    (Nat.lt_of_le_of_lt (Nat.div_le_self _ _) (by omega))
  rw [Nat.div_div_eq_div_mul] at hsecond
  -- The quotient is at most the base, so its high word is 0.
  have hbase : base.toNat * factor / (m.toNat * m.toNat) ≤ base.toNat :=
    Nat.div_le_of_le_mul (by rw [Nat.mul_comm]; exact Nat.mul_le_mul_right _ hfull)
  have hlt := base.toNat_lt
  simp only [rewardWords]
  refine ⟨UInt64.toNat_inj.mp ?_, ?_⟩
  · rw [UInt64.toNat_zero]
    omega
  · omega

/-! ## The median -/

/-- A low median is lifted to the full reward zone. -/
def liftedMedian (medianWeight : UInt64) (version : UInt8) : UInt64 :=
  if medianWeight < getMinBlockWeight version then getMinBlockWeight version else medianWeight

theorem liftedMedian_toNat (medianWeight : UInt64) (version : UInt8) :
    (liftedMedian medianWeight version).toNat =
      max (getMinBlockWeight version).toNat medianWeight.toNat := by
  unfold liftedMedian
  split
  · rename_i h
    rw [lt_iff_toNat_lt] at h
    omega
  · rename_i h
    rw [lt_iff_toNat_lt] at h
    omega

theorem getBlockReward_eq (medianWeight weight coins : UInt64) (version : UInt8) :
    getBlockReward medianWeight weight coins version =
      if weight ≤ liftedMedian medianWeight version then some (baseReward coins version)
      else if weight > 2 * liftedMedian medianWeight version then none
      else some (penalisedReward (baseReward coins version) (liftedMedian medianWeight version)
        weight) :=
  rfl

theorem baseReward_pos (coins : UInt64) (version : UInt8) :
    0 < (baseReward coins version).toNat := by
  have hfloor : 0 < (finalSubsidyPerMinute * ofNat (targetMinutes version)).toNat := by
    unfold targetMinutes
    split
    · decide
    · decide
  simp only [baseReward]
  split
  · exact hfloor
  · rename_i hbase
    rw [lt_iff_toNat_lt] at hbase
    omega

theorem getMinBlockWeight_of_le {version : UInt8} (h : 5 ≤ version) :
    getMinBlockWeight version = 300000 := by
  have hle := UInt8.le_iff_toNat_le.mp h
  have htwo : ¬ version < 2 := by
    exact not_lt.mpr (le_trans (by decide) hle)
  rw [getMinBlockWeight, if_neg htwo, if_neg (UInt8.not_lt.mpr h)]

/-- The reward of a block, for a median below `2³²` from version 5 on: it fails when the block is
    over twice the median, it is the base up to the median and the penalised base above it, with
    both assertions of the source, and it falls as the weight rises. -/
theorem getBlockReward_exact (median coins : UInt64) (version : UInt8)
    (hmedian : median.toNat < 2 ^ 32) (hversion : 5 ≤ version) :
    let m := max median.toNat 300000
    let base := baseReward coins version
    (∀ w : UInt64, (getBlockReward median w coins version = none ↔ 2 * m < w.toNat) ∧
      (w.toNat ≤ m → getBlockReward median w coins version = some base) ∧
      (m < w.toNat → w.toNat ≤ 2 * m → ∃ reward,
        getBlockReward median w coins version = some reward ∧
        reward.toNat = base.toNat * ((2 * m - w.toNat) * w.toNat) / (m * m) ∧
        rewardWords base (liftedMedian median version) w = (0, reward) ∧ reward < base)) ∧
      ∀ w w' reward reward' : UInt64, w ≤ w' → getBlockReward median w coins version = some reward →
        getBlockReward median w' coins version = some reward' → reward' ≤ reward := by
  intro m base
  have hm : (liftedMedian median version).toNat = m := by
    rw [liftedMedian_toNat, getMinBlockWeight_of_le hversion, max_comm]
    rfl
  have hfits : (liftedMedian median version).toNat < 2 ^ 32 := by omega
  -- Below 2 ^ 32 the words of the source compare as the numbers do.
  have hlight (w : UInt64) : w ≤ liftedMedian median version ↔ w.toNat ≤ m := by
    rw [le_iff_toNat_le, hm]
  have hheavy (w : UInt64) : w > 2 * liftedMedian median version ↔ 2 * m < w.toNat := by
    rw [gt_iff_lt, lt_iff_toNat_lt, twice_toNat hfits, hm]
  have hfull (w : UInt64) (h : w.toNat ≤ m) :
      getBlockReward median w coins version = some base := by
    rw [getBlockReward_eq, if_pos ((hlight w).mpr h)]
  -- Past the median the high word of the result is 0, so the low word is the reward.
  have hpart (w : UInt64) (hw : m < w.toNat) (hmax : w.toNat ≤ 2 * m) :
      ∃ reward, getBlockReward median w coins version = some reward ∧
        reward.toNat = base.toNat * ((2 * m - w.toNat) * w.toNat) / (m * m) ∧
        rewardWords base (liftedMedian median version) w = (0, reward) ∧ reward < base := by
    have hnot : ¬ w > 2 * liftedMedian median version := by
      rw [hheavy]
      omega
    have hwords := rewardWords_toNat base hfits (le_iff_toNat_le.mpr (hm ▸ hw.le))
      (UInt64.not_lt.mp hnot)
    rw [hm] at hwords
    refine ⟨(rewardWords base (liftedMedian median version) w).2, ?_, hwords.2,
      Prod.ext hwords.1 rfl, ?_⟩
    · rw [getBlockReward_eq, if_neg (mt (hlight w).mp (by omega)), if_neg hnot]
      rfl
    · rw [lt_iff_toNat_lt, hwords.2]
      refine Nat.div_lt_of_lt_mul ?_
      rw [Nat.mul_comm, ← penalty_full m]
      exact mul_lt_mul_of_pos_right (penalty_lt le_rfl hw hmax) (baseReward_pos coins version)
  have hfails (w : UInt64) : getBlockReward median w coins version = none ↔ 2 * m < w.toNat := by
    constructor
    · intro hnone
      by_contra hmax
      by_cases hw : w.toNat ≤ m
      · exact absurd (hfull w hw) (by rw [hnone]; exact nofun)
      · rcases hpart w (by omega) (by omega) with ⟨reward, hsome, -⟩
        exact absurd hsome (by rw [hnone]; exact nofun)
    · intro hw
      rw [getBlockReward_eq, if_neg (mt (hlight w).mp (by omega)), if_pos ((hheavy w).mpr hw)]
  refine ⟨fun w => ⟨hfails w, hfull w, hpart w⟩, ?_⟩
  intro w w' reward reward' hle hreward hreward'
  have hle' := le_iff_toNat_le.mp hle
  have hmax : w'.toNat ≤ 2 * m := by
    rw [← not_lt, ← hfails, hreward']
    exact nofun
  rw [le_iff_toNat_le]
  by_cases hw' : w'.toNat ≤ m
  · -- Both blocks get the base.
    rw [hfull w (by omega), Option.some.injEq] at hreward
    rw [hfull w' hw', Option.some.injEq] at hreward'
    rw [← hreward, ← hreward']
  · rcases hpart w' (by omega) hmax with ⟨_, hsome', hvalue', -, hlt'⟩
    rw [hreward', Option.some.injEq] at hsome'
    subst hsome'
    by_cases hw : w.toNat ≤ m
    · rw [hfull w hw, Option.some.injEq] at hreward
      rw [← hreward]
      exact (lt_iff_toNat_lt.mp hlt').le
    · rcases hpart w (by omega) (by omega) with ⟨_, hsome, hvalue, -⟩
      rw [hreward, Option.some.injEq] at hsome
      rw [hsome, hvalue, hvalue']
      exact Nat.div_le_div_right (Nat.mul_le_mul_left _ (penalty_le (by omega) hle' hmax))

theorem getBlockReward_exact_heavy :
    ∃ reward, getBlockReward 300000 400000 0 12 = some reward ∧ reward < baseReward 0 12 := by
  rcases ((getBlockReward_exact 300000 0 12 (by decide) (by decide)).1 400000).2.2 (by decide)
    (by decide) with ⟨reward, hsome, -, -, hlt⟩
  exact ⟨reward, hsome, hlt⟩

end CocaineNode
