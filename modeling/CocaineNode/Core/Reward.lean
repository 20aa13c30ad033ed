import CocaineNode.Core.Difficulty

/-!
# Block Rewards

`get_block_reward` of `cryptonote_basic/cryptonote_basic_impl.cpp`: the share
of the coins still to be issued, with a floor, and a penalty for blocks over
the median weight. Amounts and weights are 64-bit and wrap as in the source.

## Main definitions

* `getBlockReward`: The base reward of a block, or `none` when it is too heavy.
-/

namespace CocaineNode

def moneySupply : UInt64 := 0xffffffffffffffff
def emissionSpeedFactorPerMinute : Nat := 19
def finalSubsidyPerMinute : UInt64 := 300000000000

/-- `get_min_block_weight`: the weight below which a block gets its full reward. -/
def getMinBlockWeight (version : UInt8) : UInt64 :=
  if version < 2 then 20000 else if version < 5 then 60000 else 300000

/-- `DIFFICULTY_TARGET_V1` or `V2`, in minutes. -/
def targetMinutes (version : UInt8) : Nat :=
  (if version < 2 then difficultyTargetV1 else difficultyTargetV2) / 60

/-- The reward before any weight penalty. -/
def baseReward (alreadyGeneratedCoins : UInt64) (version : UInt8) : UInt64 :=
  let emissionSpeedFactor := emissionSpeedFactorPerMinute - (targetMinutes version - 1)
  let base := (moneySupply - alreadyGeneratedCoins) >>> UInt64.ofNat emissionSpeedFactor
  let floor := finalSubsidyPerMinute * UInt64.ofNat (targetMinutes version)
  if base < floor then floor else base

/-- `div128_64` on the two words of a dividend. -/
def div12864 (hi lo divisor : UInt64) : UInt64 × UInt64 :=
  let q := (hi.toNat * 2 ^ 64 + lo.toNat) / divisor.toNat
  (UInt64.ofNat (q / 2 ^ 64), UInt64.ofNat q)

/-- `reward_hi` and `reward_lo`, the words that the source makes its assertions about. -/
def rewardWords (base medianWeight currentBlockWeight : UInt64) : UInt64 × UInt64 :=
  let multiplicand := (2 * medianWeight - currentBlockWeight) * currentBlockWeight
  let product := Difficulty.mul base multiplicand
  let q := div12864 product.2 product.1 medianWeight
  div12864 q.1 q.2 medianWeight

/-- The reward of a block over the median weight. -/
def penalisedReward (base medianWeight currentBlockWeight : UInt64) : UInt64 :=
  (rewardWords base medianWeight currentBlockWeight).2

def getBlockReward (medianWeight currentBlockWeight alreadyGeneratedCoins : UInt64)
    (version : UInt8) : Option UInt64 :=
  let base := baseReward alreadyGeneratedCoins version
  let fullRewardZone := getMinBlockWeight version
  -- A low median is lifted to the full reward zone.
  let medianWeight := if medianWeight < fullRewardZone then fullRewardZone else medianWeight
  if currentBlockWeight ≤ medianWeight then some base
  else if currentBlockWeight > 2 * medianWeight then none
  else some (penalisedReward base medianWeight currentBlockWeight)

end CocaineNode
