import Mathlib.Data.UInt

/-!
# Pruning Seeds

`common/pruning.cpp` and `common/pruning.h`. A pruned node keeps the blocks of
one stripe in full, and the last `CRYPTONOTE_PRUNING_TIP_BLOCKS` blocks of the
chain. Its seed packs the number of stripes, as a power of two, and its stripe.

## Main definitions

* `makePruningSeed`: A stripe and the number of stripes packed into a seed.
* `hasUnprunedBlock`: Whether a node with a seed keeps a block.
-/

namespace CocaineNode

namespace Pruning

/-- `CRYPTONOTE_PRUNING_STRIPE_SIZE`. -/
def pruningStripeSize : UInt64 := 4096

/-- `CRYPTONOTE_PRUNING_LOG_STRIPES`. -/
def pruningLogStripes : UInt32 := 3

/-- `CRYPTONOTE_PRUNING_TIP_BLOCKS`. -/
def pruningTipBlocks : UInt64 := 5500

/-- `CRYPTONOTE_MAX_BLOCK_NUMBER`. -/
def maxBlockNumber : UInt64 := 500000000

/-- `PRUNING_SEED_LOG_STRIPES_SHIFT`. -/
def seedLogStripesShift : UInt32 := 7

/-- `PRUNING_SEED_LOG_STRIPES_MASK`. -/
def seedLogStripesMask : UInt32 := 0x7

/-- `PRUNING_SEED_STRIPE_SHIFT`. -/
def seedStripeShift : UInt32 := 0

/-- `PRUNING_SEED_STRIPE_MASK`. -/
def seedStripeMask : UInt32 := 0x7f

/-- `get_pruning_log_stripes`. -/
def getPruningLogStripes (pruningSeed : UInt32) : UInt32 :=
  (pruningSeed >>> seedLogStripesShift) &&& seedLogStripesMask

/-- `get_pruning_stripe` of a seed. -/
def getPruningStripe (pruningSeed : UInt32) : UInt32 :=
  if pruningSeed = 0 then 0
  else 1 + ((pruningSeed >>> seedStripeShift) &&& seedStripeMask)

/-- `make_pruning_seed`, which throws on a number of stripes or a stripe out of range. -/
def makePruningSeed (stripe logStripes : UInt32) : Option UInt32 :=
  if logStripes > seedLogStripesMask then none
  else if stripe = 0 ∨ stripe.toUInt64 > 1 <<< logStripes.toUInt64 then none
  else some ((logStripes <<< seedLogStripesShift) ||| ((stripe - 1) <<< seedStripeShift))

/-- `get_pruning_stripe` of a block, 0 for the blocks at the tip. -/
def getBlockPruningStripe (blockHeight blockchainHeight : UInt64) (logStripes : UInt32) : UInt32 :=
  if blockHeight + pruningTipBlocks ≥ blockchainHeight then 0
  else
    (((blockHeight / pruningStripeSize) &&& (1 <<< logStripes.toUInt64 - 1)) + 1).toUInt32

/-- `has_unpruned_block`. -/
def hasUnprunedBlock (blockHeight blockchainHeight : UInt64) (pruningSeed : UInt32) : Bool :=
  let stripe := getPruningStripe pruningSeed
  if stripe = 0 then true
  else
    let logStripes := getPruningLogStripes pruningSeed
    let blockStripe := getBlockPruningStripe blockHeight blockchainHeight logStripes
    blockStripe = 0 || blockStripe = stripe

/-- `get_next_unpruned_block_height`. -/
def getNextUnprunedBlockHeight (blockHeight blockchainHeight : UInt64) (pruningSeed : UInt32) :
    UInt64 :=
  if blockHeight > maxBlockNumber + 1 then blockHeight
  else if blockchainHeight > maxBlockNumber + 1 then blockHeight
  else
    let stripe := getPruningStripe pruningSeed
    if stripe = 0 then blockHeight
    else if blockHeight + pruningTipBlocks ≥ blockchainHeight then blockHeight
    else
      let seedLogStripes := getPruningLogStripes pruningSeed
      let logStripes :=
        (if seedLogStripes ≠ 0 then seedLogStripes else pruningLogStripes).toUInt64
      let mask : UInt64 := 1 <<< logStripes - 1
      let blockPruningStripe := (((blockHeight / pruningStripeSize) &&& mask) + 1).toUInt32
      if blockPruningStripe = stripe then blockHeight
      else
        let cycles := (blockHeight / pruningStripeSize) >>> logStripes
        let cycleStart := cycles + (if stripe > blockPruningStripe then 0 else 1)
        let h := cycleStart * (pruningStripeSize <<< logStripes) +
          ((stripe - 1) * pruningStripeSize.toUInt32).toUInt64
        if h + pruningTipBlocks > blockchainHeight then
          if blockchainHeight < pruningTipBlocks then 0 else blockchainHeight - pruningTipBlocks
        -- `h < block_height, unexpected`
        else if h < blockHeight then blockHeight
        else h

/-- `get_next_pruned_block_height`: the next height that the neighbouring stripe keeps. -/
def getNextPrunedBlockHeight (blockHeight blockchainHeight : UInt64) (pruningSeed : UInt32) :
    Option UInt64 :=
  let stripe := getPruningStripe pruningSeed
  if stripe = 0 then some blockchainHeight
  else if blockHeight + pruningTipBlocks ≥ blockchainHeight then some blockchainHeight
  else
    let seedLogStripes := getPruningLogStripes pruningSeed
    let logStripes :=
      (if seedLogStripes ≠ 0 then seedLogStripes else pruningLogStripes).toUInt64
    let mask : UInt64 := 1 <<< logStripes - 1
    let blockPruningSeed := (((blockHeight / pruningStripeSize) &&& mask) + 1).toUInt32
    if blockPruningSeed ≠ stripe then some blockHeight
    else
      let nextStripe := (1 + (blockPruningSeed.toUInt64 &&& mask)).toUInt32
      (makePruningSeed nextStripe logStripes.toUInt32).map
        (getNextUnprunedBlockHeight blockHeight blockchainHeight)

end Pruning

end CocaineNode
