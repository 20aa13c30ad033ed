import CocaineNode.Core.Blockchain

/-!
# The Cached Long Term Median

`get_long_term_block_weight_median` (`cryptonote_core/blockchain.cpp`) keeps a
rolling median of the long term weights it was last asked for, and the id of
the block they end with. A request for the same blocks is answered at once, a
request for a window one block further up costs one insertion, and any other
request fills the rolling median afresh.

The window is a parameter: `m_long_term_block_weights_window` is 100000 unless
a test sets it, and the rolling median is built for as many items. The bound in
the second condition stays at 100000.

## Main definitions

* `LongTermCache`: What is kept between requests.
* `BlockchainDB.getLongTermBlockWeightMedian`: A request.
-/

namespace CocaineNode

/-- The members `get_long_term_block_weight_median` keeps between calls. -/
structure LongTermCache where
  tipHash : Hash
  rollingMedian : RollingMedian UInt64

namespace BlockchainDB

/-- `get_long_term_block_weights`, which throws when the chain does not reach `startHeight`. -/
def getLongTermBlockWeights (db : BlockchainDB) (startHeight count : Nat) : Option (List UInt64) :=
  if startHeight ≥ db.height then none
  else some (((db.blocks.drop startHeight).take count).map StoredBlock.longTermWeight)

/-- `get_block_long_term_weight`. -/
def getBlockLongTermWeight (db : BlockchainDB) (height : Nat) : UInt64 :=
  (db.blocks[height]?.map StoredBlock.longTermWeight).getD 0

/-- `get_long_term_block_weight_median`; `none` when it throws. -/
def getLongTermBlockWeightMedian (db : BlockchainDB) (c : LongTermCache) (startHeight count : Nat) :
    Option (UInt64 × LongTermCache) :=
  if count = 0 then none
  else
    let tipHeight := startHeight + count - 1
    let tipHash := if tipHeight < db.height then db.blockIdByHeight tipHeight else nullHash
    let rmsize := c.rollingMedian.sz
    if tipHeight < db.height ∧ count = rmsize ∧ tipHash = c.tipHash then
      some (c.rollingMedian.median, c)
    -- In the vast majority of uncached cases the window has moved one block up.
    else if tipHeight > 0 ∧ tipHeight < db.height ∧
        (count = rmsize ∨ count = rmsize + 1 ∧ rmsize < 100000) ∧
        db.blockIdByHeight (tipHeight - 1) = c.tipHash then
      let rm := c.rollingMedian.insert (db.getBlockLongTermWeight tipHeight)
      some (rm.median, ⟨tipHash, rm⟩)
    else
      (db.getLongTermBlockWeights startHeight count).map fun weights =>
        let rm := weights.foldl RollingMedian.insert c.rollingMedian.clear
        (rm.median, ⟨tipHash, rm⟩)

end BlockchainDB

/-- `get_next_long_term_block_weight`, through the cache. -/
def Blockchain.nextLongTermBlockWeight (window : Nat) (s : Blockchain) (c : LongTermCache)
    (blockWeight : UInt64) : Option (UInt64 × LongTermCache) :=
  let nblocks := min window s.height
  let hfVersion := s.hardfork.getCurrentVersion
  if hfVersion < 10 then some (blockWeight, c)
  else if nblocks = 0 then some (blockWeight, c)
  else
    (s.db.getLongTermBlockWeightMedian c (s.height - nblocks) nblocks).map
    fun (longTermMedian, c) =>
      (boundedBlockWeight hfVersion longTermMedian blockWeight, c)

end CocaineNode
