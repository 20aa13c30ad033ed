import CocaineNode.Core.Types
import Mathlib.Data.UInt

/-!
# Proof-of-Work Hashes

The two functions of `cryptonote_core/cryptonote_tx_utils.cpp` that compute a
block's proof-of-work hash, and the choice of the RandomX seed height in
`crypto/rx-slow-hash.c`. The slow hashes themselves are abstract
(`SlowHashes`), as are block serialisation and everything else that turns a
block into bytes.

The epoch length and lag can be lowered by two environment variables. Values
that are out of range or not powers of two are replaced by the defaults, so the
lag is at least 1 whatever the environment holds.

## Main definitions

* `SeedEnv`: What the two environment variables hold.
* `rxSeedheight`: The height of the block whose id seeds RandomX.
-/

namespace CocaineNode

def rxBlockVersion : UInt8 := 12
def seedhashEpochBlocksDefault : UInt32 := 2048
def seedhashEpochLagDefault : UInt32 := 64

/-- The slow hashes and the blob they are applied to. -/
structure SlowHashes where
  hashingBlob : Block → Blob
  rxSlowHash : Hash → Blob → Hash
  cnSlowHash : Blob → Nat → Nat → Hash

/-- `SEEDHASH_EPOCH_LAG` and `SEEDHASH_EPOCH_BLOCKS` as `atoi` reads them, when set. -/
structure SeedEnv where
  lag : Option UInt32
  blocks : Option UInt32

def isPowerOf2 (n : UInt32) : Bool :=
  n ≠ 0 && n &&& (n - 1) = 0

namespace SeedEnv

def seedhashEpochLag (env : SeedEnv) : UInt32 :=
  match env.lag with
  | some lag =>
    if lag > seedhashEpochLagDefault || !isPowerOf2 lag then seedhashEpochLagDefault else lag
  | none => seedhashEpochLagDefault

def seedhashEpochBlocks (env : SeedEnv) : UInt32 :=
  match env.blocks with
  | some blocks =>
    if blocks < 2 || blocks > seedhashEpochBlocksDefault || !isPowerOf2 blocks then
      seedhashEpochBlocksDefault
    else blocks
  | none => seedhashEpochBlocksDefault

/-- `rx_seedheight`. -/
def rxSeedheight (env : SeedEnv) (height : UInt64) : UInt64 :=
  let lag := env.seedhashEpochLag.toUInt64
  let blocks := env.seedhashEpochBlocks.toUInt64
  if height ≤ blocks + lag then 0 else (height - lag - 1) &&& ~~~(blocks - 1)

/-- `rx_seedheights`: the seed height, and the one a lag later. -/
def rxSeedheights (env : SeedEnv) (height : UInt64) : UInt64 × UInt64 :=
  (env.rxSeedheight height, env.rxSeedheight (height + env.seedhashEpochLag.toUInt64))

/-- `rx_seedheight` of a chain height. -/
def seedHeight (env : SeedEnv) (height : Nat) : Nat :=
  (env.rxSeedheight (UInt64.ofNat height)).toNat

end SeedEnv

/-- The hash `get_block_longhash` returns at height 202612. -/
def longhash202612 : Hash :=
  0x84f64766475d51837ac9efbef1926486e58563c95a19fef4aec3254f03000000#256

/-- `get_block_longhash`. `seedAt` is how the chain answers for a block id at a height; it is
    `none` when there is no chain, which happens when generating the genesis block. -/
def getBlockLonghash (S : SlowHashes) (env : SeedEnv) (seedAt : Option (Nat → Hash)) (b : Block)
    (height : Nat) (seedHash : Option Hash) : Hash :=
  let bd := S.hashingBlob b
  -- block 202612 bug workaround
  if height = 202612 then longhash202612
  else if b.majorVersion ≥ rxBlockVersion then
    let seed := match seedAt with
      | some idAt => seedHash.getD (idAt (env.seedHeight height))
      | none => nullHash
    S.rxSlowHash seed bd
  else
    let powVariant := if b.majorVersion ≥ 7 then b.majorVersion.toNat - 6 else 0
    S.cnSlowHash bd powVariant height

/-- `get_altblock_longhash`. -/
def getAltblockLonghash (S : SlowHashes) (b : Block) (seedHash : Hash) : Hash :=
  S.rxSlowHash seedHash (S.hashingBlob b)

end CocaineNode
