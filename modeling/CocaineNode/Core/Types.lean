import Mathlib.Data.BitVec

/-!
# Transactions and Blocks

The records every other module passes around. They follow
`cryptonote_basic/cryptonote_basic.h` field by field, except that the
signatures of a transaction are kept as opaque bytes: whatever looks inside
them is an abstract function of the whole transaction (`Core.Externals`).

A hash or a key image is a 256-bit value. Its order as a number is the order
of its bytes read from the left, which is the order `memcmp` gives. The tables
of the database are in another order (`compareHash32`).

## Main definitions

* `TxIn`: The four kinds of input.
* `Transaction`: A transaction prefix with its opaque signatures.
-/

namespace CocaineNode

/-- `crypto::hash`. -/
abbrev Hash := BitVec 256

/-- `crypto::key_image`. -/
abbrev KeyImage := BitVec 256

/-- `crypto::public_key`. -/
abbrev PublicKey := BitVec 256

/-- `difficulty_type`, a 128-bit unsigned integer. -/
abbrev Difficulty := BitVec 128

instance instDecidableMemBitVec {w : Nat} (id : BitVec w) (ids : List (BitVec w)) :
    Decidable (id ∈ ids) :=
  inferInstance

/-- `blobdata`. -/
abbrev Blob := List UInt8

/-- `crypto::null_hash`. -/
def nullHash : Hash := 0

/-- `txin_v`. -/
inductive TxIn where
  | gen (height : UInt64)
  | toScript (prev : Hash) (prevout : UInt64) (sigset : Blob)
  | toScripthash (prev : Hash) (prevout : UInt64) (keys : List PublicKey) (script sigset : Blob)
  | toKey (amount : UInt64) (keyOffsets : List UInt64) (kImage : KeyImage)
  deriving DecidableEq, Repr

/-- `txout_target_v`. -/
inductive TxOutTarget where
  | toScript (keys : List PublicKey) (script : Blob)
  | toScripthash (hash : Hash)
  | toKey (key : PublicKey)
  | toTaggedKey (key : PublicKey) (viewTag : UInt8)
  deriving DecidableEq, Repr

/-- `get_output_public_key`. -/
def TxOutTarget.publicKey? : TxOutTarget → Option PublicKey
  | toKey key => some key
  | toTaggedKey key _ => some key
  | _ => none

/-- `tx_out`. -/
structure TxOut where
  amount : UInt64
  target : TxOutTarget
  deriving DecidableEq, Repr

/-- `transaction`. `rctType` and `txnFee` are the two fields of `rct_signatures`
    that are read outside the signature checks. -/
structure Transaction where
  version : UInt64 := 1
  unlockTime : UInt64 := 0
  vin : List TxIn := []
  vout : List TxOut := []
  extra : Blob := []
  rctType : UInt8 := 0
  txnFee : UInt64 := 0
  signatures : Blob := []
  pruned : Bool := false
  deriving DecidableEq, Repr

/-- `block_header` and `block`. -/
structure Block where
  majorVersion : UInt8
  minorVersion : UInt8
  timestamp : UInt64
  prevId : Hash
  nonce : UInt32
  minerTx : Transaction
  txHashes : List Hash
  deriving DecidableEq, Repr

/-- A default-constructed `block`. -/
def Block.null : Block where
  majorVersion := 0
  minorVersion := 0
  timestamp := 0
  prevId := nullHash
  nonce := 0
  minerTx := {}
  txHashes := []

/-- `tx_blob_entry`. -/
structure TxBlobEntry where
  blob : Blob
  prunableHash : Hash := nullHash
  deriving DecidableEq, Repr

/-- `block_complete_entry`. -/
structure BlockCompleteEntry where
  pruned : Bool := false
  block : Blob
  txs : List TxBlobEntry := []
  deriving DecidableEq, Repr

namespace TxIn

/-- The key image an input spends, when it spends one. -/
def keyImage? : TxIn → Option KeyImage
  | toKey _ _ kImage => some kImage
  | _ => none

/-- `in.type() == typeid(txin_to_key)`. -/
def isToKey : TxIn → Bool
  | toKey _ _ _ => true
  | _ => false

/-- Induction on inputs that all spend a key image. -/
theorem toKey_induction {P : ∀ ins : List TxIn, (∀ x ∈ ins, x.isToKey = true) → Prop}
    (nil : ∀ h, P [] h)
    (cons : ∀ amount offsets ki rest h h', P rest h → P (toKey amount offsets ki :: rest) h')
    (ins : List TxIn) (h : ∀ x ∈ ins, x.isToKey = true) : P ins h := by
  induction ins with
  | nil => exact nil h
  | cons x rest ih =>
    have hrest := (List.forall_mem_cons.mp h).2
    cases x with
    | toKey amount offsets ki => exact cons amount offsets ki rest hrest h (ih hrest)
    | gen | toScript | toScripthash => cases (List.forall_mem_cons.mp h).1

end TxIn

namespace Transaction

/-- The key images a transaction spends, in the order of its inputs. -/
def keyImages (tx : Transaction) : List KeyImage :=
  tx.vin.filterMap TxIn.keyImage?

end Transaction

end CocaineNode
