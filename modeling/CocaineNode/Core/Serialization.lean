import CocaineNode.Core.RctTypes

/-!
# Transactions and Blocks on the Wire

How `cryptonote_basic.h` serialises transactions and blocks through a
`binary_archive`, what `cryptonote_format_utils.cpp` makes of a parsed
transaction, and how it derives the id of a transaction from the pieces.

Everything is in the namespace `Wire`. A `Wire.Transaction` has all that is
serialised, where a `Transaction` of the other modules keeps its signatures as
opaque bytes.

Serialising a transaction, in either direction, leaves in it the sizes of its
prefix and of the part that is not prunable. Both fields are 32 bits wide. The
flags and values that cache a hash are left out: the functions here compute
what would be cached.

A writer that fails has written something already, and `tx_to_blob` returns that.
The model returns nothing then.

## Main definitions

* `Wire.Transaction`, `Wire.Block`: What is serialised.
* `Wire.serializeTransaction`, `Wire.serializeBase`, `Wire.serializeBlock`: The formats.
-/

namespace CocaineNode

namespace Wire

open Codec

/-- `crypto::signature`. -/
abbrev Signature := BitVec 512

/-- `CURRENT_TRANSACTION_VERSION`. -/
def currentTransactionVersion : UInt64 := 2

/-- `CRYPTONOTE_MAX_TX_PER_BLOCK`. -/
def maxTxPerBlock : Nat := 0x10000000

/-- The primitives that are abstract here: `cn_fast_hash`, and `scalarmultKey` by `INV_EIGHT`. -/
structure Crypto where
  cnFastHash : Blob → Hash
  scalarmultInvEight : Key → Key

/-- `transaction_prefix`. -/
structure TransactionPrefix where
  version : UInt64 := 1
  unlockTime : UInt64 := 0
  vin : List TxIn := []
  vout : List TxOut := []
  extra : Blob := []
  deriving DecidableEq, Repr

/-- `transaction`. -/
structure Transaction extends TransactionPrefix where
  signatures : List (List Signature) := []
  rctSignatures : RctSig := {}
  pruned : Bool := false
  unprunableSize : UInt32 := 0
  prefixSize : UInt32 := 0
  deriving DecidableEq, Repr

/-- `block_header`. -/
structure BlockHeader where
  majorVersion : UInt8
  minorVersion : UInt8
  timestamp : UInt64
  prevId : Hash
  nonce : UInt32
  deriving DecidableEq, Repr

/-- `block`. -/
structure Block extends BlockHeader where
  minerTx : Transaction
  txHashes : List Hash
  deriving DecidableEq, Repr

/-! ## The transaction prefix -/

/-- The variant tag of an input. -/
def txinTag : TxIn → UInt8
  | .gen _ => 0xff
  | .toScript _ _ _ => 0
  | .toScripthash _ _ _ _ _ => 1
  | .toKey _ _ _ => 2

/-- `serialize` of a `txin_v`. -/
def serializeTxin : Codec TxIn :=
  header byte txinTag fun tag =>
    if tag = 0xff then
      varint64.map (fun i => match i with | .gen height => some height | _ => none) .gen
    else if tag = 0 then
      (key.pair <| varint64.pair <| counted byte).map
        (fun i => match i with
          | .toScript prev prevout sigset => some (prev, prevout, sigset)
          | _ => none)
        fun (prev, prevout, sigset) => .toScript prev prevout sigset
    else if tag = 1 then
      (key.pair <| varint64.pair <| (counted key).pair <| (counted byte).pair <|
        counted byte).map
        (fun i => match i with
          | .toScripthash prev prevout keys script sigset =>
            some (prev, prevout, keys, script, sigset)
          | _ => none)
        fun (prev, prevout, keys, script, sigset) => .toScripthash prev prevout keys script sigset
    else if tag = 2 then
      (varint64.pair <| (counted varint64).pair key).map
        (fun i => match i with
          | .toKey amount keyOffsets kImage => some (amount, keyOffsets, kImage)
          | _ => none)
        fun (amount, keyOffsets, kImage) => .toKey amount keyOffsets kImage
    else fail

/-- The variant tag of an output's target. -/
def txoutTag : TxOutTarget → UInt8
  | .toScript _ _ => 0
  | .toScripthash _ => 1
  | .toKey _ => 2
  | .toTaggedKey _ _ => 3

/-- `serialize` of a `txout_target_v`. -/
def serializeTxoutTarget : Codec TxOutTarget :=
  header byte txoutTag fun tag =>
    if tag = 0 then
      ((counted key).pair <| counted byte).map
        (fun t => match t with | .toScript keys script => some (keys, script) | _ => none)
        fun (keys, script) => .toScript keys script
    else if tag = 1 then
      key.map (fun t => match t with | .toScripthash hash => some hash | _ => none) .toScripthash
    else if tag = 2 then
      key.map (fun t => match t with | .toKey key => some key | _ => none) .toKey
    else if tag = 3 then
      (key.pair byte).map
        (fun t => match t with | .toTaggedKey key viewTag => some (key, viewTag) | _ => none)
        fun (key, viewTag) => .toTaggedKey key viewTag
    else fail

/-- `serialize` of a `tx_out`. -/
def serializeTxout : Codec TxOut :=
  (varint64.pair serializeTxoutTarget).map (fun o => some (o.amount, o.target))
    fun (amount, target) => { amount, target }

/-- `serialize` of a `transaction_prefix`. -/
def serializePrefix : Codec TransactionPrefix :=
  ((varint64.check (fun v => !(v == 0 || currentTransactionVersion < v)) fun _ => []).pair <|
    varint64.pair <| (counted serializeTxin).pair <| (counted serializeTxout).pair <|
    counted byte).map
    (fun t => some (t.version, t.unlockTime, t.vin, t.vout, t.extra))
    fun (version, unlockTime, vin, vout, extra) => { version, unlockTime, vin, vout, extra }

/-! ## The rest of a transaction -/

/-- `get_signature_size`. -/
def getSignatureSize : TxIn → Nat
  | .toKey _ keyOffsets _ => keyOffsets.length
  | _ => 0

/-- `serialize` of a `signature`. -/
def signature : Codec Signature :=
  blob 64

/-- The signatures of one input, without a count. -/
def serializeRingSignature (i : TxIn) : Codec (List Signature) :=
  atLeast (getSignatureSize i * 64) (array (getSignatureSize i) signature)

/-- The loop over the inputs of version 1, which computes after each one how many are left. -/
def serializeRingSignatures (vin : List TxIn) : Codec (List (List Signature)) :=
  forEach (fun p => (serializeRingSignature p.1).check (fun _ => true)
    fun _ => [.sub vin.length p.2]) vin.zipIdx

/-- The `signatures` of a transaction of version 1. A transaction none of whose inputs is signed
    need not have a list for each of them; it is read back with empty lists. -/
def serializeSignatures (vin : List TxIn) : Codec (List (List Signature)) :=
  (serializeRingSignatures vin).map
    (fun l => some (if l.isEmpty then List.replicate vin.length [] else l)) id

/-- The number of ring members of the first input, less one. The subtraction is of a `size_t`. -/
def mixin : List TxIn → Nat
  | .toKey _ keyOffsets _ :: _ => (keyOffsets.length + (2 ^ 64 - 1)) % 2 ^ 64
  | _ => 0

/-- The subtraction `mixin` makes. -/
def mixinOps : List TxIn → List Note
  | .toKey _ keyOffsets _ :: _ => [.sub keyOffsets.length 1]
  | _ => []

/-- The prunable part of a transaction with inputs, behind its base. -/
def serializePrunable (p : TransactionPrefix) (type : UInt8) : Codec RctSigPrunable :=
  if type = rctTypeNull then absent {}
  else noting (mixinOps p.vin)
    (serializeRctsigPrunable type p.vin.length p.vout.length (mixin p.vin))

/-- What follows the prefix: signatures in version 1, else the two parts of a RingCT signature,
    the first with its size. -/
def serializeTail (p : TransactionPrefix) :
    Codec (List (List Signature) × (RctSigBase × Nat) × RctSigPrunable) :=
  if p.version = 1 then (serializeSignatures p.vin).pair (absent (({}, 0), {}))
  else if p.vin.isEmpty then absent ([], ({}, 0), {})
  else (absent []).pair <|
    (measured (serializeRctsigBase p.vin.length p.vout.length)).seq fun b =>
      serializePrunable p b.1.type

/-- `unprunable_size` after a prefix and a base of given sizes, if it is set. -/
def unprunableSizeAfter (t : TransactionPrefix) (old : UInt32) (prefixSize baseSize : Nat) :
    UInt32 :=
  if t.version = 1 then UInt32.ofNat prefixSize
  else if t.vin.isEmpty then old
  else UInt32.ofNat (prefixSize + baseSize)

/-- `serialize` of a `transaction` that is not pruned. -/
def serializeTransaction : Codec Transaction :=
  ((measured serializePrefix).seq fun p => serializeTail p.1).map
    (fun t => if t.pruned then none
      else some ((t.toTransactionPrefix, 0), t.signatures, (t.rctSignatures.toRctSigBase, 0),
        t.rctSignatures.p))
    fun ((p, k), signatures, (base, m), prunable) =>
      { p with
        signatures
        rctSignatures := { base with p := prunable }
        unprunableSize := unprunableSizeAfter p 0 k m
        prefixSize := UInt32.ofNat k }

/-- `transaction::serialize_base`. -/
def serializeBase : Codec Transaction :=
  (serializePrefix.seq fun p =>
    if p.version = 1 ∨ p.vin.isEmpty then absent {}
    else serializeRctsigBase p.vin.length p.vout.length).map
    (fun t => some (t.toTransactionPrefix, t.rctSignatures.toRctSigBase))
    fun (p, base) =>
      { p with
        rctSignatures := { base with }
        pruned := true }

/-- `tx_to_blob`. A pruned transaction is written up to its base. -/
def txToBlob (t : Transaction) : Option Blob :=
  if t.pruned then
    if t.version = 1 ∧ t.signatures ≠ [] ∧ t.vin.length ≠ t.signatures.length then none
    else serializeBase.write t
  else serializeTransaction.write t

/-- What writing a transaction leaves in `prefix_size` and `unprunable_size`. -/
def Transaction.saved (t : Transaction) : Transaction :=
  { t with
    prefixSize := UInt32.ofNat (serializePrefix.size t.toTransactionPrefix)
    unprunableSize := unprunableSizeAfter t.toTransactionPrefix t.unprunableSize
      (serializePrefix.size t.toTransactionPrefix)
      ((serializeRctsigBase t.vin.length t.vout.length).size t.rctSignatures.toRctSigBase) }

/-! ## Blocks -/

/-- `serialize` of a `block_header`. -/
def serializeBlockHeader : Codec BlockHeader :=
  (((varint 8).map (fun x => some x.toBitVec) UInt8.ofBitVec).pair <|
    ((varint 8).map (fun x => some x.toBitVec) UInt8.ofBitVec).pair <|
    varint64.pair <| key.pair uint32).map
    (fun b => some (b.majorVersion, b.minorVersion, b.timestamp, b.prevId, b.nonce))
    fun (majorVersion, minorVersion, timestamp, prevId, nonce) =>
      { majorVersion, minorVersion, timestamp, prevId, nonce }

/-- The ids behind the miner transaction. -/
def serializeTxHashes : Codec (List Hash) :=
  (counted key).check (fun l => !(maxTxPerBlock < l.length)) fun _ => []

/-- `serialize` of a `block` whose miner transaction is not pruned. -/
def serializeBlock : Codec Block :=
  (serializeBlockHeader.pair <| serializeTransaction.pair serializeTxHashes).map
    (fun b => some (b.toBlockHeader, b.minerTx, b.txHashes))
    fun (h, minerTx, txHashes) => { h with minerTx, txHashes }

/-- `block_to_blob`. -/
def blockToBlob (b : Block) : Option Blob := do
  let h ← serializeBlockHeader.write b.toBlockHeader
  let t ← txToBlob b.minerTx
  let l ← serializeTxHashes.write b.txHashes
  return h ++ (t ++ l)

/-- `parse_and_validate_block_from_blob`, with what the archive did. -/
def parseAndValidateBlockFromBlob (blob : Blob) : List Note × Option Block :=
  let o := serializeBlock.read blob
  match o.value with
  | some (b, []) => (o.notes, some b)
  | _ => (o.notes, none)

/-! ## What parsing fills in -/

/-- `is_coinbase`. -/
def Transaction.isCoinbase (t : Transaction) : Bool :=
  match t.vin with
  | [.gen _] => true
  | _ => false

/-- The loop of `expand_transaction_1` that sets the destinations in `outPk`. -/
def fillDests : List CtKey → List TxOut → Option (List CtKey)
  | k :: ks, o :: os => do
      let outputPublicKey ← o.target.publicKey?
      let rest ← fillDests ks os
      return { k with dest := outputPublicKey } :: rest
  | _, _ => some []

/-- `expand_transaction_1`, with the operations it performs. -/
def expandTransaction1 (C : Crypto) (tx : Transaction) (baseOnly : Bool) :
    List Note × Option Transaction :=
  let rv := tx.rctSignatures
  if ¬ (2 ≤ tx.version ∧ ¬ tx.isCoinbase) then ([], some tx)
  else if rv.type = rctTypeNull then ([], some tx)
  else if rv.outPk.length ≠ tx.vout.length then ([], none)
  else
    match fillDests rv.outPk tx.vout with
    | none => ([], none)
    | some outPk =>
      let rv := { rv with outPk }
      let V := outPk.map fun k => C.scalarmultInvEight k.mask
      if baseOnly then ([], some { tx with rctSignatures := rv })
      else if isRctBulletproofPlus rv.type then
        match rv.p.bulletproofsPlus with
        | [proof] =>
          if proof.L.length < 6 then ([], none)
          else
            let maxOutputs := nBulletproofPlusMaxAmounts proof
            if maxOutputs.2 < tx.vout.length then (maxOutputs.1, none)
            else (maxOutputs.1, some { tx with
              rctSignatures.toRctSigBase := rv.toRctSigBase
              rctSignatures.p.bulletproofsPlus := [{ proof with V }] })
        | _ => ([], none)
      else if isRctBulletproof rv.type then
        match rv.p.bulletproofs with
        | [proof] =>
          if proof.L.length < 6 then ([], none)
          else
            let ops : List Note := [.sub proof.L.length 6, .shl 32 (proof.L.length - 6)]
            let maxOutputs := 2 ^ (proof.L.length - 6)
            if maxOutputs < tx.vout.length then (ops, none)
            else (ops, some { tx with
              rctSignatures.toRctSigBase := rv.toRctSigBase
              rctSignatures.p.bulletproofs := [{ proof with V }] })
        | _ => ([], none)
      else ([], some { tx with rctSignatures := rv })

/-- `parse_and_validate_tx_from_blob`, with what the archive and the expansion did. -/
def parseAndValidateTxFromBlob (C : Crypto) (blob : Blob) : List Note × Option Transaction :=
  let o := serializeTransaction.read blob
  match o.value with
  | some (tx, []) =>
    let r := expandTransaction1 C tx false
    (o.notes ++ r.1, r.2)
  | _ => (o.notes, none)

/-- `parse_and_validate_tx_base_from_blob`. What follows the base is not looked at. -/
def parseAndValidateTxBaseFromBlob (C : Crypto) (blob : Blob) : Option Transaction :=
  match (serializeBase.read blob).value with
  | some (tx, _) => (expandTransaction1 C tx true).2
  | none => none

/-! ## Ids -/

/-- The 32 bytes of a hash. -/
def hashBytes (h : Hash) : Blob :=
  (littleEndian 32 h.toNat).reverse

/-- The hash of three hashes. -/
def hashOfThree (C : Crypto) (h0 h1 h2 : Hash) : Hash :=
  C.cnFastHash (hashBytes h0 ++ hashBytes h1 ++ hashBytes h2)

/-- `get_transaction_prefix_hash`. -/
def getTransactionPrefixHash (C : Crypto) (t : TransactionPrefix) : Hash :=
  C.cnFastHash ((serializePrefix.write t).getD [])

/-- `calculate_transaction_prunable_hash`: cut from a blob, or serialised again. -/
def calculateTransactionPrunableHash (C : Crypto) (t : Transaction) (blob : Option Blob) :
    Option Hash :=
  if t.version = 1 then none
  else
    let again : Option Hash :=
      ((serializeRctsigPrunable t.rctSignatures.type t.vin.length t.vout.length
        (mixin t.vin)).write t.rctSignatures.p).map C.cnFastHash
    match blob with
    | some blob =>
      if t.unprunableSize = 0 then again
      else if t.unprunableSize.toNat ≤ blob.length then
        some (C.cnFastHash (blob.drop t.unprunableSize.toNat))
      else none
    | none => again

/-- `get_pruned_transaction_hash`. -/
def getPrunedTransactionHash (C : Crypto) (t : Transaction) (prunedDataHash : Hash) : Option Hash :=
  if ¬ 1 < t.version then none
  else
    ((serializeRctsigBase t.vin.length t.vout.length).write t.rctSignatures.toRctSigBase).map
      fun base =>
        hashOfThree C (getTransactionPrefixHash C t.toTransactionPrefix) (C.cnFastHash base)
          (if t.rctSignatures.type = rctTypeNull then nullHash else prunedDataHash)

/-- `calculate_transaction_hash`. -/
def calculateTransactionHash (C : Crypto) (t : Transaction) : Option Hash :=
  if t.pruned then none
  else if t.version = 1 then (txToBlob t).map C.cnFastHash
  else
    -- Writing the blob is what sets the sizes it is cut by.
    (txToBlob t).bind fun blob =>
      let prefixSize := t.saved.prefixSize.toNat
      let unprunableSize := t.saved.unprunableSize.toNat
      if prefixSize ≤ unprunableSize ∧ unprunableSize ≤ blob.length then
        let base := (blob.drop prefixSize).take (unprunableSize - prefixSize)
        let prunable := if t.rctSignatures.type = rctTypeNull then some nullHash
          else calculateTransactionPrunableHash C t.saved (some blob)
        prunable.map fun h =>
          hashOfThree C (getTransactionPrefixHash C t.toTransactionPrefix) (C.cnFastHash base) h
      else none

end Wire

end CocaineNode
