import CocaineNode.Core.Types
import CocaineNode.Lib.CodecWords

/-!
# RingCT Signatures on the Wire

The records of `ringct/rctTypes.h` and how they are serialised. The source has
one template for both directions, and so has the model: a `Codec` for each
record.

The RingCT part of a transaction has no length prefixes. The number of entries
of each array follows from the numbers of inputs, outputs and ring members in
the transaction prefix and from the type, so each codec takes these numbers as
arguments. Of the fields that are never serialised, the model keeps those the
parser fills in afterwards: the destinations in `outPk` and the commitments `V`
of a proof.

The sizes of proofs come from the input. `nBulletproofMaxAmountsBase` shifts by
such a size, so it returns its subtractions and shifts next to its result. The
loops over arrays compute after each entry how many are left, which decides
about a delimiter in other archives: these are `delimited`. What is not noted is
how the archive keeps count of its own bytes.

## Main definitions

* `RctSigBase`, `RctSigPrunable`: The two parts of a RingCT signature.
* `nBulletproofMaxAmountsBase`: How many amounts a proof can cover.
-/

namespace CocaineNode

open Codec

/-- `rct::key`. -/
abbrev Key := BitVec 256

/-- `rangeSig`: a `boroSig` and a `key64`, 193 keys in all. -/
abbrev RangeSig := BitVec (8 * (193 * 32))

/-- `ctkey`. -/
structure CtKey where
  dest : Key := 0
  mask : Key
  deriving DecidableEq, Repr

/-- `ecdhTuple`. -/
structure EcdhTuple where
  mask : Key := 0
  amount : Key
  deriving DecidableEq, Repr

/-- `mgSig`. -/
structure MgSig where
  ss : List (List Key)
  cc : Key
  deriving DecidableEq, Repr

/-- `clsag`. -/
structure Clsag where
  s : List Key
  c1 : Key
  D : Key
  deriving DecidableEq, Repr

/-- `Bulletproof`. -/
structure Bulletproof where
  V : List Key := []
  A : Key
  S : Key
  T1 : Key
  T2 : Key
  taux : Key
  mu : Key
  L : List Key
  R : List Key
  a : Key
  b : Key
  t : Key
  deriving DecidableEq, Repr

/-- `BulletproofPlus`. -/
structure BulletproofPlus where
  V : List Key := []
  A : Key
  A1 : Key
  B : Key
  r1 : Key
  s1 : Key
  d1 : Key
  L : List Key
  R : List Key
  deriving DecidableEq, Repr

/-- `rctSigBase`. -/
structure RctSigBase where
  type : UInt8 := 0
  pseudoOuts : List Key := []
  ecdhInfo : List EcdhTuple := []
  outPk : List CtKey := []
  txnFee : UInt64 := 0
  deriving DecidableEq, Repr

/-- `rctSigPrunable`. -/
structure RctSigPrunable where
  rangeSigs : List RangeSig := []
  bulletproofs : List Bulletproof := []
  bulletproofsPlus : List BulletproofPlus := []
  mgs : List MgSig := []
  clsags : List Clsag := []
  pseudoOuts : List Key := []
  deriving DecidableEq, Repr

/-- `rctSig`. -/
structure RctSig extends RctSigBase where
  p : RctSigPrunable := {}
  deriving DecidableEq, Repr

/-! ## Types -/

def rctTypeNull : UInt8 := 0
def rctTypeFull : UInt8 := 1
def rctTypeSimple : UInt8 := 2
def rctTypeBulletproof : UInt8 := 3
def rctTypeBulletproof2 : UInt8 := 4
def rctTypeCLSAG : UInt8 := 5
def rctTypeBulletproofPlus : UInt8 := 6

/-- The test both serialisers make of a type that is not null. -/
def isRctKnown (type : UInt8) : Bool :=
  type = rctTypeFull || type = rctTypeSimple || type = rctTypeBulletproof ||
    type = rctTypeBulletproof2 || type = rctTypeCLSAG || type = rctTypeBulletproofPlus

/-- `is_rct_simple`. -/
def isRctSimple (type : UInt8) : Bool :=
  type = rctTypeSimple || type = rctTypeBulletproof || type = rctTypeBulletproof2 ||
    type = rctTypeCLSAG || type = rctTypeBulletproofPlus

/-- `is_rct_bulletproof`. -/
def isRctBulletproof (type : UInt8) : Bool :=
  type = rctTypeBulletproof || type = rctTypeBulletproof2 || type = rctTypeCLSAG

/-- `is_rct_bulletproof_plus`. -/
def isRctBulletproofPlus (type : UInt8) : Bool :=
  type = rctTypeBulletproofPlus

/-- `is_rct_clsag`. -/
def isRctClsag (type : UInt8) : Bool :=
  type = rctTypeCLSAG || type = rctTypeBulletproofPlus

/-- `rctSig::get_pseudo_outs`. -/
def RctSig.getPseudoOuts (rv : RctSig) : List Key :=
  if isRctBulletproof rv.type || isRctBulletproofPlus rv.type then rv.p.pseudoOuts
  else rv.pseudoOuts

/-! ## How many amounts a proof can cover -/

/-- `BULLETPROOF_MAX_OUTPUTS`. -/
def bulletproofMaxOutputs : Nat := 16

/-- `BULLETPROOF_PLUS_MAX_OUTPUTS`. -/
def bulletproofPlusMaxOutputs : Nat := 16

/-- `n_bulletproof_max_amounts_base`, with the operations it performs. -/
def nBulletproofMaxAmountsBase (lSize rSize maxOutputs : Nat) : List Note × Nat :=
  let extraBits := 4
  if lSize < 6 then ([], 0)
  else if lSize ≠ rSize then ([], 0)
  else if 2 ^ extraBits ≠ maxOutputs then ([.shl 32 extraBits], 0)
  else if 6 + extraBits < lSize then ([.shl 32 extraBits], 0)
  else ([.shl 32 extraBits, .sub lSize 6, .shl 32 (lSize - 6)], 2 ^ (lSize - 6))

/-- `n_bulletproof_max_amounts` of one proof. -/
def nBulletproofMaxAmounts (proof : Bulletproof) : List Note × Nat :=
  nBulletproofMaxAmountsBase proof.L.length proof.R.length bulletproofMaxOutputs

/-- `n_bulletproof_plus_max_amounts` of one proof. -/
def nBulletproofPlusMaxAmounts (proof : BulletproofPlus) : List Note × Nat :=
  nBulletproofMaxAmountsBase proof.L.length proof.R.length bulletproofPlusMaxOutputs

/-- The loop of `n_bulletproof_max_amounts` and `n_bulletproof_plus_max_amounts` over several
    proofs, with `n` amounts so far. -/
def nMaxAmountsLoop {β : Type} (one : β → List Note × Nat) : List β → Nat → List Note × Nat
  | [], n => ([], n)
  | proof :: proofs, n =>
    let n2 := one proof
    let ops := n2.1 ++ [.sub (2 ^ 32 - 1) n]
    if ¬ n2.2 < 2 ^ 32 - 1 - n then (ops, 0)
    else if n2.2 = 0 then (ops, 0)
    else
      let r := nMaxAmountsLoop one proofs (n + n2.2)
      (ops ++ r.1, r.2)

/-! ## Serialisers -/

/-- An integer of 64 bits as a varint. -/
def varint64 : Codec UInt64 :=
  (varint 64).map (fun x => some x.toBitVec) UInt64.ofBitVec

/-- An integer of 32 bits as a varint. -/
def varint32 : Codec UInt32 :=
  (varint 32).map (fun x => some x.toBitVec) UInt32.ofBitVec

/-- An integer of 32 bits as four bytes, the lowest first. -/
def uint32 : Codec UInt32 :=
  (word 4).map (fun x => some x.toBitVec) UInt32.ofBitVec

/-- A key, and anything else of 32 bytes. -/
def key : Codec Key :=
  blob 32

/-- `serialize` of a `Bulletproof`. The commitments are not saved. -/
def serializeBulletproof : Codec Bulletproof :=
  ((key.pair <| key.pair <| key.pair <| key.pair <| key.pair <| key.pair <|
    (counted key).pair <| (counted key).pair <| key.pair <| key.pair key).map
      (fun p => some (p.A, p.S, p.T1, p.T2, p.taux, p.mu, p.L, p.R, p.a, p.b, p.t))
      fun (A, S, T1, T2, taux, mu, L, R, a, b, t) =>
        { A, S, T1, T2, taux, mu, L, R, a, b, t }).check
    (fun p => !(p.L.isEmpty || p.L.length != p.R.length)) fun _ => []

/-- `serialize` of a `BulletproofPlus`. The commitments are not saved. -/
def serializeBulletproofPlus : Codec BulletproofPlus :=
  ((key.pair <| key.pair <| key.pair <| key.pair <| key.pair <| key.pair <|
    (counted key).pair <| counted key).map
      (fun p => some (p.A, p.A1, p.B, p.r1, p.s1, p.d1, p.L, p.R))
      fun (A, A1, B, r1, s1, d1, L, R) => { A, A1, B, r1, s1, d1, L, R }).check
    (fun p => !(p.L.isEmpty || p.L.length != p.R.length)) fun _ => []

/-- From `RCTTypeBulletproof2` on, the first eight bytes of the amount are all that is saved. -/
def isEcdhTruncated (type : UInt8) : Bool :=
  type = rctTypeBulletproof2 || type = rctTypeCLSAG || type = rctTypeBulletproofPlus

/-- One entry of `ecdhInfo`. -/
def serializeEcdhInfo (type : UInt8) : Codec EcdhTuple :=
  if isEcdhTruncated type then
    (blob 8).map (fun e => some (e.amount.extractLsb' 192 64))
      fun truncAmount => { amount := BitVec.append truncAmount (0 : BitVec 192) }
  else
    (key.pair key).map (fun e => some (e.mask, e.amount)) fun (mask, amount) => { mask, amount }

/-- One entry of `outPk`, of which the mask is saved. -/
def serializeOutPk : Codec CtKey :=
  key.map (fun k => some k.mask) fun mask => { mask }

/-- `rctSigBase::serialize_rctsig_base`. -/
def serializeRctsigBase (inputs outputs : Nat) : Codec RctSigBase :=
  header byte (·.type) fun type =>
    if type = rctTypeNull then
      (absent ()).map (fun rv => if rv.type = type then some () else none) fun _ => { type }
    else if !isRctKnown type then fail
    else
      -- The pseudo outputs moved to the prunable part with bulletproofs.
      (varint64.pair <| (if type = rctTypeSimple then delimited inputs key else absent []).pair <|
        (delimited outputs (serializeEcdhInfo type)).pair (delimited outputs serializeOutPk)).map
          (fun rv => if rv.type = type then some (rv.txnFee, rv.pseudoOuts, rv.ecdhInfo, rv.outPk)
            else none)
          fun (txnFee, pseudoOuts, ecdhInfo, outPk) =>
            { type, txnFee, pseudoOuts, ecdhInfo, outPk }

/-- The proofs of a transaction. Their number is kept in 32 bits: a writer with more proofs than
    that would write the first ones. -/
def serializeProofs {β : Type} (count : Codec UInt32) (proof : Codec β)
    (maxAmounts : List β → List Note × Nat) (outputs : Nat) : Codec (List β) :=
  (header count (fun l => UInt32.ofNat l.length) fun nbp =>
    if outputs < nbp.toNat then fail
    else
      (delimited nbp.toNat proof).map
        (fun l => if UInt32.ofNat l.length = nbp then some (l.take nbp.toNat) else none)
        id).check
    (fun l => !((maxAmounts l).2 < outputs)) fun l => (maxAmounts l).1

/-- A CLSAG with a given number of scalars. -/
def serializeClsag (size : Nat) : Codec Clsag :=
  ((delimited size key).pair <| key.pair key).map (fun g => some (g.s, g.c1, g.D))
    fun (s, c1, D) => { s, c1, D }

/-- An MLSAG with a matrix of a given shape. -/
def serializeMg (rows cols : Nat) : Codec MgSig :=
  ((delimited rows (delimited cols key)).pair key).map (fun g => some (g.ss, g.cc))
    fun (ss, cc) => { ss, cc }

/-- Types with an MLSAG for each input. -/
def isMgSimple (type : UInt8) : Bool :=
  type = rctTypeSimple || type = rctTypeBulletproof || type = rctTypeBulletproof2

/-- `rctSigPrunable::serialize_rctsig_prunable`. -/
def serializeRctsigPrunable (type : UInt8) (inputs outputs mixin : Nat) : Codec RctSigPrunable :=
  if 0xffffffff ≤ inputs then fail
  else if 0xffffffff ≤ outputs then fail
  else if 0xffffffff ≤ mixin then fail
  else if type = rctTypeNull then absent {}
  else if !isRctKnown type then fail
  else
    -- One of the first three is there, and one of the two signatures.
    ((if isRctBulletproofPlus type then
        serializeProofs varint32 serializeBulletproofPlus
          (nMaxAmountsLoop nBulletproofPlusMaxAmounts · 0) outputs
      else absent []).pair <|
    (if isRctBulletproof type then
        serializeProofs (if type = rctTypeBulletproof then uint32 else varint32)
          serializeBulletproof (nMaxAmountsLoop nBulletproofMaxAmounts · 0) outputs
      else absent []).pair <|
    (if isRctBulletproofPlus type || isRctBulletproof type then absent []
      else delimited outputs (blob (193 * 32))).pair <|
    (if isRctClsag type then delimited inputs (serializeClsag (mixin + 1)) else absent []).pair <|
    (if isRctClsag type then absent []
      else delimited (if isMgSimple type then inputs else 1)
        (serializeMg (mixin + 1) ((if isMgSimple type then 1 else inputs) + 1))).pair <|
    if isRctBulletproof type || isRctBulletproofPlus type then delimited inputs key
      else absent []).map
      (fun p => some (p.bulletproofsPlus, p.bulletproofs, p.rangeSigs, p.clsags, p.mgs,
        p.pseudoOuts))
      fun (bulletproofsPlus, bulletproofs, rangeSigs, clsags, mgs, pseudoOuts) =>
        { rangeSigs, bulletproofs, bulletproofsPlus, mgs, clsags, pseudoOuts }

end CocaineNode
