import CocaineNode.Core.Db
import CocaineNode.Core.LongHash
import CocaineNode.Core.Reward

/-!
# Transaction Checks

The rules a transaction has to meet on its own (`ver_non_input_consensus` and
`core::check_tx_semantic`) and against the chain
(`Blockchain::check_tx_inputs`). Serialisation, hashing, curve arithmetic and
signature verification are the fields of `Externals`: every function of the
model takes one and says nothing about it.

`check_tx_inputs` reads the outputs of the rings from the database. That part,
with the ring signatures, is abstract as well; the checks on the inputs
themselves (their type, their order, their key images) are modelled.

## Main definitions

* `Tvc`: `tx_verification_context`.
* `Externals`: The abstract operations.
-/

namespace CocaineNode

/-- `relay_method`, in the order of the source. -/
inductive RelayMethod where
  | none
  | loc
  | forward
  | stem
  | fluff
  | block
  deriving DecidableEq, Repr

namespace RelayMethod

/-- The underlying integer, by which methods are compared. -/
def rank : RelayMethod → Nat
  | none => 0
  | loc => 1
  | forward => 2
  | stem => 3
  | fluff => 4
  | block => 5

end RelayMethod

/-- `tx_verification_context`. -/
structure Tvc where
  relay : RelayMethod := .none
  verifivationFailed : Bool := false
  noDropOffense : Bool := false
  verifivationImpossible : Bool := false
  addedToPool : Bool := false
  lowMixin : Bool := false
  doubleSpend : Bool := false
  invalidInput : Bool := false
  invalidOutput : Bool := false
  tooBig : Bool := false
  overspend : Bool := false
  feeTooLow : Bool := false
  tooFewOutputs : Bool := false
  txExtraTooBig : Bool := false
  nonzeroUnlockTime : Bool := false
  deriving DecidableEq, Repr

/-- What the model does not look into. A parser may also leave by an exception: expanding a
    transaction multiplies its commitments, which throws when one is not a point, and a log message
    about an output without a key asks for the hash of a transaction that has none. The parsers are
    any functions here; `Wire` has those of the source, on all the fields of the format. -/
structure Externals extends SlowHashes where
  seedEnv : SeedEnv
  blockHash : Block → Hash
  parseBlock : Blob → Option Block
  txHash : Transaction → Hash
  txPrefixHash : Transaction → Hash
  prunedTxHash : Transaction → Hash → Hash
  txToBlob : Transaction → Blob
  parseTx : Blob → Option Transaction
  parseTxBase : Blob → Option Transaction
  parseTxPrefix : Blob → Option Transaction
  parseTxThrows : Blob → Bool
  parseTxBaseThrows : Blob → Bool
  txWeight : Transaction → Nat → UInt64
  prunedTxWeight : Transaction → UInt64
  checkKey : PublicKey → Bool
  keyImageInDomain : KeyImage → Bool
  outPkSize : Transaction → Nat
  outPkMask : Transaction → Nat → Hash
  zeroCommit : UInt64 → Hash
  checkTxOutputs : Transaction → Tvc → UInt8 → Bool × Tvc
  verMixedRctSemantics : List Transaction → Bool
  checkMixins : BlockchainDB → UInt8 → Transaction → Tvc → Bool × Tvc
  checkTxInput : BlockchainDB → UInt8 → Transaction → Nat → Nat → Option Nat
  checkSignatures : BlockchainDB → UInt8 → Transaction → Nat → Bool
  checkFee : BlockchainDB → UInt8 → UInt64 → UInt64 → Bool
  feeRate : UInt64 → UInt64 → UInt64

/-- A transaction that is all in its blob: the last byte is its key image. -/
def sampleTx (blob : Blob) : Transaction where
  version := 2
  vin := [.toKey 0 [1] (BitVec.ofNat 256 (blob.getLastD 0).toNat)]
  extra := blob

/-- A block that is all in its blob: the id of its parent, then its nonce. -/
def sampleBlock (blob : Blob) : Block :=
  { Block.null with
    prevId := BitVec.ofNat 256 (blob.headD 0).toNat
    nonce := (blob.getLastD 0).toUInt32 }

/-- An interpretation under which every abstract check passes, for concrete runs. A block is
    identified by its nonce. Blocks and transactions are read back with `sampleBlock` and
    `sampleTx`. -/
def Externals.sample : Externals where
  hashingBlob b := [b.nonce.toUInt8]
  rxSlowHash _ _ := 0
  cnSlowHash _ _ _ := 0
  seedEnv := ⟨none, none⟩
  blockHash b := BitVec.ofNat 256 (b.nonce.toNat + 1)
  parseBlock blob := some (sampleBlock blob)
  txHash tx := BitVec.ofNat 256 (tx.extra.foldl (fun n c => 256 * n + c.toNat) 1)
  txPrefixHash tx := BitVec.ofNat 256 (tx.extra.foldl (fun n c => 256 * n + c.toNat) 1)
  prunedTxHash tx _ := BitVec.ofNat 256 (tx.extra.foldl (fun n c => 256 * n + c.toNat) 1)
  txToBlob tx := tx.extra
  parseTx blob := some (sampleTx blob)
  parseTxBase blob := some (sampleTx blob)
  parseTxPrefix blob := some (sampleTx blob)
  parseTxThrows _ := false
  parseTxBaseThrows _ := false
  txWeight _ size := UInt64.ofNat size
  prunedTxWeight _ := 1
  checkKey _ := true
  keyImageInDomain _ := true
  outPkSize tx := tx.vout.length
  outPkMask _ _ := 0
  zeroCommit _ := 0
  checkTxOutputs _ tvc _ := (true, tvc)
  verMixedRctSemantics _ := true
  checkMixins _ _ _ tvc := (true, tvc)
  checkTxInput _ _ _ _ maxHeight := some maxHeight
  checkSignatures _ _ _ _ := true
  checkFee _ _ _ _ := true
  feeRate fee weight := fee / weight

/-- What the pool and the checks see of the chain: the database, the version in force, and
    how many heights have a compiled-in block hash. -/
structure ChainView where
  db : BlockchainDB
  version : UInt8
  hashCheckSize : Nat

/-! ## Amounts -/

/-- The running sum of amounts with the overflow test of `check_outs_overflow`, which
    compares the sum before and after each addition. -/
def sumNoOverflow (money : UInt64) : List UInt64 → Bool
  | [] => true
  | a :: rest => if money > a + money then false else sumNoOverflow (money + a) rest

namespace Transaction

def outsMoneyAmount (tx : Transaction) : UInt64 :=
  (tx.vout.map TxOut.amount).foldl (· + ·) 0

def checkOutsOverflow (tx : Transaction) : Bool :=
  sumNoOverflow 0 (tx.vout.map TxOut.amount)

/-- The amounts of the inputs, when all of them are `txin_to_key`. -/
def inputAmounts? (tx : Transaction) : Option (List UInt64) :=
  tx.vin.mapM fun
    | .toKey amount _ _ => some amount
    | _ => none

def checkInputsOverflow (tx : Transaction) : Bool :=
  match tx.inputAmounts? with
  | some amounts => sumNoOverflow 0 amounts
  | none => false

/-- `get_tx_fee(tx)`: a fee that cannot be computed counts as 0. -/
def fee (tx : Transaction) : UInt64 :=
  if tx.version > 1 then tx.txnFee
  else
    match tx.inputAmounts? with
    | none => 0
    | some amounts =>
      let amountIn := amounts.foldl (· + ·) 0
      let amountOut := tx.outsMoneyAmount
      if amountIn ≥ amountOut then amountIn - amountOut else 0

/-! ## Inputs -/

def checkInputsTypesSupported (tx : Transaction) : Bool :=
  tx.vin.all TxIn.isToKey

/-- `check_tx_inputs_keyimages_diff`, with the images seen so far. -/
def keyimagesDiffFrom (seen : List KeyImage) : List TxIn → Bool
  | [] => true
  | .toKey _ _ ki :: rest => if ki ∈ seen then false else keyimagesDiffFrom (ki :: seen) rest
  | _ :: _ => false

def checkTxInputsKeyimagesDiff (tx : Transaction) : Bool :=
  keyimagesDiffFrom [] tx.vin

/-- `check_tx_inputs_ring_members_diff`: from version 6 no offset but the first is 0. -/
def checkTxInputsRingMembersDiff (tx : Transaction) (hfVersion : UInt8) : Bool :=
  if hfVersion ≥ 6 then
    tx.vin.all fun
      | .toKey _ keyOffsets _ => keyOffsets.tail.all (· ≠ 0)
      | _ => false
  else true

def checkTxInputsKeyimagesDomain (E : Externals) (tx : Transaction) : Bool :=
  tx.vin.all fun
    | .toKey _ _ ki => E.keyImageInDomain ki
    | _ => false

/-! ## Outputs -/

def checkOutsValid (E : Externals) (tx : Transaction) : Bool :=
  tx.vout.all fun out =>
    match out.target with
    | .toKey key => (tx.version ≠ 1 || 0 < out.amount) && E.checkKey key
    | .toTaggedKey key _ => (tx.version ≠ 1 || 0 < out.amount) && E.checkKey key
    | _ => false

end Transaction

/-- `o.target.type() == typeid(txout_to_key)`. -/
def TxOutTarget.isToKey : TxOutTarget → Bool
  | .toKey _ => true
  | _ => false

/-- `o.target.type() == typeid(txout_to_tagged_key)`. -/
def TxOutTarget.isToTaggedKey : TxOutTarget → Bool
  | .toTaggedKey _ _ => true
  | _ => false

/-- `check_output_types`. At version 15 both kinds are allowed, but not mixed. -/
def Transaction.checkOutputTypes (tx : Transaction) (hfVersion : UInt8) : Bool :=
  if hfVersion > 15 then tx.vout.all fun o => o.target.isToTaggedKey
  else if hfVersion < 15 then tx.vout.all fun o => o.target.isToKey
  else tx.vout.all (fun o => o.target.isToKey) || tx.vout.all (fun o => o.target.isToTaggedKey)

/-! ## Rules that need no chain -/

/-- `core::check_tx_semantic`: each failed check sets its own flags. -/
def checkTxSemantic (E : Externals) (tx : Transaction) (tvc : Tvc) (hfVersion : UInt8) :
    Bool × Tvc :=
  let badInput := { tvc with verifivationFailed := true, invalidInput := true }
  let badOutput := { tvc with verifivationFailed := true, invalidOutput := true }
  let overspent := { tvc with verifivationFailed := true, overspend := true }
  if tx.vin = [] then (false, badInput)
  else if !tx.checkInputsTypesSupported then (false, badInput)
  else if !tx.checkOutsValid E then (false, badOutput)
  else if tx.version > 1 && E.outPkSize tx ≠ tx.vout.length then (false, badOutput)
  else if !(tx.checkInputsOverflow && tx.checkOutsOverflow) then (false, overspent)
  else if tx.version = 1 &&
      (tx.inputAmounts?.getD []).foldl (· + ·) 0 ≤ tx.outsMoneyAmount then (false, overspent)
  else if !tx.checkTxInputsKeyimagesDiff then (false, badInput)
  else if !tx.checkTxInputsRingMembersDiff hfVersion then (false, badInput)
  else if !tx.checkTxInputsKeyimagesDomain E then (false, badInput)
  else if !tx.checkOutputTypes hfVersion then (false, badOutput)
  else (true, tvc)

/-- `get_transaction_weight_limit`. -/
def transactionWeightLimit (hfVersion : UInt8) : UInt64 :=
  if hfVersion ≥ 8 then getMinBlockWeight hfVersion / 2 - 600
  else getMinBlockWeight hfVersion - 600

/-- Rules 1 to 6 of `ver_non_input_consensus` for one transaction. -/
def verNonInputRules (E : Externals) (tx : Transaction) (tvc : Tvc) (hfVersion : UInt8) :
    Bool × Tvc :=
  let blobSize := (E.txToBlob tx).length
  let maxTxVersion : UInt64 := if hfVersion < 4 then 1 else 2
  if blobSize > 1000000 then (false, { tvc with verifivationFailed := true, tooBig := true })
  else if tx.version = 0 || tx.version > maxTxVersion then
    (false, { tvc with verifivationFailed := true })
  else if hfVersion ≥ 8 && E.txWeight tx blobSize > transactionWeightLimit hfVersion then
    (false, { tvc with verifivationFailed := true, tooBig := true })
  else
    let semantic := checkTxSemantic E tx tvc hfVersion
    if !semantic.1 then semantic
    else
      let outputs := E.checkTxOutputs tx semantic.2 hfVersion
      (outputs.1 && !outputs.2.verifivationFailed, outputs.2)

/-- The loop of `ver_non_input_consensus_templated`. -/
def verNonInputLoop (E : Externals) (hfVersion : UInt8) : List Transaction → Tvc → Bool × Tvc
  | [], tvc => (true, tvc)
  | tx :: rest, tvc =>
    let r := verNonInputRules E tx tvc hfVersion
    if r.1 then verNonInputLoop E hfVersion rest r.2 else r

/-- `ver_non_input_consensus` of a list of transactions. -/
def verNonInputConsensus (E : Externals) (txs : List Transaction) (tvc : Tvc) (hfVersion : UInt8) :
    Bool × Tvc :=
  let r := verNonInputLoop E hfVersion txs tvc
  if !r.1 then r
  else if !E.verMixedRctSemantics (txs.filter fun tx => tx.version ≥ 2) then
    (false, { r.2 with verifivationFailed := true, invalidInput := true })
  else (true, r.2)

/-! ## Rules against a chain -/

/-- From version 7 the key images of a transaction decrease strictly. -/
def sortedIns : List KeyImage → Bool
  | [] => true
  | [_] => true
  | a :: b :: rest => b < a && sortedIns (b :: rest)

/-- The loop of `check_tx_inputs` over the inputs, with the position reached and the largest
    height used so far. -/
def checkInputsLoop (E : Externals) (v : ChainView) (tx : Transaction) :
    List TxIn → Nat → Nat → Tvc → Bool × Tvc × Nat
  | [], _, maxHeight, tvc => (true, tvc, maxHeight)
  | .toKey _ keyOffsets ki :: rest, i, maxHeight, tvc =>
    if keyOffsets = [] then (false, tvc, maxHeight)
    else if v.db.hasKeyImage ki then (false, { tvc with doubleSpend := true }, maxHeight)
    else
      match E.checkTxInput v.db v.version tx i maxHeight with
      | none => (false, tvc, maxHeight)
      | some maxHeight' => checkInputsLoop E v tx rest (i + 1) maxHeight' tvc
  | _ :: _, _, maxHeight, tvc => (false, tvc, maxHeight)

/-- `check_tx_inputs(tx, tvc, &max_used_block_height)`. -/
def checkTxInputsCore (E : Externals) (v : ChainView) (tx : Transaction) (tvc : Tvc) :
    Bool × Tvc × Nat :=
  let mixins := E.checkMixins v.db v.version tx tvc
  if !mixins.1 then (false, mixins.2, 0)
  else if v.version ≥ 7 && !sortedIns tx.keyImages then
    (false, { mixins.2 with verifivationFailed := true }, 0)
  else
    let r := checkInputsLoop E v tx tx.vin 0 0 mixins.2
    if !r.1 then r
    else (E.checkSignatures v.db v.version tx r.2.2, r.2)

/-- What `check_tx_inputs` gives its caller. -/
structure InputCheck where
  ok : Bool
  tvc : Tvc
  maxUsedBlockHeight : Nat
  maxUsedBlockId : Hash
  deriving DecidableEq, Repr

/-- `check_tx_inputs(tx, max_used_block_height, max_used_block_id, tvc, kept_by_block)`. Below
    the compiled-in hashes a transaction of a block is not checked. -/
def checkTxInputs (E : Externals) (v : ChainView) (tx : Transaction) (tvc : Tvc)
    (maxUsedBlockId : Hash) (keptByBlock : Bool) : InputCheck :=
  if v.db.height < v.hashCheckSize && keptByBlock then ⟨true, tvc, 0, nullHash⟩
  else
    let r := checkTxInputsCore E v tx tvc
    if !r.1 then ⟨false, r.2.1, r.2.2, maxUsedBlockId⟩
    else if r.2.2 < v.db.height then ⟨true, r.2.1, r.2.2, v.db.blockIdByHeight r.2.2⟩
    else ⟨false, r.2.1, r.2.2, maxUsedBlockId⟩

end CocaineNode
