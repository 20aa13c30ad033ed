import CocaineNode.Core.TxChecks

/-!
# Outputs and Rings

The outputs of the chain by amount, and how an input names some of them.

The table of outputs is not kept apart in the database. An output is filed
under its amount when its block is added, after all earlier ones, so the table
is a function of the stored blocks (`BlockchainDB.outputs`).

An input gives its ring as a first index and the distances from each index to
the next, in 64-bit words. `relative_output_offsets_to_absolute` adds them up,
and `scan_outputkeys_for_indexes` looks the members up and hands them to a
visitor, from a table that was filled beforehand for the blocks being prepared
or from the database.

## Main definitions

* `OutputData`: What the database keeps of an output.
* `BlockchainDB.outputs`: The outputs filed under an amount.
-/

namespace CocaineNode

/-- `output_data_t`. -/
structure OutputData where
  pubkey : PublicKey
  unlockTime : UInt64
  height : Nat
  commitment : Hash
  deriving DecidableEq, Repr

namespace Transaction

/-- `miner_tx` of `add_transaction`: some input is `txin_gen`. -/
def hasGenInput (tx : Transaction) : Bool :=
  tx.vin.any fun
    | .gen _ => true
    | _ => false

/-- The outputs of a transaction of the block at `height`, each with the amount it is filed
    under. Those of a miner transaction of version 2 go under 0, with a commitment to the
    amount. -/
def storedOutputs (E : Externals) (tx : Transaction) (height : Nat) : List (UInt64 × OutputData) :=
  tx.vout.mapIdx fun i out =>
    let hidden : Bool := tx.hasGenInput && tx.version = 2
    let commitment := if hidden || out.amount ≠ 0 then E.zeroCommit out.amount else E.outPkMask tx i
    (if hidden then 0 else out.amount,
      { pubkey := out.target.publicKey?.getD 0, unlockTime := tx.unlockTime, height, commitment })

end Transaction

/-- The outputs of a block that are filed under an amount. -/
def StoredBlock.outputs (E : Externals) (b : StoredBlock) (height : Nat) (amount : UInt64) :
    List OutputData :=
  ((b.block.minerTx :: b.txs.map Prod.fst).flatMap fun tx => tx.storedOutputs E height).filterMap
    fun e => if e.1 = amount then some e.2 else none

namespace BlockchainDB

/-- The outputs of blocks from a height on that are filed under an amount. -/
def outputsFrom (E : Externals) (amount : UInt64) : Nat → List StoredBlock → List OutputData
  | _, [] => []
  | height, b :: rest => b.outputs E height amount ++ outputsFrom E amount (height + 1) rest

/-- The outputs filed under an amount. Index in the list is the index of the output. -/
def outputs (E : Externals) (db : BlockchainDB) (amount : UInt64) : List OutputData :=
  outputsFrom E amount 0 db.blocks

/-- `get_output_key` of one output; `none` when it throws `OUTPUT_DNE`. -/
def getOutputKey (E : Externals) (db : BlockchainDB) (amount index : UInt64) : Option OutputData :=
  (db.outputs E amount)[index.toNat]?

/-- `get_output_key` of several outputs with `allow_partial`: those before the first that does not
    exist. -/
def getOutputKeys (E : Externals) (db : BlockchainDB) (amount : UInt64) :
    List UInt64 → List OutputData
  | [] => []
  | index :: rest =>
    match db.getOutputKey E amount index with
    | none => []
    | some o => o :: getOutputKeys E db amount rest

end BlockchainDB

/-! ## Rings -/

/-- `relative_output_offsets_to_absolute`: every entry but the first is raised by the one before
    it, in 64-bit arithmetic. -/
def relativeOutputOffsetsToAbsolute : List UInt64 → List UInt64
  | [] => []
  | first :: rest => first :: raise first rest
where
  raise (previous : UInt64) : List UInt64 → List UInt64
    | [] => []
    | offset :: rest => (offset + previous) :: raise (offset + previous) rest

/-- `txin_to_key`. -/
structure TxInToKey where
  amount : UInt64
  keyOffsets : List UInt64
  kImage : KeyImage
  deriving DecidableEq, Repr

/-- The table of outputs looked up beforehand: by prefix hash, then by key image. -/
abbrev ScanTable := AList fun _ : Hash => AList fun _ : KeyImage => List OutputData

/-- `handle_output` of a visitor: whether it takes the output, and its new state. -/
abbrev Visitor (σ : Type) := σ → UInt64 → PublicKey → Hash → Bool × σ

section Scan

variable {σ : Type} (E : Externals) (db : BlockchainDB)

/-- The outputs `scan_outputkeys_for_indexes` starts from; `none` when it returns false before it
    visits any. Entries of the table may cover a part of the ring only. -/
def scannedOutputs (table : ScanTable) (txPrefixHash : Hash) (input : TxInToKey)
    (absoluteOffsets : List UInt64) : Option (List OutputData) :=
  match (table.lookup txPrefixHash).bind fun t => t.lookup input.kImage with
  | none =>
    let outputs := db.getOutputKeys E input.amount absoluteOffsets
    if absoluteOffsets.length ≠ outputs.length then none else some outputs
  | some outputs =>
    if outputs.length < absoluteOffsets.length ∧ 0 < outputs.length then
      let addOffsets := absoluteOffsets.drop outputs.length
      let addOutputs := db.getOutputKeys E input.amount addOffsets
      if addOffsets.length ≠ addOutputs.length then none else some (outputs ++ addOutputs)
    else some outputs

/-- The loop over the ring. The related height is raised at the last member only. -/
def scanLoop (vis : Visitor σ) (amount : UInt64) (outputs : List OutputData) (size : Nat) :
    List UInt64 → Nat → σ → Option Nat → Bool × σ × Option Nat
  | [], _, state, related => (true, state, related)
  | index :: rest, count, state, related =>
    match if count < outputs.length then outputs[count]? else db.getOutputKey E amount index with
    | none => (false, state, related)
    | some o =>
      let r := vis state o.unlockTime o.pubkey o.commitment
      if !r.1 then (false, r.2, related)
      else
        let related := if count + 1 = size then related.map (max o.height) else related
        scanLoop vis amount outputs size rest (count + 1) r.2 related

/-- `scan_outputkeys_for_indexes`: whether every member exists and is taken, the visitor, and the
    related height, when there is a pointer to one. -/
def scanOutputkeysForIndexes (table : ScanTable) (txPrefixHash : Hash) (input : TxInToKey)
    (vis : Visitor σ) (state : σ) (related : Option Nat) : Bool × σ × Option Nat :=
  if input.keyOffsets = [] then (false, state, related)
  else
    let absoluteOffsets := relativeOutputOffsetsToAbsolute input.keyOffsets
    match scannedOutputs E db table txPrefixHash input absoluteOffsets with
    | none => (false, state, related)
    | some outputs =>
      scanLoop E db vis input.amount outputs absoluteOffsets.length absoluteOffsets 0 state related

end Scan

end CocaineNode
