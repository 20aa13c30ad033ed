import CocaineNode.Core.Lmdb
import CocaineNode.Lib.Throwing
import CocaineNode.Theory.StoredForm

/-!
# A Block Taken Out Again

`pop_block` takes out of the tables what `add_block` put in. The two are separate
code: the removal starts from the blobs in the tables, and finds ids and indices
there. Each part of the one is undone by a part of the other, in the opposite
order.

Records of pruning may have changed in between: prunable data can be gone, and so
can entries of the table of the tip. So a transaction is taken out of tables that
are those it was added to, up to the records of pruning (`Tables.withPruning`).

The one rule that the two sides state differently is for which transactions the
outputs are kept under amount 0: at version 2 with an input of type `txin_gen`,
and at version 2 or more with that input alone. `Matched` says where they agree.

## Theorems

* `Lmdb.TxsAdded.undo`: The transactions of a block.
* `Lmdb.BlockAdded.undo`: A block.
-/

namespace CocaineNode

open List Function SortedTable

namespace Lmdb

open Wire Except

theorem orThrow_eq_ok {α : Type} {e : Exn} {o : Option α} {a : α} :
    orThrow e o = .ok a ↔ o = some a := by
  cases o with
  | none => exact ⟨nofun, nofun⟩
  | some b => simp [orThrow]

theorem orThrow_some_bind {α β : Type} (e : Exn) (a : α) (f : α → Except Exn β) :
    (orThrow e (some a) >>= f) = f a :=
  rfl

theorem ok_bind {α β : Type} (a : α) (f : α → Except Exn β) : (.ok a >>= f) = f a :=
  rfl

/-! ## The records that pruning changes -/

/-- The prunable data, the table of the tip and the seed. -/
structure PruningTables where
  prunable : SortedTable Nat Blob
  tip : SortedTable Nat Nat
  seed : Option UInt32

/-- The records of pruning in the tables. -/
def Tables.pruning (db : Tables) : PruningTables :=
  ⟨db.txsPrunable, db.txsPrunableTip, db.pruningSeed⟩

/-- The tables with other records of pruning. -/
def Tables.withPruning (db : Tables) (p : PruningTables) : Tables :=
  { db with txsPrunable := p.prunable, txsPrunableTip := p.tip, pruningSeed := p.seed }

/-- The records of the transactions below an id. -/
def PruningTables.below (p : PruningTables) (txId : Nat) : PruningTables :=
  { p with prunable := p.prunable.below txId, tip := p.tip.below txId }

theorem PruningTables.below_below (p : PruningTables) {m n : Nat} (h : m ≤ n) :
    (p.below n).below m = p.below m := by
  simp only [PruningTables.below, SortedTable.below_below _ h]

/-- Records of pruning that the tables can be left with: they are about transactions that are
    there, and prunable data is as it was or gone. -/
structure PruningTables.From (p : PruningTables) (db : Tables) : Prop where
  prunable_lt : ∀ e ∈ p.prunable.entries, e.1 < getTxCount db
  tip_lt : ∀ e ∈ p.tip.entries, e.1 < getTxCount db
  prunable : ∀ txId data, p.prunable.get? txId = some data → db.txsPrunable.get? txId = some data

variable {db : Tables}

theorem PruningTables.From.below_eq {p : PruningTables} (h : p.From db) :
    p.below (getTxCount db) = p := by
  rw [PruningTables.below, below_of_lt h.prunable_lt, below_of_lt h.tip_lt]

@[simp] theorem Tables.withPruning_pruning (db : Tables) : db.withPruning db.pruning = db :=
  rfl

/-! ## Key images -/

/-- One step of the loop over the inputs. -/
def eraseKeyImage (keys : SortedTable KeyImage Unit) (i : TxIn) : SortedTable KeyImage Unit :=
  match i with
  | .toKey _ _ kImage => keys.erase kImage
  | _ => keys

theorem removeInputs_eq (db : Tables) (vin : List TxIn) :
    removeInputs db vin = { db with spentKeys := vin.foldl eraseKeyImage db.spentKeys } :=
  rfl

theorem foldl_eraseKeyImage_erase (vin : List TxIn) (keys : SortedTable KeyImage Unit)
    (k : KeyImage) :
    vin.foldl eraseKeyImage (keys.erase k) = (vin.foldl eraseKeyImage keys).erase k := by
  induction vin generalizing keys with
  | nil => rfl
  | cons i vin ih =>
    cases i with
    | toKey _ _ kImage =>
      rw [foldl_cons, foldl_cons, ← ih]
      exact congrArg (vin.foldl eraseKeyImage) (keys.erase_comm k kImage)
    | gen _ | toScript _ _ _ | toScripthash _ _ _ _ _ => exact ih keys

variable {db' : Tables}

/-- The key images of a transaction are added and taken out again. -/
theorem removeInputs_addInputs {vin : List TxIn} (h : addInputs db vin = .ok db') :
    ∃ keys : SortedTable KeyImage Unit, db' = { db with spentKeys := keys } ∧
      vin.foldl eraseKeyImage keys = db.spentKeys := by
  induction vin generalizing db with
  | nil =>
    cases h
    exact ⟨_, rfl, rfl⟩
  | cons i vin ih =>
    cases i with
    | toKey _ _ kImage =>
      rcases bind_eq_ok_iff.mp h with ⟨mid, hmid, hrest⟩
      simp only [addSpentKey] at hmid
      cases hget : db.spentKeys.get? kImage with
      | some _ =>
        rw [hget] at hmid
        cases hmid
      | none =>
        rw [hget] at hmid
        cases hmid
        rcases ih hrest with ⟨keys, rfl, hkeys⟩
        refine ⟨keys, rfl, ?_⟩
        calc vin.foldl eraseKeyImage (keys.erase kImage)
            = (vin.foldl eraseKeyImage keys).erase kImage := foldl_eraseKeyImage_erase _ _ _
          _ = (db.spentKeys.put kImage ()).erase kImage := by rw [hkeys]
          _ = db.spentKeys := erase_put hget _
    | gen _ => exact ih h
    | toScript _ _ _ | toScripthash _ _ _ _ _ => cases h

/-! ## Outputs -/

/-- The amount an output is kept under. -/
def storedAmount (tx : Wire.Transaction) (out : TxOut) : UInt64 :=
  if hasGenInput tx.vin ∧ tx.version = 2 then 0 else out.amount

/-- The amount an output is looked for under. -/
def removedAmount (tx : Wire.Transaction) (out : TxOut) : UInt64 :=
  if isPseudoRct tx then 0 else out.amount

/-- Outputs are looked for under the amount they are kept under. -/
def Matched (tx : Wire.Transaction) : Prop :=
  ∀ out ∈ tx.vout, storedAmount tx out = removedAmount tx out

/-- What `add_output` does. -/
structure OutputAdded (db : Tables) (txHash : Hash) (amount : UInt64) (i index : Nat)
    (db' : Tables) : Prop where
  index_eq : index = (db.outputAmounts amount).count
  added : ∃ (outkey : Outkey) (outputTxs : SortedTable Nat Outtx)
    (outputs : SortedTable Nat Outkey),
    outkey.outputId = numOutputs db ∧ outkey.height = height db ∧
    db.outputTxs.append? (numOutputs db) ⟨txHash, i⟩ = some outputTxs ∧
    (db.outputAmounts amount).append? index outkey = some outputs ∧
    db' = { db with
      outputTxs
      outputAmounts := update db.outputAmounts amount outputs }

variable {txHash : Hash} {i : Nat}

theorem addOutput_ok {out : TxOut} {index : Nat} {unlockTime : UInt64} {commitment : Option Key}
    (h : addOutput db txHash out i unlockTime commitment = .ok (index, db')) :
    OutputAdded db txHash out.amount i index db' ∧ out.target.publicKey?.isSome := by
  simp only [addOutput, bind_eq_ok_iff, guard_eq_ok_iff, orThrow_eq_ok] at h
  rcases h with ⟨key, hkey, -, outputTxs, htxs, outputs, houts, h⟩
  cases h
  exact ⟨⟨rfl, _, outputTxs, outputs, rfl, rfl, htxs, houts, rfl⟩,
    Option.isSome_iff_exists.mpr ⟨key, hkey⟩⟩

variable {C : Primitives} {tx : Wire.Transaction}

theorem addTxOutput_ok {out : TxOut} {index : Nat}
    (h : addTxOutput C db tx txHash i out = .ok (index, db')) :
    OutputAdded db txHash (storedAmount tx out) i index db' ∧ out.target.publicKey?.isSome := by
  rw [addTxOutput] at h
  split_ifs at h with hminer
  · rw [storedAmount, if_pos hminer]
    exact addOutput_ok h
  · rw [storedAmount, if_neg hminer]
    rcases bind_eq_ok_iff.mp h with ⟨commitment, -, h⟩
    exact addOutput_ok h

/-- An output is taken out again. -/
theorem OutputAdded.undo {X : Tables} {amount : UInt64} {index : Nat}
    (h : OutputAdded db txHash amount i index db') (htxs : X.outputTxs = db'.outputTxs)
    (hamounts : X.outputAmounts = db'.outputAmounts) :
    removeOutput X amount index =
      .ok { X with outputTxs := db.outputTxs, outputAmounts := db.outputAmounts } := by
  rcases h.added with ⟨outkey, outputTxs, outputs, hid, -, happ, happ', rfl⟩
  replace hamounts : X.outputAmounts = update db.outputAmounts amount outputs := hamounts
  have hget : (X.outputAmounts amount).get? index = some outkey := by
    rw [hamounts, update_self, get_append_self happ']
  have hget' : X.outputTxs.get? outkey.outputId = some ⟨txHash, i⟩ := by
    rw [htxs, hid, get_append_self happ]
  have herase : X.outputTxs.erase outkey.outputId = db.outputTxs := by
    rw [htxs, hid, erase_append happ]
  have herase' : (X.outputAmounts amount).erase index = db.outputAmounts amount := by
    rw [hamounts, update_self, erase_append happ']
  have hupdate : update X.outputAmounts amount (db.outputAmounts amount) = db.outputAmounts := by
    rw [hamounts, update_idem, update_eq_self]
  simp only [removeOutput, hget, orThrow_some_bind, hget', herase, herase', hupdate]
  rfl

/-- The outputs of a transaction are added and taken out again. -/
theorem removeOutputs_addOutputs {x : Wire.Transaction} {outs : List TxOut} {indices : List Nat}
    (h : addOutputs C tx txHash db i outs = .ok (indices, db'))
    (hmatched : ∀ out ∈ outs, storedAmount tx out = removedAmount x out) :
    indices.length = outs.length ∧
    ∀ X : Tables, X.outputTxs = db'.outputTxs → X.outputAmounts = db'.outputAmounts →
      removeOutputs x X (outs.zip indices) =
        .ok { X with outputTxs := db.outputTxs, outputAmounts := db.outputAmounts } := by
  induction outs generalizing db i indices with
  | nil =>
    cases h
    refine ⟨rfl, fun X htxs hamounts => ?_⟩
    rw [← htxs, ← hamounts]
    rfl
  | cons out outs ih =>
    simp only [addOutputs, bind_eq_ok_iff] at h
    rcases h with ⟨⟨index, mid⟩, hone, ⟨rest, db''⟩, hrest, h⟩
    cases h
    have hadded := (addTxOutput_ok hone).1
    rcases ih hrest fun out' h' => hmatched out' (mem_cons_of_mem _ h') with ⟨hlen, hundo⟩
    refine ⟨congrArg (· + 1) hlen, fun X htxs hamounts => ?_⟩
    have hamount : (if isPseudoRct x then 0 else out.amount) = storedAmount tx out :=
      (hmatched out mem_cons_self).symm
    simp only [zip_cons_cons, removeOutputs, hundo X htxs hamounts, hamount]
    -- The others are gone, so this output is the last one again.
    exact hadded.undo rfl rfl

/-- Outputs are added to the tables of outputs alone. -/
theorem addOutputs_frame {outs : List TxOut} {indices : List Nat}
    (h : addOutputs C tx txHash db i outs = .ok (indices, db')) :
    db' = { db with outputTxs := db'.outputTxs, outputAmounts := db'.outputAmounts } ∧
      ∀ out ∈ outs, out.target.publicKey?.isSome := by
  induction outs generalizing db i indices with
  | nil =>
    cases h
    exact ⟨rfl, fun _ h => absurd h not_mem_nil⟩
  | cons out outs ih =>
    simp only [addOutputs, bind_eq_ok_iff] at h
    rcases h with ⟨⟨index, mid⟩, hone, ⟨rest, db''⟩, hrest, h⟩
    cases h
    rcases addTxOutput_ok hone with ⟨hadded, hkey⟩
    rcases hadded.added with ⟨_, _, _, -, -, -, -, rfl⟩
    rcases ih hrest with ⟨hframe, hkeys⟩
    refine ⟨hframe, fun out' h' => ?_⟩
    rcases mem_cons.mp h' with rfl | h'
    · exact hkey
    · exact hkeys out' h'

/-! ## Transactions -/

/-- What `add_transaction` does. -/
structure TxAdded (C : Primitives) (db : Tables) (tx : Wire.Transaction) (blob : Blob)
    (txHash : Hash) (db' : Tables) : Prop where
  fresh : db.txIndices.get? txHash = none
  parts : ∃ size, unprunableSize tx = .ok size ∧ size ≤ blob.length ∧
    db.txsPruned.append? (getTxCount db) (blob.take size) = some db'.txsPruned ∧
    db.txsPrunable.append? (getTxCount db) (blob.drop size) = some db'.txsPrunable
  prunableHash : ∃ h, addPrunableHash db tx (getTxCount db) h = .ok db'.txsPrunableHash
  keyImages : tx.vin.foldl eraseKeyImage db'.spentKeys = db.spentKeys
  outputs : ∃ (mid : Tables) (indices : List Nat), mid.outputTxs = db.outputTxs ∧
    mid.outputAmounts = db.outputAmounts ∧
    addOutputs C tx txHash mid 0 tx.vout =
      .ok (indices, { mid with outputTxs := db'.outputTxs, outputAmounts := db'.outputAmounts }) ∧
    db.txOutputs.append? (getTxCount db) indices = some db'.txOutputs
  rest : db' = { db' with
    blocks := db.blocks
    blockInfo := db.blockInfo
    blockHeights := db.blockHeights
    txIndices := db.txIndices.put txHash ⟨getTxCount db, tx.unlockTime, height db⟩
    txsPrunableTip :=
      if getBlockchainPruningSeed db ≠ 0 then db.txsPrunableTip.put (getTxCount db) (height db)
      else db.txsPrunableTip
    pruningSeed := db.pruningSeed }

theorem addTransaction_ok {blob : Blob} {txHashPtr : Option Hash}
    (h : addTransaction C db tx blob txHashPtr = .ok db') :
    ∃ txHash, txHashOf C tx txHashPtr = .ok txHash ∧ TxAdded C db tx blob txHash db' := by
  simp only [addTransaction, bind_eq_ok_iff] at h
  rcases h with ⟨txHash, hhash, prunableHash, -, mid, hinputs, ⟨txId, mid'⟩, hdata,
    ⟨indices, mid''⟩, houtputs, h⟩
  rcases removeInputs_addInputs hinputs with ⟨keys, rfl, hkeys⟩
  simp only [addTransactionData, bind_eq_ok_iff, guard_eq_ok_iff, orThrow_eq_ok] at hdata
  rcases hdata with ⟨hfresh, size, hsize, hlong, txsPruned, hpruned, txsPrunable, hprunable,
    txsPrunableHash, hprunableHash, hdata⟩
  cases hdata
  have hframe := (addOutputs_frame houtputs).1
  rw [hframe] at houtputs h
  simp only [addTxAmountOutputIndices, bind_eq_ok_iff, orThrow_eq_ok] at h
  rcases h with ⟨txOutputs, htxOutputs, h⟩
  cases h
  refine ⟨txHash, hhash, ?_, ⟨size, hsize, not_lt.mp hlong, hpruned, hprunable⟩,
    ⟨prunableHash, hprunableHash⟩, hkeys, ⟨_, indices, ?_, ?_, houtputs, htxOutputs⟩, rfl⟩
  · simpa using hfresh
  · rfl
  · rfl

section

variable {C : Primitives} {db db' : Tables} {tx x : Wire.Transaction} {blob : Blob} {txHash : Hash}
  (h : TxAdded C db tx blob txHash db')
include h

/-- The two parts that are kept are the base and what follows it. -/
theorem TxAdded.halves (hs : Stored tx blob) :
    ∃ a c, blob = a ++ c ∧ serializeBase.write tx = some a ∧
      db.txsPruned.append? (getTxCount db) a = some db'.txsPruned ∧
      db.txsPrunable.append? (getTxCount db) c = some db'.txsPrunable := by
  rcases hs.parts with ⟨a, c, rfl, ha, hsmall, hstored⟩
  rcases h.parts with ⟨size, hsize, -, hpruned, hprunable⟩
  have hlen : size = a.length := by
    rw [unprunableSize] at hsize
    split_ifs at hsize with hzero
    · rw [ha] at hsize
      rw [← ok.inj hsize, Nat.mod_eq_of_lt hsmall]
    · rw [← ok.inj hsize, hstored.resolve_left hzero]
  rw [hlen, take_left] at hpruned
  rw [hlen, drop_left] at hprunable
  exact ⟨a, c, rfl, ha, hpruned, hprunable⟩

theorem TxAdded.txCount : getTxCount db' = getTxCount db + 1 := by
  rcases h.parts with ⟨_, -, -, hpruned, -⟩
  exact count_append hpruned

theorem TxAdded.prunable_lt : ∀ e ∈ db'.txsPrunable.entries, e.1 < getTxCount db' := by
  rcases h.parts with ⟨_, -, -, -, hprunable⟩
  rcases append_eq_some hprunable with ⟨hlt, hentries⟩
  intro e he
  rw [hentries, mem_append, mem_singleton] at he
  rw [h.txCount]
  rcases he with he | rfl
  · exact (hlt e he).trans (Nat.lt_succ_self _)
  · exact Nat.lt_succ_self _

/-- A new transaction has records of pruning for itself at most. -/
theorem TxAdded.tip_lt (hdb : ∀ e ∈ db.txsPrunableTip.entries, e.1 < getTxCount db) :
    ∀ e ∈ db'.txsPrunableTip.entries, e.1 < getTxCount db' := by
  rintro ⟨txId, blockHeight⟩ he
  rw [h.txCount]
  rw [h.rest] at he
  split_ifs at he with hseed
  · rcases mem_put he with he | heq
    · exact (hdb _ he).trans (Nat.lt_succ_self _)
    · exact (Prod.mk.inj heq).1 ▸ Nat.lt_succ_self _
  · exact (hdb _ he).trans (Nat.lt_succ_self _)

/-- What is added leaves the records of pruning about the transactions in front of it. -/
structure Grown (db db' : Tables) : Prop where
  count_le : getTxCount db ≤ getTxCount db'
  from_below : ∀ p : PruningTables, p.From db' → (p.below (getTxCount db)).From db
  pruning_below : db.pruning.From db →
    db'.pruning.below (getTxCount db) = db.pruning ∧ db'.pruning.From db'

omit h in
theorem Grown.refl (db : Tables) : Grown db db where
  count_le := le_rfl
  from_below _ hp := by rwa [hp.below_eq]
  pruning_below hdb := ⟨hdb.below_eq, hdb⟩

omit h in
theorem Grown.trans {mid : Tables} (h : Grown db mid) (h' : Grown mid db') : Grown db db' where
  count_le := h.count_le.trans h'.count_le
  from_below p hp := by
    rw [← p.below_below h.count_le]
    exact h.from_below _ (h'.from_below p hp)
  pruning_below hdb := by
    rcases h.pruning_below hdb with ⟨hone, hmid⟩
    rcases h'.pruning_below hmid with ⟨hmany, hlast⟩
    rw [← PruningTables.below_below _ h.count_le, hmany, hone]
    exact ⟨rfl, hlast⟩

theorem TxAdded.grown : Grown db db' where
  count_le := by
    rw [h.txCount]
    exact Nat.le_succ _
  from_below p hp := by
    refine ⟨fun e he => ?_, fun e he => ?_, fun txId data hget => ?_⟩
    · simpa using (mem_filter.mp he).2
    · simpa using (mem_filter.mp he).2
    · rcases h.parts with ⟨_, -, -, -, hprunable⟩
      rw [PruningTables.below, get_below] at hget
      by_cases hlt : txId < getTxCount db
      · rw [if_pos hlt] at hget
        have hget' := hp.prunable txId data hget
        rwa [get_append hprunable, if_neg hlt.ne] at hget'
      · rw [if_neg hlt] at hget
        cases hget
  pruning_below hdb := by
    refine ⟨?_, h.prunable_lt, h.tip_lt hdb.tip_lt, fun _ _ hget => hget⟩
    rcases h.parts with ⟨_, -, -, -, hprunable⟩
    have htip : db'.txsPrunableTip.below (getTxCount db) = db.txsPrunableTip := by
      rw [h.rest]
      split_ifs
      · exact below_put hdb.tip_lt _
      · exact below_of_lt hdb.tip_lt
    have hseed : db'.pruningSeed = db.pruningSeed := by rw [h.rest]
    rw [PruningTables.below, Tables.pruning, Tables.pruning, htip, hseed, below_append hprunable]

variable {p : PruningTables}

theorem TxAdded.keys : ∀ out ∈ tx.vout, out.target.publicKey?.isSome := by
  rcases h.outputs with ⟨mid, indices, -, -, houtputs, -⟩
  exact (addOutputs_frame houtputs).2

theorem TxAdded.index :
    db'.txIndices.get? txHash = some ⟨getTxCount db, tx.unlockTime, height db⟩ := by
  rw [h.rest, get_put, if_pos rfl]

/-- The transaction is found in pruned form. -/
theorem TxAdded.getPrunedTx (hs : Stored tx blob) (p : PruningTables) :
    ∃ x, getPrunedTx? C (db'.withPruning p) txHash = .ok (some x) ∧
      x.toTransactionPrefix = tx.toTransactionPrefix := by
  rcases h.halves hs with ⟨a, c, -, ha, hpruned, -⟩
  rcases read_base C.toCrypto ha h.keys with ⟨x, hx, hsame⟩
  refine ⟨x, ?_, hsame⟩
  have hblob : getPrunedTxBlob (db'.withPruning p) txHash = some a := by
    simp only [getPrunedTxBlob, Tables.withPruning, h.index, Option.bind_eq_bind,
      Option.bind_some, get_append_self hpruned]
  simp only [getPrunedTx?, hblob, hx]

omit h in
theorem removePrunableHash_addPrunableHash {X : Tables} {txId : Nat} {hash : Hash}
    {hashes : SortedTable Nat Hash} (h : addPrunableHash db tx txId hash = .ok hashes)
    (hversion : x.version = tx.version) (hX : X.txsPrunableHash = hashes) :
    removePrunableHash X x txId = .ok db.txsPrunableHash := by
  rw [addPrunableHash] at h
  rw [removePrunableHash, hversion, hX]
  split_ifs at h with hone
  · rw [orThrow_eq_ok] at h
    rw [if_pos hone, get_append_self h, orThrow_some_bind, erase_append h]
    rfl
  · rw [if_neg hone, ← ok.inj h]

omit h in
theorem removeTxOutputs_of_get {X Y : Tables} {txId : Nat} {indices : List Nat}
    (hget : X.txOutputs.get? txId = some indices) (hlen : indices.length = x.vout.length)
    (hundo : removeOutputs x X (x.vout.zip indices) = .ok Y) :
    removeTxOutputs X txId x = .ok Y := by
  have hsome : ¬ (indices = [] ∧ x.vout ≠ []) := by
    rintro ⟨rfl, hne⟩
    exact hne (eq_nil_of_length_eq_zero hlen.symm)
  rw [removeTxOutputs, hget, orThrow_some_bind, if_neg hsome, if_neg (by omega), hundo]

/-- A transaction is added and taken out again, with whatever records of pruning there are by
    then. -/
theorem TxAdded.undo (hs : Stored tx blob) (hmatched : Matched tx) (hp : p.From db') :
    removeTransaction C (db'.withPruning p) txHash =
      .ok (db.withPruning (p.below (getTxCount db))) := by
  rcases h.getPrunedTx hs p with ⟨x, hx, hsame⟩
  rcases h.halves hs with ⟨a, c, -, -, hpruned, -⟩
  rcases h.prunableHash with ⟨prunableHash, hprunableHash⟩
  rcases h.outputs with ⟨mid, indices, hmidTxs, hmidAmounts, houtputs, htxOutputs⟩
  -- The pruned form has the version, the inputs and the outputs of the transaction.
  have hmatched' : ∀ out ∈ tx.vout, storedAmount tx out = removedAmount x out := by
    intro out hout
    rw [hmatched out hout]
    simp only [removedAmount, isPseudoRct, Wire.Transaction.isCoinbase, hsame]
    rfl
  rcases removeOutputs_addOutputs houtputs hmatched' with ⟨hlen, hundo⟩
  have hkeys : x.vin.foldl eraseKeyImage db'.spentKeys = db.spentKeys := by
    rw [hsame, h.keyImages]
  have hvout : x.vout = tx.vout := by rw [hsame]
  have hindex := h.index
  have hget := get_append_self hpruned
  have hgetOutputs := get_append_self htxOutputs
  rw [removeTransaction, hx, ok_bind]
  simp only [removeTransactionData, removeInputs_eq, Tables.withPruning, hindex,
    orThrow_some_bind, hget, hkeys]
  refine bind_eq_ok_iff.mpr ⟨db.txsPrunableHash, removePrunableHash_addPrunableHash hprunableHash
    (congrArg TransactionPrefix.version hsame) rfl, ?_⟩
  rw [← hvout] at hlen hundo
  refine bind_eq_ok_iff.mpr ⟨_, removeTxOutputs_of_get hgetOutputs hlen (hundo _ rfl rfl), ?_⟩
  have hprunable : p.prunable.erase (getTxCount db) = p.prunable.below (getTxCount db) :=
    erase_eq_below fun e he =>
      Nat.lt_succ_iff.mp (h.txCount.subst (hp.prunable_lt e he))
  have htip : p.tip.erase (getTxCount db) = p.tip.below (getTxCount db) :=
    erase_eq_below fun e he => Nat.lt_succ_iff.mp (h.txCount.subst (hp.tip_lt e he))
  have hindices : db'.txIndices.erase txHash = db.txIndices := by
    rw [h.rest, erase_put h.fresh]
  simp only [erase_append hpruned, hprunable, htip, hindices,
    erase_append htxOutputs, hmidTxs, hmidAmounts, PruningTables.below]
  rw [h.rest]
  rfl

/-- The transaction is found, whole if its prunable data is there. -/
theorem TxAdded.getTxOrPruned (hs : Stored tx blob)
    (hparsed : (parseAndValidateTxFromBlob C.toCrypto blob).2 = some tx) (hp : p.From db') :
    ∃ x, getTxOrPruned C (db'.withPruning p) txHash = .ok x ∧ (p = db'.pruning → x = tx) := by
  rcases h.halves hs with ⟨a, c, hblob, -, hpruned, hprunable⟩
  have hget : getTxBlob (db'.withPruning p) txHash =
      (p.prunable.get? (getTxCount db)).map (a ++ ·) := by
    simp only [getTxBlob, Tables.withPruning, h.index, Option.bind_eq_bind, Option.bind_some,
      get_append_self hpruned, Option.map_eq_bind]
    rfl
  cases hdata : p.prunable.get? (getTxCount db) with
  | none =>
    rcases h.getPrunedTx hs p with ⟨x, hx, -⟩
    refine ⟨x, ?_, fun heq => ?_⟩
    · simp only [Lmdb.getTxOrPruned, getTx?, hget, hdata, Option.map_none, ok_bind, hx]
      rfl
    · rw [heq, Tables.pruning, get_append_self hprunable] at hdata
      cases hdata
  | some data =>
    have hdata' := hp.prunable _ _ hdata
    rw [get_append_self hprunable] at hdata'
    cases hdata'
    refine ⟨tx, ?_, fun _ => rfl⟩
    simp only [Lmdb.getTxOrPruned, getTx?, hget, hdata, Option.map_some, ← hblob, hparsed, ok_bind]
    rfl

end

/-! ## The transactions of a block -/

/-- A transaction with its blob that can be added and found again. -/
structure Filed (C : Primitives) (tx : Wire.Transaction) (blob : Blob) : Prop where
  parsed : (parseAndValidateTxFromBlob C.toCrypto blob).2 = some tx
  stored : Stored tx blob
  matched : Matched tx

/-- What the loop of `add_block` does. -/
inductive TxsAdded (C : Primitives) :
    Tables → List ((Wire.Transaction × Blob) × Hash) → Tables → Prop
  | nil (db : Tables) : TxsAdded C db [] db
  | cons {db mid db' : Tables} {tx : Wire.Transaction} {blob : Blob} {txHash : Hash}
      {rest : List ((Wire.Transaction × Blob) × Hash)} (h : TxAdded C db tx blob txHash mid)
      (hrest : TxsAdded C mid rest db') : TxsAdded C db (((tx, blob), txHash) :: rest) db'

section

variable {C : Primitives} {db db' : Tables} {l : List ((Wire.Transaction × Blob) × Hash)}

theorem addTransactions_ok (h : addTransactions C db l = .ok db') : TxsAdded C db l db' := by
  induction l generalizing db with
  | nil =>
    cases h
    exact .nil _
  | cons e l ih =>
    rcases e with ⟨⟨tx, blob⟩, txHash⟩
    rcases bind_eq_ok_iff.mp h with ⟨mid, hmid, hrest⟩
    rcases addTransaction_ok hmid with ⟨_, ⟨⟩, hadded⟩
    exact .cons hadded (ih hrest)

theorem TxsAdded.grown (h : TxsAdded C db l db') : Grown db db' := by
  induction h with
  | nil db => exact .refl db
  | cons h _ ih => exact h.grown.trans ih

/-- The loop over two lists, one after the other. -/
theorem popTransactions_append {mid : Tables} {hashes hashes' : List Hash}
    {txs txs' : List Wire.Transaction} (h : popTransactions C db hashes = .ok (txs, mid))
    (h' : popTransactions C mid hashes' = .ok (txs', db')) :
    popTransactions C db (hashes ++ hashes') = .ok (txs ++ txs', db') := by
  induction hashes generalizing db txs with
  | nil =>
    cases h
    exact h'
  | cons hash hashes ih =>
    simp only [popTransactions, bind_eq_ok_iff] at h
    rcases h with ⟨tx, htx, next, hnext, ⟨rest, mid'⟩, hrest, h⟩
    cases h
    simp only [cons_append, popTransactions, bind_eq_ok_iff]
    exact ⟨tx, htx, next, hnext, _, ih hrest, rfl⟩

/-- The transactions of a block are added and taken out again. -/
theorem TxsAdded.undo (h : TxsAdded C db l db') (hfiled : ∀ e ∈ l, Filed C e.1.1 e.1.2)
    {p : PruningTables} (hp : p.From db') :
    ∃ txs, popTransactions C (db'.withPruning p) (l.map Prod.snd).reverse =
        .ok (txs, db.withPruning (p.below (getTxCount db))) ∧
      (db.pruning.From db → p = db'.pruning → txs = (l.map fun e => e.1.1).reverse) := by
  induction h generalizing p with
  | nil db => exact ⟨[], by rw [hp.below_eq]; rfl, fun _ _ => rfl⟩
  | @cons db mid db' tx blob txHash rest h hrest ih =>
    rcases ih (fun e he => hfiled e (mem_cons_of_mem _ he)) hp with ⟨txs, hpop, htxs⟩
    have hone := hfiled _ mem_cons_self
    have hfrom := hrest.grown.from_below p hp
    rcases h.getTxOrPruned hone.stored hone.parsed hfrom with ⟨x, hx, hx'⟩
    have hundo := h.undo hone.stored hone.matched hfrom
    rw [PruningTables.below_below p h.grown.count_le] at hundo
    refine ⟨txs ++ [x], ?_, fun hdb heq => ?_⟩
    · rw [map_cons, reverse_cons]
      refine popTransactions_append hpop ?_
      simp only [popTransactions, bind_eq_ok_iff]
      exact ⟨x, hx, _, hundo, _, rfl, rfl⟩
    · have hmid := (h.grown.pruning_below hdb).2
      rw [htxs hmid heq, hx' (heq ▸ (hrest.grown.pruning_below hmid).1), map_cons, reverse_cons]

end

/-! ## Blocks -/

/-- What `BlockchainLMDB::add_block` does. -/
structure HeaderAdded (C : Primitives) (db : Tables) (blk : Wire.Block) (db' : Tables) : Prop where
  fresh : db.blockHeights.get? (C.getBlockHash blk) = none
  blocks : ∃ blob, blockToBlob blk = some blob ∧
    db.blocks.append? (height db) blob = some db'.blocks
  info : ∃ info : BlockInfo, info.hash = C.getBlockHash blk ∧
    db.blockInfo.append? (height db) info = some db'.blockInfo
  rest : db' = { db with
    blocks := db'.blocks
    blockInfo := db'.blockInfo
    blockHeights := db.blockHeights.put (C.getBlockHash blk) (height db) }

/-- A block with its transactions, as it was parsed. -/
structure FiledBlock (C : Primitives) where
  blk : Wire.Block
  weights : Weights
  txs : List (Wire.Transaction × Blob)
  blob : Blob
  written : blockToBlob blk = some blob
  parsed : (parseAndValidateBlockFromBlob blob).2 = some blk
  miner_small : ∀ a, serializeBase.write blk.minerTx = some a → a.length < 2 ^ 32
  miner_matched : Matched blk.minerTx
  filed : ∀ tx ∈ txs, Filed C tx.1 tx.2

/-- What `BlockchainDB::add_block` does. -/
structure BlockAdded (C : Primitives) (db : Tables) (b : FiledBlock C) (db' : Tables) : Prop where
  hashes : b.blk.txHashes.length = b.txs.length
  parts : ∃ minerBlob minerHash mid mid', txToBlob b.blk.minerTx = some minerBlob ∧
    Stored b.blk.minerTx minerBlob ∧ txHashOf C b.blk.minerTx none = .ok minerHash ∧
    TxAdded C db b.blk.minerTx minerBlob minerHash mid ∧
    TxsAdded C mid (b.txs.zip b.blk.txHashes) mid' ∧ HeaderAdded C mid' b.blk db'

variable {C : Primitives} {db db' : Tables} {b : FiledBlock C} {blk : Wire.Block}

theorem addBlockData_ok {w : Weights} {numRctOuts : UInt64}
    (h : addBlockData db blk w numRctOuts (C.getBlockHash blk) = .ok db') :
    HeaderAdded C db blk db' := by
  simp only [addBlockData, bind_eq_ok_iff, guard_eq_ok_iff, orThrow_eq_ok] at h
  rcases h with ⟨hfresh, _, -, blob, hblob, blocks, hblocks, _, -, blockInfo, hinfo, h⟩
  cases h
  exact ⟨by simpa using hfresh, ⟨blob, hblob, hblocks⟩, ⟨_, rfl, hinfo⟩, rfl⟩

theorem addBlock_ok (h : addBlock C db b.blk b.weights b.txs = .ok db') :
    BlockAdded C db b db' := by
  simp only [addBlock, bind_eq_ok_iff, guard_eq_ok_iff, orThrow_eq_ok] at h
  rcases h with ⟨hlen, minerBlob, hblob, mid, hminer, mid', htxs, hheader⟩
  rcases Stored.of_block b.parsed b.written b.miner_small with ⟨_, hblob', hstored⟩
  rw [hblob] at hblob'
  cases hblob'
  rcases addTransaction_ok hminer with ⟨minerHash, hhash, hadded⟩
  exact ⟨not_not.mp hlen, minerBlob, minerHash, mid, mid', hblob, hstored, hhash, hadded,
    addTransactions_ok htxs, addBlockData_ok hheader⟩

section

variable (h : HeaderAdded C db blk db')
include h

theorem HeaderAdded.height_eq : height db' = height db + 1 := by
  rcases h.blocks with ⟨_, -, hblocks⟩
  exact count_append hblocks

theorem HeaderAdded.txCount : getTxCount db' = getTxCount db := by
  rw [h.rest]
  rfl

theorem HeaderAdded.pruning_eq : db'.pruning = db.pruning := by
  rw [h.rest]
  rfl

theorem HeaderAdded.from_iff {p : PruningTables} : p.From db' ↔ p.From db := by
  have hprunable : db'.txsPrunable = db.txsPrunable := congrArg PruningTables.prunable h.pruning_eq
  constructor
  · intro hp
    exact ⟨h.txCount ▸ hp.prunable_lt, h.txCount ▸ hp.tip_lt, hprunable ▸ hp.prunable⟩
  · intro hp
    exact ⟨h.txCount ▸ hp.prunable_lt, h.txCount ▸ hp.tip_lt, hprunable ▸ hp.prunable⟩

theorem HeaderAdded.grown : Grown db db' where
  count_le := h.txCount.ge
  from_below p hp := (Grown.refl db).from_below p (h.from_iff.mp hp)
  pruning_below hdb := by
    rw [h.from_iff, h.pruning_eq]
    exact (Grown.refl db).pruning_below hdb

end

theorem BlockAdded.grown (h : BlockAdded C db b db') : Grown db db' := by
  rcases h.parts with ⟨_, _, mid, mid', -, -, -, hminer, htxs, hheader⟩
  exact hminer.grown.trans (htxs.grown.trans hheader.grown)

/-- The header is found and taken out again. -/
theorem HeaderAdded.undo {blob : Blob} (h : HeaderAdded C db blk db')
    (hwritten : blockToBlob blk = some blob)
    (hparsed : (parseAndValidateBlockFromBlob blob).2 = some blk) (p : PruningTables) :
    height (db'.withPruning p) = height db + 1 ∧
      getBlockFromHeight (db'.withPruning p) (height db) = .ok blk ∧
      removeBlock (db'.withPruning p) (height db) = .ok (db.withPruning p) := by
  rcases h.blocks with ⟨blob', hwritten', hblocks⟩
  rw [hwritten] at hwritten'
  cases hwritten'
  rcases h.info with ⟨info, hhash, hinfo⟩
  have hheight : height (db'.withPruning p) = height db + 1 := h.height_eq
  refine ⟨hheight, ?_, ?_⟩
  · rw [getBlockFromHeight]
    simp only [Tables.withPruning, get_append_self hblocks, orThrow_some_bind, hparsed]
    rfl
  · have hheights : db'.blockHeights.get? info.hash = some (height db) := by
      rw [h.rest, hhash, get_put, if_pos rfl]
    have herase : db'.blockHeights.erase info.hash = db.blockHeights := by
      rw [h.rest, hhash, erase_put h.fresh]
    rw [removeBlock, hheight, if_neg (Nat.succ_ne_zero _), Nat.add_sub_cancel]
    simp only [Tables.withPruning, get_append_self hinfo, orThrow_some_bind, hheights,
      herase, erase_append hblocks, erase_append hinfo]
    rw [h.rest]
    rfl

/-- A block is added and taken out again, with whatever records of pruning there are by then. -/
theorem BlockAdded.undo (h : BlockAdded C db b db') {p : PruningTables} (hp : p.From db') :
    ∃ txs, popBlock C (db'.withPruning p) =
        .ok (b.blk, txs, db.withPruning (p.below (getTxCount db))) ∧
      (db.pruning.From db → p = db'.pruning → txs = (b.txs.map Prod.fst).reverse) := by
  rcases h.parts with ⟨minerBlob, minerHash, mid, mid', -, hstored, hhash, hminer, htxs, hheader⟩
  rcases hheader.undo b.written b.parsed p with ⟨hheight, hblk, hremove⟩
  have hp' := hheader.from_iff.mp hp
  have hhashes : (b.txs.zip b.blk.txHashes).map Prod.snd = b.blk.txHashes :=
    map_snd_zip h.hashes.le
  have hfiled : ∀ e ∈ b.txs.zip b.blk.txHashes, Filed C e.1.1 e.1.2 :=
    fun e he => b.filed e.1 (of_mem_zip he).1
  rcases htxs.undo hfiled hp' with ⟨txs, hpop, htxs'⟩
  rw [hhashes] at hpop
  have hundo := hminer.undo hstored b.miner_matched (htxs.grown.from_below p hp')
  rw [PruningTables.below_below p hminer.grown.count_le] at hundo
  refine ⟨txs, ?_, fun hdb heq => ?_⟩
  · rw [popBlock, hheight, if_neg (Nat.succ_ne_zero _), Nat.add_sub_cancel, hblk, ok_bind, hremove,
      ok_bind, hpop, ok_bind]
    simp only [hhash, ok_bind, hundo]
    rfl
  · have hfst : (b.txs.zip b.blk.txHashes).map Prod.fst = b.txs := map_fst_zip h.hashes.ge
    rw [htxs' (hminer.grown.pruning_below hdb).2 (heq.trans hheader.pruning_eq), ← hfst,
      map_map, hfst]
    rfl

end Lmdb

end CocaineNode
