import CocaineNode.Lib.Transition
import CocaineNode.Theory.LmdbUndo

/-!
# The Tables of a Chain

Whatever calls were made, the tables are those of a chain of blocks that were
added one after the other, up to the records of pruning. `Represents` says so,
and every call keeps it: a block that is added goes on top of the chain, one that
is popped was on top of it, and pruning leaves the chain alone.

So what holds of tables that blocks were only added to holds of all others. The
outputs of an amount are an example (`OutputsInOrder`): they are added with the
next index, and popping goes back to tables in which that was so.

## Theorems

* `Lmdb.Represents.step`: Every call keeps the representation.
* `Lmdb.calls_stack`: Whatever calls are made, the blocks are a stack.
* `Lmdb.add_then_pop`: A block that is added is popped as it was.
-/

namespace CocaineNode

namespace Lmdb

open Wire Except List SortedTable

/-! ## Chains -/

/-- The tables of a chain, whose last block is in front. Each block was added to tables of the
    chain below it, and records of pruning may have changed since. -/
inductive Represents (C : Primitives) : List (FiledBlock C) → Tables → Prop
  | empty {p : PruningTables} (hp : p.From Tables.empty) :
      Represents C [] (Tables.empty.withPruning p)
  | add {chain : List (FiledBlock C)} {db db' : Tables} {b : FiledBlock C} {p : PruningTables}
      (h : Represents C chain db) (hadd : BlockAdded C db b db') (hp : p.From db') :
      Represents C (b :: chain) (db'.withPruning p)

section

variable {C : Primitives} {chain : List (FiledBlock C)} {db db' : Tables} {b : FiledBlock C}
  {p p' : PruningTables}

theorem PruningTables.From.own (h : p.From db) : p.From (db.withPruning p) :=
  ⟨h.prunable_lt, h.tip_lt, fun _ _ hget => hget⟩

theorem PruningTables.From.again (h : p.From (db.withPruning p')) (h' : p'.From db) : p.From db :=
  ⟨h.prunable_lt, h.tip_lt, fun txId data hget => h'.prunable txId data (h.prunable txId data hget)⟩

section

variable (h : Represents C chain db)
include h

/-- The records of pruning are about transactions that are there. -/
theorem Represents.own : db.pruning.From db := by
  cases h with
  | empty hp => exact hp.own
  | add _ _ hp => exact hp.own

/-- Records of pruning change. -/
theorem Represents.withPruning (hp : p.From db) : Represents C chain (db.withPruning p) := by
  cases h with
  | empty hp' => exact .empty (hp.again hp')
  | add h hadd hp' => exact (Represents.add h hadd (hp.again hp') :)

/-- A block is added on top. -/
theorem Represents.push (hadd : BlockAdded C db b db') : Represents C (b :: chain) db' :=
  .add h hadd (hadd.grown.pruning_below h.own).2

end

/-- The top block is popped, and the tables are those of the chain below it. -/
theorem Represents.pop (h : Represents C (b :: chain) db) :
    ∃ txs db', popBlock C db = .ok (b.blk, txs, db') ∧ Represents C chain db' := by
  cases h with
  | add h hadd hp =>
    rcases hadd.undo hp with ⟨txs, hpop, -⟩
    exact ⟨txs, _, hpop, h.withPruning (hadd.grown.from_below _ hp)⟩

theorem Represents.pop_empty (h : Represents C [] db) :
    popBlock C db = .error (.blockDne "Attempting to remove block from an empty blockchain") := by
  cases h with
  | empty => rfl

/-- What holds of new tables, of tables with other records of pruning and after every transaction
    and every header holds of the tables of every chain. -/
theorem Represents.rule {I : Tables → Prop} (hempty : I Tables.empty)
    (hpruning : ∀ {db} (p : PruningTables), I db → I (db.withPruning p))
    (htx : ∀ {db db' tx blob txHash}, TxAdded C db tx blob txHash db' → I db → I db')
    (hheader : ∀ {db db' blk}, HeaderAdded C db blk db' → I db → I db')
    (h : Represents C chain db) : I db := by
  induction h with
  | empty _ => exact hpruning _ hempty
  | @add _ _ _ b _ _ hadd _ ih =>
    rcases hadd.parts with ⟨_, _, mid, mid', -, -, -, hminer, htxs, hlast⟩
    refine hpruning _ (hheader hlast ?_)
    have hmid := htx hminer ih
    clear hminer hlast
    generalize b.txs.zip b.blk.txHashes = l at htxs
    induction htxs with
    | nil _ => exact hmid
    | cons hone _ ih => exact ih (htx hone hmid)

/-- The ids of transactions are below their number. -/
theorem Represents.txId_lt (h : Represents C chain db) :
    ∀ txHash data, db.txIndices.get? txHash = some data → data.txId < getTxCount db := by
  refine h.rule (I := fun db => ∀ txHash data, db.txIndices.get? txHash = some data →
    data.txId < getTxCount db) (fun _ _ hget => by cases hget) (fun _ hdb => hdb) ?_ ?_
  · intro db db' tx blob txHash hadd hdb hash data hget
    rw [hadd.rest, get_put] at hget
    rw [hadd.txCount]
    split_ifs at hget with heq
    · cases hget
      exact Nat.lt_succ_self _
    · exact (hdb hash data hget).trans (Nat.lt_succ_self _)
  · intro db db' blk hadd hdb
    rw [hadd.rest]
    exact hdb

end

/-! ## Pruning -/

/-- What a pass of pruning does that looks at transactions with these ids, in blocks at these
    heights: it deletes the prunable data of some, and it notes some of them for the tip. -/
structure Pass (l : List (Nat × Nat)) (db db' : Tables) : Prop where
  rest : db' = db.withPruning ⟨db'.txsPrunable, db'.txsPrunableTip, db.pruningSeed⟩
  kept : ∀ txId data, db'.txsPrunable.get? txId = some data → db.txsPrunable.get? txId = some data
  tip : ∀ e ∈ db'.txsPrunableTip.entries, e ∈ db.txsPrunableTip.entries ∨ e ∈ l

section

variable {seed : UInt32} {db mid db' : Tables} {l l' : List (Nat × Nat)}

theorem Pass.refl (l : List (Nat × Nat)) (db : Tables) : Pass l db db where
  rest := rfl
  kept _ _ h := h
  tip _ h := .inl h

theorem Pass.trans (h : Pass l db mid) (h' : Pass l' mid db') : Pass (l ++ l') db db' where
  rest := by
    rw [h'.rest, h.rest]
    rfl
  kept txId data hget := h.kept txId data (h'.kept txId data hget)
  tip e he := by
    rcases h'.tip e he with hmid | hmem
    · exact (h.tip e hmid).imp_right (mem_append_left _)
    · exact .inr (mem_append_right _ hmem)

/-- The prunable data of one transaction is kept or deleted. -/
theorem Pass.one {txId h : Nat} {prunable : Bool} {tip : SortedTable Nat Nat}
    (htip : ∀ e ∈ tip.entries, e ∈ db.txsPrunableTip.entries ∨ e = (txId, h)) :
    Pass [(txId, h)] db { db with
      txsPrunable := if prunable then db.txsPrunable.erase txId else db.txsPrunable
      txsPrunableTip := tip } where
  rest := rfl
  kept id data hget := by
    split_ifs at hget
    · rw [get_erase] at hget
      split_ifs at hget
      exact hget
    · exact hget
  tip e he := (htip e he).imp_right mem_singleton.mpr

theorem pruneTip_ok (h : pruneTip seed db l = .ok db') : Pass l db db' := by
  induction l generalizing db with
  | nil =>
    cases h
    exact .refl _ _
  | cons e l ih =>
    rcases e with ⟨txId, blockHeight⟩
    rw [pruneTip] at h
    split_ifs at h with hbelow
    · rcases bind_eq_ok_iff.mp h with ⟨prunable, -, hrest⟩
      exact (Pass.one fun e he => .inl (mem_of_mem_filter he)).trans (ih hrest)
    · exact (Pass.refl [(txId, blockHeight)] db).trans (ih h)

variable {mode : PruneMode}

theorem pruneAll_ok {entries : List (Hash × TxData)} (h : pruneAll mode seed db entries = .ok db') :
    Pass (entries.map fun e => (e.2.txId, e.2.blockId)) db db' := by
  induction entries generalizing db with
  | nil =>
    cases h
    exact .refl _ _
  | cons e entries ih =>
    rcases e with ⟨txHash, data⟩
    rcases bind_eq_ok_iff.mp h with ⟨prunable, -, hrest⟩
    refine Pass.trans (l := [(data.txId, data.blockId)]) ?_ (ih hrest)
    by_cases hmode : mode = .check
    · rw [if_pos hmode]
      exact .refl _ _
    · rw [if_neg hmode]
      refine Pass.one fun e he => ?_
      split_ifs at he
      · exact .inl he
      · exact mem_put he

/-- All transactions, with the heights of their blocks. -/
def txBlocks (db : Tables) : List (Nat × Nat) :=
  db.txIndices.entries.map fun e => (e.2.txId, e.2.blockId)

/-- The tables with another seed. -/
def Tables.withSeed (db : Tables) (seed : Option UInt32) : Tables :=
  { db with pruningSeed := seed }

/-- What `prune_worker` does: the first pass sets the seed, and later ones use it. -/
theorem pruneWorker_ok {asked : UInt32} {random : UInt8}
    (h : pruneWorker db mode asked random = .ok db') :
    db' = db ∨ ∃ l seed, (l = txBlocks db ∨ l = db.txsPrunableTip.entries) ∧
      Pass l (db.withSeed seed) db' := by
  rcases bind_eq_ok_iff.mp h with ⟨stripe, -, hrun⟩
  cases hseed : db.pruningSeed with
  | none =>
    simp only [hseed] at hrun
    by_cases hmode : mode ≠ .prune
    · rw [if_pos hmode] at hrun
      cases hrun
      exact .inl rfl
    · rw [if_neg hmode] at hrun
      simp only [bind_eq_ok_iff, orThrow_eq_ok] at hrun
      rcases hrun with ⟨seed, -, hpass⟩
      exact .inr ⟨_, some seed, .inl rfl, pruneAll_ok hpass⟩
  | some data =>
    simp only [hseed, guard_eq_ok_iff, bind_eq_ok_iff] at hrun
    rcases hrun with ⟨-, -, seed, -, hpass⟩
    right
    split_ifs at hpass
    · exact ⟨_, db.pruningSeed, .inr rfl, pruneTip_ok hpass⟩
    · exact ⟨_, db.pruningSeed, .inl rfl, pruneAll_ok hpass⟩

/-- Pruning leaves the chain as it is. -/
theorem Represents.prune {C : Primitives} {chain : List (FiledBlock C)}
    {asked : UInt32} {random : UInt8} (h : Represents C chain db)
    (hrun : pruneWorker db mode asked random = .ok db') : Represents C chain db' := by
  rcases pruneWorker_ok hrun with rfl | ⟨l, seed, hl, hpass⟩
  · exact h
  have hlt : ∀ e ∈ l, e.1 < getTxCount db := by
    intro e he
    rcases hl with rfl | rfl
    · rcases mem_map.mp he with ⟨⟨txHash, data⟩, hmem, rfl⟩
      exact h.txId_lt txHash data (get_eq_some.mpr hmem)
    · exact h.own.tip_lt e he
  have heq : db' = db.withPruning db'.pruning := by
    rw [hpass.rest]
    rfl
  rw [heq]
  refine h.withPruning ⟨fun e he => ?_, fun e he => ?_, hpass.kept⟩
  · exact h.own.prunable_lt e
      (get_eq_some.mp (hpass.kept e.1 e.2 (get_eq_some.mpr he)))
  · exact (hpass.tip e he).elim (h.own.tip_lt e) (hlt e)

end

/-! ## Calls -/

/-- The calls that change the tables. -/
inductive Call (C : Primitives) where
  | addBlock (b : FiledBlock C)
  | popBlock
  | pruneBlockchain (pruningSeed : UInt32) (random : UInt8)
  | updatePruning (random : UInt8)

/-- The tables after a call. -/
def Call.run {C : Primitives} (db : Tables) : Call C → Except Exn Tables
  | .addBlock b => Lmdb.addBlock C db b.blk b.weights b.txs
  | .popBlock => (Lmdb.popBlock C db).map fun r => r.2.2
  | .pruneBlockchain pruningSeed random => Lmdb.pruneBlockchain db pruningSeed random
  | .updatePruning random => Lmdb.updatePruning db random

/-- A call that returns. One that throws changes nothing. -/
def Step (C : Primitives) (db db' : Tables) : Prop :=
  ∃ call : Call C, call.run db = .ok db'

/-- The tables that calls lead to from a new database. -/
def Reached (C : Primitives) (db : Tables) : Prop :=
  Transition.Run (Step C) Tables.empty db

/-- A call on the tables and on a stack of blocks. One that throws changes neither. -/
def Call.apply {C : Primitives} (s : Tables × List (FiledBlock C)) (call : Call C) :
    Tables × List (FiledBlock C) :=
  match call.run s.1, call with
  | .error _, _ => s
  | .ok db, .addBlock b => (db, b :: s.2)
  | .ok db, .popBlock => (db, s.2.tail)
  | .ok db, .pruneBlockchain _ _ | .ok db, .updatePruning _ => (db, s.2)

/-- `pop_block` returns these blocks one after the other, and then throws. -/
def Pops (C : Primitives) : Tables → List Wire.Block → Prop
  | db, [] => popBlock C db =
    .error (.blockDne "Attempting to remove block from an empty blockchain")
  | db, b :: rest => ∃ txs db', popBlock C db = .ok (b, txs, db') ∧ Pops C db' rest

section

variable {C : Primitives} {chain : List (FiledBlock C)} {db db' : Tables}

/-- Every call keeps the representation. -/
theorem Represents.step (h : Represents C chain db) (hstep : Step C db db') :
    ∃ chain', Represents C chain' db' := by
  rcases hstep with ⟨call, hrun⟩
  cases call with
  | addBlock b => exact ⟨_, h.push (addBlock_ok hrun)⟩
  | popBlock =>
    replace hrun : (popBlock C db).map (fun r => r.2.2) = .ok db' := hrun
    cases chain with
    | nil =>
      rw [h.pop_empty] at hrun
      cases hrun
    | cons b chain =>
      rcases h.pop with ⟨txs, db', hpop, hrep⟩
      rw [hpop] at hrun
      cases hrun
      exact ⟨chain, hrep⟩
  | pruneBlockchain pruningSeed random => exact ⟨chain, h.prune hrun⟩
  | updatePruning random => exact ⟨chain, h.prune hrun⟩

/-- The tables are always those of a chain. -/
theorem Reached.represents (h : Reached C db) : ∃ chain, Represents C chain db := by
  have hempty : Represents C [] (Tables.empty.withPruning Tables.empty.pruning) :=
    .empty ⟨fun _ h => absurd h not_mem_nil, fun _ h => absurd h not_mem_nil,
      fun _ _ h => h⟩
  refine Transition.Preserves.run (I := fun db => ∃ chain, Represents C chain db) ?_ h
    ⟨[], hempty⟩
  rintro db db' ⟨chain, hrep⟩ hstep
  exact hrep.step hstep

theorem Represents.apply {s : Tables × List (FiledBlock C)} (h : Represents C s.2 s.1)
    (call : Call C) : Represents C (call.apply s).2 (call.apply s).1 := by
  rcases s with ⟨db, chain⟩
  unfold Call.apply
  split
  · exact h
  · rename_i hrun
    exact h.push (addBlock_ok hrun)
  · rename_i db' hrun
    replace hrun : (popBlock C db).map (fun r => r.2.2) = .ok db' := hrun
    cases chain with
    | nil =>
      rw [h.pop_empty] at hrun
      cases hrun
    | cons b chain =>
      rcases h.pop with ⟨txs, db₁, hpop, hrep⟩
      rw [hpop] at hrun
      cases hrun
      exact hrep
  · rename_i hrun
    exact h.prune hrun
  · rename_i hrun
    exact h.prune hrun

theorem Represents.pops (h : Represents C chain db) : Pops C db (chain.map FiledBlock.blk) := by
  induction chain generalizing db with
  | nil => exact h.pop_empty
  | cons b chain ih =>
    rcases h.pop with ⟨txs, db', hpop, hrep⟩
    exact ⟨txs, db', hpop, ih hrep⟩

end

/-- Whatever calls are made, the tables are a stack: what is popped from then on are the blocks
    that were added and not popped, the last one first. -/
theorem calls_stack (C : Primitives) (calls : List (Call C)) :
    let s := calls.foldl Call.apply (Tables.empty, [])
    Pops C s.1 (s.2.map FiledBlock.blk) := by
  have hempty : Represents C [] (Tables.empty.withPruning Tables.empty.pruning) :=
    .empty ⟨fun _ h => absurd h not_mem_nil, fun _ h => absurd h not_mem_nil, fun _ _ h => h⟩
  exact (foldlRecOn calls Call.apply (b := (Tables.empty, []))
    (motive := fun s => Represents C s.2 s.1) hempty fun _ h call _ => h.apply call).pops

/-! ## Outputs of an amount -/

/-- The outputs of an amount are numbered from 0 in the order in which they were added, when so many
    were added of all amounts. -/
structure AmountInOrder (numOutputs : Nat) (t : SortedTable Nat Outkey) : Prop where
  indices : t.Numbered
  added : t.entries.Pairwise fun e e' => e.2.outputId < e'.2.outputId
  known : ∀ e ∈ t.entries, e.2.outputId < numOutputs

/-- Outputs are numbered from 0, and so are those of each amount. -/
structure OutputsInOrder (db : Tables) : Prop where
  outputIds : db.outputTxs.Numbered
  amounts : ∀ amount, AmountInOrder db.outputTxs.count (db.outputAmounts amount)

theorem AmountInOrder.mono {m n : Nat} {t : SortedTable Nat Outkey} (h : AmountInOrder m t)
    (hle : m ≤ n) : AmountInOrder n t :=
  ⟨h.indices, h.added, fun e he => (h.known e he).trans_le hle⟩

theorem AmountInOrder.append {n : Nat} {t t' : SortedTable Nat Outkey} {outkey : Outkey}
    (h : AmountInOrder n t) (happ : t.append? t.count outkey = some t')
    (hid : outkey.outputId = n) : AmountInOrder (n + 1) t' := by
  have hentries := (append_eq_some happ).2
  refine ⟨h.indices.append happ, ?_, fun e he => ?_⟩
  · rw [hentries]
    refine pairwise_append.mpr ⟨h.added, pairwise_singleton _ _, fun e he e' he' => ?_⟩
    rw [mem_singleton.mp he', hid]
    exact h.known e he
  · rw [hentries, mem_append, mem_singleton] at he
    rcases he with he | rfl
    · exact (h.known e he).trans (Nat.lt_succ_self _)
    · exact hid ▸ Nat.lt_succ_self _

section

variable {C : Primitives} {db db' : Tables} {tx : Wire.Transaction} {txHash : Hash}

theorem OutputsInOrder.empty : OutputsInOrder Tables.empty :=
  ⟨rfl, fun _ => ⟨rfl, .nil, fun _ h => absurd h not_mem_nil⟩⟩

/-- The next id is the number of outputs. -/
theorem OutputsInOrder.numOutputs_eq (h : OutputsInOrder db) :
    numOutputs db = db.outputTxs.count := by
  rw [← h.outputIds.last, numOutputs]
  cases db.outputTxs.last? with
  | none | some e => rfl

theorem OutputAdded.in_order {amount : UInt64} {i index : Nat}
    (h : OutputAdded db txHash amount i index db') (hdb : OutputsInOrder db) :
    OutputsInOrder db' := by
  rcases h.added with ⟨outkey, outputTxs, outputs, hid, -, happ, happ', rfl⟩
  rw [hdb.numOutputs_eq] at hid happ
  rw [h.index_eq] at happ'
  have hcount := count_append happ
  refine ⟨hdb.outputIds.append happ, ?_⟩
  show ∀ amount', AmountInOrder outputTxs.count
    (Function.update db.outputAmounts amount outputs amount')
  rw [hcount, Function.forall_update_iff db.outputAmounts
    fun _ t => AmountInOrder (db.outputTxs.count + 1) t]
  exact ⟨(hdb.amounts amount).append happ' hid,
    fun amount' _ => (hdb.amounts amount').mono (Nat.le_succ _)⟩

theorem addOutputs_in_order {i : Nat} {outs : List TxOut} {indices : List Nat}
    (h : addOutputs C tx txHash db i outs = .ok (indices, db')) (hdb : OutputsInOrder db) :
    OutputsInOrder db' := by
  induction outs generalizing db i indices with
  | nil =>
    cases h
    exact hdb
  | cons out outs ih =>
    simp only [addOutputs, bind_eq_ok_iff] at h
    rcases h with ⟨⟨index, mid⟩, hone, ⟨rest, db''⟩, hrest, h⟩
    cases h
    exact ih hrest ((addTxOutput_ok hone).1.in_order hdb)

/-- The order is about the tables of outputs alone. -/
theorem OutputsInOrder.of_eq (h : OutputsInOrder db) (htxs : db'.outputTxs = db.outputTxs)
    (hamounts : db'.outputAmounts = db.outputAmounts) : OutputsInOrder db' := by
  refine ⟨htxs ▸ h.outputIds, ?_⟩
  rw [htxs, hamounts]
  exact h.amounts

theorem TxAdded.in_order {blob : Blob} (h : TxAdded C db tx blob txHash db')
    (hdb : OutputsInOrder db) : OutputsInOrder db' := by
  rcases h.outputs with ⟨mid, indices, htxs, hamounts, hrun, -⟩
  exact (addOutputs_in_order hrun (hdb.of_eq htxs hamounts)).of_eq rfl rfl

/-- Outputs are in order in the tables of every chain. -/
theorem Represents.in_order {chain : List (FiledBlock C)} (h : Represents C chain db) :
    OutputsInOrder db := by
  refine h.rule .empty (fun _ hdb => hdb.of_eq rfl rfl) (fun hadd hdb => hadd.in_order hdb) ?_
  intro db db' blk hadd hdb
  refine hdb.of_eq ?_ ?_
  · rw [hadd.rest]
  · rw [hadd.rest]

end

/-! ## A block is added and popped -/

/-- A block that is added is popped as it was, with its transactions from the last to the first,
    and the tables are what they were before. Outputs of an amount are always numbered from 0 as
    they were added. -/
theorem add_then_pop (C : Primitives) (db : Tables) (hreached : Reached C db) :
    (∀ (b : FiledBlock C) (db' : Tables), addBlock C db b.blk b.weights b.txs = .ok db' →
      popBlock C db' = .ok (b.blk, (b.txs.map Prod.fst).reverse, db)) ∧
    OutputsInOrder db := by
  rcases hreached.represents with ⟨chain, hrep⟩
  refine ⟨fun b db' hrun => ?_, hrep.in_order⟩
  have hadd := addBlock_ok hrun
  rcases hadd.grown.pruning_below hrep.own with ⟨hbelow, hfrom⟩
  rcases hadd.undo hfrom with ⟨txs, hpop, htxs⟩
  rwa [htxs hrep.own rfl, hbelow, Tables.withPruning_pruning, Tables.withPruning_pruning] at hpop

/-! ## Two blocks -/

/-- Primitives for concrete runs. -/
def Primitives.sample : Primitives where
  toCrypto := Crypto.sample
  getBlockHash _ := 1
  zeroCommit amount := BitVec.ofNat 256 amount.toNat

/-- A miner transaction of version 2 with these inputs and one output. -/
def minerTxOf (vin : List TxIn) (prefixSize : UInt32) : Wire.Transaction where
  version := 2
  vin := vin
  vout := [⟨5, .toKey 1⟩]
  unprunableSize := prefixSize + 1
  prefixSize := prefixSize

/-- A transaction of version 1. -/
def oldTransaction : Wire.Transaction where
  version := 1
  vin := [.toKey 3 [0] 7]
  vout := [⟨2, .toKey 9⟩]
  signatures := [[0]]
  unprunableSize := 75
  prefixSize := 75

/-- A first block. -/
def firstBlock (minerTx : Wire.Transaction) (txHashes : List Hash) : Wire.Block where
  majorVersion := 1
  minorVersion := 1
  timestamp := 0
  prevId := 0
  nonce := 0
  minerTx := minerTx
  txHashes := txHashes

/-- The blob of what can be written. -/
def blobOf (o : Option Blob) : Blob :=
  o.getD []

/-- A block with a miner transaction of version 2 and another one. -/
def firstFiled : FiledBlock Primitives.sample where
  blk := firstBlock (minerTxOf [.gen 0] 41) [2]
  weights := ⟨0, 0, 0, 0⟩
  txs := [(oldTransaction, blobOf (txToBlob oldTransaction))]
  blob := blobOf (blockToBlob (firstBlock (minerTxOf [.gen 0] 41) [2]))
  written := by decide +kernel
  parsed := by decide +kernel
  miner_small a ha := by
    have hlen : (blobOf (serializeBase.write (minerTxOf [.gen 0] 41))).length < 2 ^ 32 := by
      decide +kernel
    rw [show serializeBase.write (minerTxOf [.gen 0] 41) = some a from ha] at hlen
    exact hlen
  miner_matched out hout := by
    cases mem_singleton.mp hout
    decide
  filed := by
    intro tx htx
    cases mem_singleton.mp htx
    have hsmall : ∀ a, serializeBase.write oldTransaction = some a → a.length < 2 ^ 32 := by
      intro a ha
      have hlen : (blobOf (serializeBase.write oldTransaction)).length < 2 ^ 32 := by
        decide +kernel
      rw [ha] at hlen
      exact hlen
    have hparsed : (parseAndValidateTxFromBlob Crypto.sample
        (blobOf (txToBlob oldTransaction))).2 = some oldTransaction := by decide +kernel
    refine ⟨hparsed, .of_parsed hparsed (by decide +kernel) hsmall, fun out hout => ?_⟩
    cases mem_singleton.mp hout
    decide

theorem add_then_pop_first :
    ∃ db', addBlock Primitives.sample Tables.empty firstFiled.blk firstFiled.weights
        firstFiled.txs = .ok db' ∧
      popBlock Primitives.sample db' = .ok (firstFiled.blk, [oldTransaction], Tables.empty) := by
  cases hrun : addBlock Primitives.sample Tables.empty firstFiled.blk firstFiled.weights
      firstFiled.txs with
  | error e =>
    have hok : (addBlock Primitives.sample Tables.empty firstFiled.blk firstFiled.weights
      firstFiled.txs).isOk = true := by decide +kernel
    rw [hrun] at hok
    cases hok
  | ok db' =>
    exact ⟨db', rfl, (add_then_pop Primitives.sample Tables.empty .refl).1 firstFiled db' hrun⟩

/-- A block whose miner transaction has two inputs of type `txin_gen`. -/
def twiceGenerated : Wire.Block :=
  firstBlock (minerTxOf [.gen 0, .gen 0] 43) []

/-- Such a block is added, its output under amount 0, and cannot be popped: the output is looked
    for under its own amount. -/
theorem twice_generated_not_popped : (∃ blob, blockToBlob twiceGenerated = some blob ∧
      (parseAndValidateBlockFromBlob blob).2 = some twiceGenerated) ∧
    ∃ db', addBlock Primitives.sample Tables.empty twiceGenerated ⟨0, 0, 0, 0⟩ [] = .ok db' ∧
      popBlock Primitives.sample db' = .error (.outputDne
        "Attempting to get an output index by amount and amount index, but amount not found") := by
  have hblob : blockToBlob twiceGenerated = some (blobOf (blockToBlob twiceGenerated)) := by
    decide +kernel
  refine ⟨⟨_, hblob, by decide +kernel⟩, ?_⟩
  have hrun :
      ((addBlock Primitives.sample Tables.empty twiceGenerated ⟨0, 0, 0, 0⟩ []).toOption.bind
      fun db' => match popBlock Primitives.sample db' with
        | .ok _ => none
        | .error e => some e) = some (.outputDne
        "Attempting to get an output index by amount and amount index, but amount not found") := by
    decide +kernel
  cases hadd : addBlock Primitives.sample Tables.empty twiceGenerated ⟨0, 0, 0, 0⟩ [] with
  | error e =>
    rw [hadd] at hrun
    cases hrun
  | ok db' =>
    refine ⟨db', rfl, ?_⟩
    rw [hadd] at hrun
    cases hpop : popBlock Primitives.sample db' with
    | ok _ => simp [Except.toOption, hpop] at hrun
    | error e => simpa [Except.toOption, hpop] using hrun

end Lmdb

end CocaineNode
