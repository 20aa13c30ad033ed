import CocaineNode.Theory.TxHash

/-!
# What Is Kept of a Transaction

The database keeps the blob of a transaction in two parts, and later has only the
first one to go by. `read_base` says that this is enough: the first part is
read as a transaction with the same prefix, so with the same version, inputs and
outputs.

The size of the first part is what parsing left in the transaction, in 32 bits,
so parts of 4 GiB and more are excluded.

## Theorems

* `Wire.Stored.of_parsed`, `Wire.Stored.of_block`: Where such transactions come from.
* `Wire.read_base`: The first part is read with the prefix of the transaction.
-/

namespace CocaineNode

namespace Wire

open Codec List Wire.Transaction

variable {t : Transaction} {blob : Blob}

/-- The blob of a transaction begins with its base, and the size that is left behind is that of the
    base or none. -/
theorem base_of_write (hpruned : t.pruned = false) (h : serializeTransaction.write t = some blob) :
    ∃ a c, serializeBase.write t = some a ∧ blob = a ++ c ∧
      (t.written.unprunableSize = 0 ∨ t.written.unprunableSize = UInt32.ofNat a.length) := by
  by_cases hshort : t.version = 1 ∨ t.vin.isEmpty
  · rcases (map_write _ _ _ _ _).mp h with ⟨x, hx, hparts⟩
    rw [hpruned] at hx
    cases hx
    rcases (seq_write _ _ _ _).mp hparts with ⟨a, y, ha, htail, rfl⟩
    replace ha : serializePrefix.write t.toTransactionPrefix = some a := ha
    refine ⟨a, y, ?_, rfl, ?_⟩
    · refine (map_write _ _ _ _ _).mpr ⟨_, rfl, (seq_write _ _ _ _).mpr
        ⟨a, [], ha, ?_, append_nil a⟩⟩
      rw [if_pos hshort]
      rfl
    · simp only [written, used, unprunableSizeAfter, size_eq ha]
      by_cases hone : t.version = 1
      · exact .inr (if_pos hone)
      · rw [if_neg hone, if_pos (hshort.resolve_left hone)]
        exact .inl rfl
  · rw [not_or] at hshort
    have hvin : t.vin ≠ [] := fun hnil => hshort.2 (isEmpty_iff.mpr hnil)
    rcases cut_of_write hshort.1 hvin hpruned h with ⟨a, b, c, hcut, rfl⟩
    refine ⟨a ++ b, c, hcut.serializeBase_write, by simp, .inr ?_⟩
    simp only [written, used, unprunableSizeAfter, if_neg hshort.1, if_neg hshort.2,
      size_eq hcut.prefix_write, size_eq hcut.base_write, length_append]

/-! ## The base is expanded -/

/-- Outputs with keys give destinations. -/
theorem exists_fillDests (l : List CtKey) (os : List TxOut)
    (h : ∀ o ∈ os, o.target.publicKey?.isSome) : ∃ l', fillDests l os = some l' := by
  induction l generalizing os with
  | nil => exact ⟨[], by cases os <;> rfl⟩
  | cons k l ih =>
    cases os with
    | nil => exact ⟨[], rfl⟩
    | cons o os =>
      rcases Option.isSome_iff_exists.mp (h o (by simp)) with ⟨key, hkey⟩
      rcases ih os fun o' ho' => h o' (mem_cons_of_mem _ ho') with ⟨rest, hrest⟩
      exact ⟨_, by rw [fillDests, hkey, hrest]; rfl⟩

variable {a : Blob}

/-- There is a commitment in the base for each output, if there is a signature. -/
theorem base_outPk_length (h : serializeBase.write t = some a)
    (hnull : t.base.rctSignatures.type ≠ rctTypeNull) :
    t.base.rctSignatures.outPk.length = t.vout.length := by
  have hlong : ¬ (t.version = 1 ∨ t.vin.isEmpty) := by
    intro hshort
    simp only [base, if_pos hshort] at hnull
    exact hnull rfl
  rcases (map_write _ _ _ _ _).mp h with ⟨_, ⟨⟩, hparts⟩
  rcases (seq_write _ _ _ _).mp hparts with ⟨p, b, -, hb, -⟩
  simp only [if_neg hlong] at hb
  have hwrites := (writes_rctsigBase _ _ _).mp ((writes_iff _ _).mpr ⟨b, hb⟩)
  simp only [base, if_neg hlong, RctSigBase.serialised_type] at hnull ⊢
  simp only [RctSigBase.serialised, if_neg hnull, length_map]
  exact (hwrites.resolve_left hnull).outPk

/-- The base of a transaction whose outputs have keys is expanded. -/
theorem base_expands (C : Crypto) (h : serializeBase.write t = some a)
    (hkeys : ∀ o ∈ t.vout, o.target.publicKey?.isSome) :
    ∃ x, (expandTransaction1 C t.base true).2 = some x ∧
      x.toTransactionPrefix = t.toTransactionPrefix := by
  simp only [expandTransaction1]
  by_cases hversion : 2 ≤ t.base.version ∧ ¬ t.base.isCoinbase
  swap
  · rw [if_pos hversion]
    exact ⟨_, rfl, rfl⟩
  rw [if_neg (not_not.mpr hversion)]
  by_cases hnull : t.base.rctSignatures.type = rctTypeNull
  · rw [if_pos hnull]
    exact ⟨_, rfl, rfl⟩
  have hlen : t.base.rctSignatures.outPk.length = t.base.vout.length := base_outPk_length h hnull
  rw [if_neg hnull, if_neg (not_not.mpr hlen)]
  rcases exists_fillDests t.base.rctSignatures.outPk t.base.vout hkeys with ⟨l, hl⟩
  rw [hl]
  exact ⟨_, rfl, rfl⟩

/-! ## A transaction with its blob -/

theorem Expanded.unprunableSize_eq {C : Crypto} {x : Transaction} {baseOnly : Bool}
    (h : Expanded C t baseOnly x) : x.unprunableSize = t.unprunableSize := by
  cases h with
  | same _ _ | dests _ _ _ _ _ | plus _ _ _ _ _ _ _ | bulletproof _ _ _ _ _ _ _ _ => rfl

/-- A transaction with its blob and the sizes that parsing it leaves. -/
structure Stored (t : Transaction) (blob : Blob) : Prop where
  pruned : t.pruned = false
  written : serializeTransaction.write t = some blob
  size : t.unprunableSize = t.written.unprunableSize
  small : ∀ a, serializeBase.write t = some a → a.length < 2 ^ 32

/-- A transaction that is parsed from its blob. -/
theorem Stored.of_parsed {C : Crypto} (hparsed : (parseAndValidateTxFromBlob C blob).2 = some t)
    (hblob : txToBlob t = some blob)
    (hsmall : ∀ a, serializeBase.write t = some a → a.length < 2 ^ 32) : Stored t blob := by
  rcases parseAndValidateTxFromBlob_some hparsed with ⟨x, hread, hexpand, -⟩
  have hpruned : t.pruned = false :=
    hexpand.pruned_eq.trans (serializeTransaction_read_pruned hread)
  rw [txToBlob_of_not_pruned hpruned] at hblob
  refine ⟨hpruned, hblob, ?_, hsmall⟩
  -- In front of the expansion the transaction is what its own bytes are read as.
  have hx : x = x.written := by
    rw [hexpand.write_eq] at hblob
    have hround := (serializeTransaction_lawful.round x blob [] hblob).1
    rw [append_nil, hread] at hround
    exact (Prod.mk.inj (Option.some.inj hround)).1
  calc t.unprunableSize = x.unprunableSize := hexpand.unprunableSize_eq
    _ = x.written.unprunableSize := congrArg _ hx
    _ = t.written.unprunableSize := by
        simp only [Transaction.written, Transaction.used, hexpand.kept.1, Codec.size,
          hexpand.base_write_eq]

/-- The miner transaction of a block that is parsed from its blob. -/
theorem Stored.of_block {b : Block} (hparsed : (parseAndValidateBlockFromBlob blob).2 = some b)
    (hblob : blockToBlob b = some blob)
    (hsmall : ∀ a, serializeBase.write b.minerTx = some a → a.length < 2 ^ 32) :
    ∃ minerBlob, txToBlob b.minerTx = some minerBlob ∧ Stored b.minerTx minerBlob := by
  have hread := (parseAndValidateBlockFromBlob_some hparsed).1
  have hpruned := serializeBlock_read_pruned hread
  rw [blockToBlob_of_not_pruned hpruned] at hblob
  have hround := (serializeBlock_lawful.round b blob [] hblob).1
  rw [append_nil, hread] at hround
  have hb := (Prod.mk.inj (Option.some.inj hround)).1
  rcases (map_write _ _ _ _ _).mp hblob with ⟨_, ⟨⟩, hparts⟩
  rcases (pair_write _ _ _ _).mp hparts with ⟨_, _, -, hrest, -⟩
  rcases (pair_write _ _ _ _).mp hrest with ⟨minerBlob, _, hminer, -, -⟩
  rw [txToBlob_of_not_pruned hpruned]
  exact ⟨minerBlob, hminer, hpruned, hminer,
    congrArg (fun b : Block => b.minerTx.unprunableSize) hb, hsmall⟩

/-- The blob in its two parts, with the size of the first. -/
theorem Stored.parts (h : Stored t blob) :
    ∃ a c, blob = a ++ c ∧ serializeBase.write t = some a ∧ a.length < 2 ^ 32 ∧
      (t.unprunableSize = 0 ∨ t.unprunableSize.toNat = a.length) := by
  rcases base_of_write h.pruned h.written with ⟨a, c, ha, hblob, hsize⟩
  have hsmall := h.small a ha
  refine ⟨a, c, hblob, ha, hsmall, ?_⟩
  rw [h.size]
  refine hsize.imp_right fun hsize => ?_
  rw [hsize, UInt32.toNat_ofNat', Nat.mod_eq_of_lt hsmall]

/-- The first part is read as a transaction with the same prefix. -/
theorem read_base (C : Crypto) (ha : serializeBase.write t = some a)
    (hkeys : ∀ o ∈ t.vout, o.target.publicKey?.isSome) :
    ∃ x, parseAndValidateTxBaseFromBlob C a = some x ∧
      x.toTransactionPrefix = t.toTransactionPrefix := by
  have hround := (serializeBase_lawful.round t a [] ha).1
  rw [append_nil] at hround
  rw [parseAndValidateTxBaseFromBlob, hround]
  exact base_expands C ha hkeys

end Wire

end CocaineNode
