import CocaineNode.Core.Serialization
import CocaineNode.Theory.RctTypes

/-!
# Blobs and What They Decode To

The laws of the transaction and block formats, put together from those of their
parts, and what they say about blobs.

Every accepted blob is the blob of what it decodes to, with one exception. The
varint reader stops at the end of the input as if the number ended there, so a
blob may lack its last varints, or the end of one, and still decode: the blob
of a block without transactions may leave out their count.
`reserialise_iff` says that this is the only exception, and
`cut_blobs_accepted` shows it.

In the other direction nothing is lost: `deserialise_serialise` says that a
transaction or a block is read back up to what is not serialised.

## Theorems

* `Wire.reserialise_iff`: A blob is that of what it decodes to unless a varint is cut off.
* `Wire.deserialise_serialise`: What is serialised is read back.
-/

namespace CocaineNode

namespace Wire

open Codec Option Wire.Transaction

/-! ## Inputs and outputs -/

theorem serializeTxin_lawful : serializeTxin.Lawful id := by
  have hbytes := Lawful.byte.counted_id Wide.byte
  refine Lawful.header (n := fun _ => id) Lawful.byte (fun tag => ?_) (fun tag i h => ?_)
  · split_ifs with hgen hscript hscripthash hkey
    · refine varint64_lawful.map (fun _ _ => rfl) fun i b h => ?_
      cases i <;> cases h
      rfl
    · refine (key_lawful.pair <| varint64_lawful.pair hbytes).map (fun _ _ => rfl) fun i b h => ?_
      cases i <;> cases h
      rfl
    · refine (key_lawful.pair <| varint64_lawful.pair <| keys_lawful.pair <| hbytes.pair
        hbytes).map (fun _ _ => rfl) fun i b h => ?_
      cases i <;> cases h
      rfl
    · refine (varint64_lawful.pair <| (varint64_lawful.counted_id varint64_wide).pair
        key_lawful).map (fun _ _ => rfl) fun i b h => ?_
      cases i <;> cases h
      rfl
    · exact Lawful.fail _
  · -- Each body writes inputs of its own kind only.
    split_ifs at h with hgen hscript hscripthash hkey
    · cases i <;> simp_all [txinTag]
    · cases i <;> simp_all [txinTag]
    · cases i <;> simp_all [txinTag]
    · cases i <;> simp_all [txinTag]
    · exact absurd h (not_writes_fail i)

theorem serializeTxin_safe : serializeTxin.Safe := by
  have hbytes := Safe.byte.counted
  refine Safe.byte.header _ fun tag => ?_
  refine (varint64_safe.map _ _).ite <| ((key_safe.pair <| varint64_safe.pair hbytes).map _ _).ite
    <| ((key_safe.pair <| varint64_safe.pair <| key_safe.counted.pair <| hbytes.pair hbytes).map
      _ _).ite <| ((varint64_safe.pair <| varint64_safe.counted.pair key_safe).map _ _).ite ?_
  exact Safe.fail

theorem serializeTxin_wide : serializeTxin.Wide :=
  Wide.byte.header _ _

/-- The vectors of an input have sizes of 64 bits. -/
def txinFits : TxIn → Prop
  | .gen _ => True
  | .toScript _ _ sigset => sigset.length < 2 ^ 64
  | .toScripthash _ _ keys script sigset =>
    keys.length < 2 ^ 64 ∧ script.length < 2 ^ 64 ∧ sigset.length < 2 ^ 64
  | .toKey _ keyOffsets _ => keyOffsets.length < 2 ^ 64

@[simp] theorem writes_txin (i : TxIn) : serializeTxin.Writes i ↔ txinFits i := by
  cases i <;> simp [serializeTxin, txinTag, txinFits]

theorem serializeTxoutTarget_lawful : serializeTxoutTarget.Lawful id := by
  have hbytes := Lawful.byte.counted_id Wide.byte
  refine Lawful.header (n := fun _ => id) Lawful.byte (fun tag => ?_) (fun tag t h => ?_)
  · split_ifs with hscript hscripthash hkey htagged
    · refine (keys_lawful.pair hbytes).map (fun _ _ => rfl) fun t b h => ?_
      cases t <;> cases h
      rfl
    · refine key_lawful.map (fun _ _ => rfl) fun t b h => ?_
      cases t <;> cases h
      rfl
    · refine key_lawful.map (fun _ _ => rfl) fun t b h => ?_
      cases t <;> cases h
      rfl
    · refine (key_lawful.pair Lawful.byte).map (fun _ _ => rfl) fun t b h => ?_
      cases t <;> cases h
      rfl
    · exact Lawful.fail _
  · split_ifs at h with hscript hscripthash hkey htagged
    · cases t <;> simp_all [txoutTag]
    · cases t <;> simp_all [txoutTag]
    · cases t <;> simp_all [txoutTag]
    · cases t <;> simp_all [txoutTag]
    · exact absurd h (not_writes_fail t)

theorem serializeTxoutTarget_safe : serializeTxoutTarget.Safe := by
  refine Safe.byte.header _ fun tag => ?_
  refine ((key_safe.counted.pair Safe.byte.counted).map _ _).ite <| (key_safe.map _ _).ite <|
    (key_safe.map _ _).ite <| ((key_safe.pair Safe.byte).map _ _).ite ?_
  exact Safe.fail

/-- The vectors of an output have sizes of 64 bits. -/
def txoutFits : TxOutTarget → Prop
  | .toScript keys script => keys.length < 2 ^ 64 ∧ script.length < 2 ^ 64
  | _ => True

@[simp] theorem writes_txoutTarget (t : TxOutTarget) :
    serializeTxoutTarget.Writes t ↔ txoutFits t := by
  cases t <;> simp [serializeTxoutTarget, txoutTag, txoutFits]

theorem serializeTxout_lawful : serializeTxout.Lawful id :=
  (varint64_lawful.pair serializeTxoutTarget_lawful).map (fun _ _ => rfl)
    (by rintro o _ ⟨⟩; rfl)

theorem serializeTxout_safe : serializeTxout.Safe :=
  (varint64_safe.pair serializeTxoutTarget_safe).map _ _

theorem serializeTxout_wide : serializeTxout.Wide :=
  (varint64_wide.pair _).map _ _

@[simp] theorem writes_txout (o : TxOut) : serializeTxout.Writes o ↔ txoutFits o.target := by
  simp [serializeTxout]

/-! ## The prefix -/

theorem serializePrefix_lawful : serializePrefix.Lawful id := by
  have hversion : (varint64.check (fun v => !(v == 0 || currentTransactionVersion < v))
      fun _ => []).Lawful id :=
    varint64_lawful.check (fun _ _ hp => hp) fun _ => List.not_mem_nil
  exact (hversion.pair <| varint64_lawful.pair <|
    (serializeTxin_lawful.counted_id serializeTxin_wide).pair <|
    (serializeTxout_lawful.counted_id serializeTxout_wide).pair <|
    Lawful.byte.counted_id Wide.byte).map (fun _ _ => rfl) (by rintro t _ ⟨⟩; rfl)

theorem serializePrefix_safe : serializePrefix.Safe := by
  have hversion : (varint64.check (fun v => !(v == 0 || currentTransactionVersion < v))
      fun _ => []).Safe :=
    varint64_safe.check _ fun _ _ _ _ _ h => absurd h List.not_mem_nil
  exact (hversion.pair <| varint64_safe.pair <| serializeTxin_safe.counted.pair <|
    serializeTxout_safe.counted.pair Safe.byte.counted).map _ _

/-- The vectors of a prefix have sizes of 64 bits. -/
structure TransactionPrefix.Fits (t : TransactionPrefix) : Prop where
  vin : t.vin.length < 2 ^ 64 ∧ ∀ i ∈ t.vin, txinFits i
  vout : t.vout.length < 2 ^ 64 ∧ ∀ o ∈ t.vout, txoutFits o.target
  extra : t.extra.length < 2 ^ 64

theorem writes_transactionPrefix (t : TransactionPrefix) :
    serializePrefix.Writes t ↔ (t.version = 1 ∨ t.version = 2) ∧ t.Fits := by
  have hversion : (¬ t.version = 0 ∧ t.version ≤ 2) ↔ t.version = 1 ∨ t.version = 2 := by
    simp only [← UInt64.toNat_inj, UInt64.le_iff_toNat_le]
    simp only [UInt64.reduceToNat]
    omega
  simp only [serializePrefix, writes_map, some.injEq, exists_eq_left', writes_pair,
    writes_check, writes_varint64, writes_counted, writes_txin, writes_txout, writes_byte,
    implies_true, and_true, true_and, Bool.not_eq_true', Bool.or_eq_false_iff, beq_eq_false_iff_ne,
    ne_eq, decide_eq_false_iff_not, UInt64.not_lt]
  simp only [currentTransactionVersion, hversion]
  exact and_congr_right fun _ => ⟨fun h => ⟨h.1, h.2.1, h.2.2⟩, fun h => ⟨h.vin, h.vout, h.extra⟩⟩

/-! ## Signatures -/

theorem signature_lawful : signature.Lawful id :=
  Lawful.blob 64

theorem signature_safe : signature.Safe :=
  Safe.blob 64

@[simp] theorem writes_signature (s : Signature) : signature.Writes s :=
  rfl

theorem serializeRingSignature_lawful (i : TxIn) : (serializeRingSignature i).Lawful id := by
  refine (signature_lawful.array_id _).atLeast fun l bs h => ?_
  exact array_length_le (fun x bs hx => le_of_eq (blob_length 64 x bs hx).symm) _ l bs h

variable (vin : List TxIn)

theorem serializeRingSignatures_lawful : (serializeRingSignatures vin).Lawful id := by
  have hone : ∀ p : TxIn × Nat, ((serializeRingSignature p.1).check (fun _ => true)
      fun _ => [.sub vin.length p.2]).Lawful id :=
    fun p => (serializeRingSignature_lawful p.1).check (fun _ _ _ => rfl) fun _ => by simp
  have h := Lawful.forEach hone vin.zipIdx
  rwa [List.map_id_fun] at h

theorem serializeRingSignatures_safe : (serializeRingSignatures vin).Safe := by
  refine Safe.forEach fun p hp => ((signature_safe.array _).atLeast _).check _ ?_
  intro _ _ _ _ e he
  rw [List.mem_singleton] at he
  rw [he]
  exact Nat.le_of_lt (List.snd_lt_of_mem_zipIdx hp)

variable (l : List (List Signature))

theorem writes_ringSignatures : (serializeRingSignatures vin).Writes l ↔
      List.Forall₂ (fun i s => s.length = getSignatureSize i) vin l := by
  have hwrite : (serializeRingSignatures vin).write =
      (forEach serializeRingSignature vin).write := by
    refine forEach_write_congr (List.forall₂_iff_get.mpr ⟨by simp, fun i _ _ => ?_⟩)
    simp [check]
  rw [Writes, hwrite]
  show (forEach serializeRingSignature vin).Writes l ↔ _
  simp only [writes_forEach, serializeRingSignature, writes_atLeast, writes_array,
    writes_signature, implies_true, and_true]

/-- The lists of signatures as they are read back. -/
def signaturesSerialised (vin : List TxIn) (l : List (List Signature)) : List (List Signature) :=
  if l.isEmpty then List.replicate vin.length [] else l

theorem serializeSignatures_lawful :
    (serializeSignatures vin).Lawful (signaturesSerialised vin) := by
  refine (serializeRingSignatures_lawful vin).map (fun l hl => ?_) ?_
  · -- There is a list for each input, so none are missing unless there are no inputs.
    rw [writes_ringSignatures] at hl
    cases l with
    | nil =>
      cases hl
      rfl
    | cons s l => rfl
  · rintro l _ ⟨⟩
    rfl

theorem serializeSignatures_safe : (serializeSignatures vin).Safe :=
  (serializeRingSignatures_safe vin).map _ _

/-- The sizes of the signatures of version 1: one for each ring member of each input, where the
    lists may be missing if they would all be empty. -/
def SignaturesSized (vin : List TxIn) (l : List (List Signature)) : Prop :=
  List.Forall₂ (fun i s => s.length = getSignatureSize i) vin (signaturesSerialised vin l)

theorem writes_signatures : (serializeSignatures vin).Writes l ↔ SignaturesSized vin l := by
  simp only [serializeSignatures, writes_map, some.injEq, exists_eq_left', writes_ringSignatures]
  rfl

/-! ## Transactions -/

theorem not_cut_mem_mixinOps : Note.cut ∉ mixinOps vin := by
  unfold mixinOps
  split <;> simp

variable (p : TransactionPrefix)

theorem serializePrunable_lawful (type : UInt8) :
    (serializePrunable p type).Lawful (RctSigPrunable.written type) := by
  rw [serializePrunable]
  by_cases hnull : type = rctTypeNull
  · rw [if_pos hnull, hnull, show RctSigPrunable.written rctTypeNull = fun _ => {} from
      funext RctSigPrunable.written_null]
    exact Lawful.absent _
  · rw [if_neg hnull]
    exact (serializeRctsigPrunable_lawful _ _ _ _).noting (not_cut_mem_mixinOps _)

/-- What follows the prefix as it is read back. -/
def tailWritten (p : TransactionPrefix)
    (x : List (List Signature) × (RctSigBase × Nat) × RctSigPrunable) :
    List (List Signature) × (RctSigBase × Nat) × RctSigPrunable :=
  if p.version = 1 then (signaturesSerialised p.vin x.1, ({}, 0), {})
  else if p.vin.isEmpty then ([], ({}, 0), {})
  else ([], (x.2.1.1.serialised, (serializeRctsigBase p.vin.length p.vout.length).size x.2.1.1),
    x.2.2.written x.2.1.1.type)

theorem serializeTail_lawful : (serializeTail p).Lawful (tailWritten p) := by
  have hrct : ((measured (serializeRctsigBase p.vin.length p.vout.length)).seq fun b =>
      serializePrunable p b.1.type).Lawful fun x =>
        ((x.1.1.serialised, (serializeRctsigBase p.vin.length p.vout.length).size x.1.1),
          x.2.written x.1.1.type) :=
    (serializeRctsigBase_lawful _ _).measured.seq (fun b => serializePrunable_lawful p b.1.type)
      fun b => by rw [RctSigBase.serialised_type]
  exact Lawful.ite (p := p.version = 1)
    ((serializeSignatures_lawful p.vin).pair (Lawful.absent _))
    (Lawful.ite (p := p.vin.isEmpty = true) (Lawful.absent _) ((Lawful.absent []).pair hrct))

/-- The size of the base is not written. -/
theorem serializeTail_write_size (s : List (List Signature))
    (b : RctSigBase) (q : RctSigPrunable) (m m' : Nat) :
    (serializeTail p).write (s, (b, m), q) = (serializeTail p).write (s, (b, m'), q) := by
  rw [serializeTail]
  split_ifs with hone hvin
  · rfl
  · rfl
  · rfl

/-- A transaction with what its version uses, the prunable part given by `p`. The sizes are those
    of its parts as they are written. -/
def Transaction.used (t : Transaction) (p : RctSigPrunable) : Transaction :=
  { t.toTransactionPrefix with
    signatures := if t.version = 1 then signaturesSerialised t.vin t.signatures else []
    rctSignatures :=
      if t.version = 1 ∨ t.vin.isEmpty then {}
      else { t.rctSignatures.toRctSigBase.serialised with p }
    unprunableSize := unprunableSizeAfter t.toTransactionPrefix 0
      (serializePrefix.size t.toTransactionPrefix)
      ((serializeRctsigBase t.vin.length t.vout.length).size t.rctSignatures.toRctSigBase)
    prefixSize := UInt32.ofNat (serializePrefix.size t.toTransactionPrefix) }

/-- What is on the wire of a transaction. -/
def Transaction.serialised (t : Transaction) : Transaction :=
  t.used (t.rctSignatures.p.serialised t.rctSignatures.type)

/-- What is written of a transaction, however many proofs it has. -/
def Transaction.written (t : Transaction) : Transaction :=
  t.used (t.rctSignatures.p.written t.rctSignatures.type)

theorem serializeTransaction_lawful : serializeTransaction.Lawful Transaction.written := by
  have hparts := (serializePrefix_lawful.measured).seq (fun p => serializeTail_lawful p.1)
    fun _ => rfl
  refine hparts.map_of_write_eq ?_ fun t b h => ?_
  · rintro ⟨⟨p, k⟩, s, ⟨b, m⟩, q⟩ -
    refine ⟨((p, 0), s, (b, 0), q), rfl, ?_⟩
    show (serializePrefix.write p).bind (fun x => ((serializeTail p).write _).map _)
      = (serializePrefix.write p).bind fun x => ((serializeTail p).write _).map _
    rw [serializeTail_write_size p s b q 0 m]
  split_ifs at h with hpruned
  cases h
  by_cases hone : t.version = 1
  · simp [tailWritten, written, used, unprunableSizeAfter, hone]
  by_cases hvin : t.vin = []
  · simp [tailWritten, written, used, unprunableSizeAfter, hone, hvin]
  · simp [tailWritten, written, used, unprunableSizeAfter, hone, hvin]

variable {t : Transaction}

theorem txToBlob_of_not_pruned (h : t.pruned = false) :
    txToBlob t = serializeTransaction.write t := by
  simp [txToBlob, h]

/-! ## Blocks -/

theorem serializeBlockHeader_lawful : serializeBlockHeader.Lawful id := by
  have hversion : ((varint 8).map (fun x => some x.toBitVec) UInt8.ofBitVec).Lawful id :=
    (Lawful.varint (by omega)).map (fun _ _ => rfl) (by rintro x _ ⟨⟩; rfl)
  exact (hversion.pair <| hversion.pair <| varint64_lawful.pair <| key_lawful.pair
    uint32_lawful).map (fun _ _ => rfl) (by rintro b _ ⟨⟩; rfl)

theorem serializeTxHashes_lawful : serializeTxHashes.Lawful id :=
  keys_lawful.check (fun _ _ hp => hp) fun _ => List.not_mem_nil

/-- What is on the wire of a block. -/
def Block.serialised (b : Block) : Block :=
  { b with minerTx := b.minerTx.serialised }

theorem serializeBlock_lawful :
    serializeBlock.Lawful fun b => { b with minerTx := b.minerTx.written } :=
  (serializeBlockHeader_lawful.pair <| serializeTransaction_lawful.pair
    serializeTxHashes_lawful).map (fun _ _ => rfl) (by rintro b _ ⟨⟩; rfl)

variable {b : Block}

theorem blockToBlob_of_not_pruned (h : b.minerTx.pruned = false) :
    blockToBlob b = serializeBlock.write b := by
  simp only [blockToBlob, txToBlob_of_not_pruned h, serializeBlock, map, pair, seq,
    bind_eq_bind, pure_def, bind_some]
  cases serializeBlockHeader.write b.toBlockHeader with
  | none => rfl
  | some x =>
    cases serializeTransaction.write b.minerTx with
    | none => rfl
    | some y =>
      cases serializeTxHashes.write b.txHashes with
      | none | some z => rfl

/-! ## Expansion -/

theorem fillDests_masks {l : List CtKey} {os : List TxOut} {l' : List CtKey}
    (hlen : l.length = os.length) (h : fillDests l os = some l') :
    List.Forall₂ (fun k k' => k.mask = k'.mask) l' l := by
  induction l generalizing os l' with
  | nil =>
    cases h
    exact .nil
  | cons k l ih =>
    cases os with
    | nil => simp at hlen
    | cons o os =>
      simp only [fillDests, bind_eq_bind, bind_eq_some_iff] at h
      rcases h with ⟨outputPublicKey, -, rest, hrest, h⟩
      cases h
      exact .cons rfl (ih (by simpa using hlen) hrest)

/-- What `expand_transaction_1` can make of a transaction. -/
inductive Expanded (C : Crypto) (t : Transaction) : Bool → Transaction → Prop
  /-- Nothing is filled in for version 1, for a coinbase and without a signature. -/
  | same (baseOnly : Bool)
      (h : ¬ (2 ≤ t.version ∧ ¬ t.isCoinbase) ∨ t.rctSignatures.type = rctTypeNull) :
      Expanded C t baseOnly t
  /-- The destinations, and no commitments. -/
  | dests (baseOnly : Bool) (outPk : List CtKey)
      (hlen : t.rctSignatures.outPk.length = t.vout.length)
      (hfill : fillDests t.rctSignatures.outPk t.vout = some outPk)
      (h : baseOnly = false → isRctBulletproofPlus t.rctSignatures.type = false ∧
        isRctBulletproof t.rctSignatures.type = false) :
      Expanded C t baseOnly { t with rctSignatures := { t.rctSignatures with outPk } }
  /-- The destinations, and the commitments of the one proof. -/
  | plus (outPk : List CtKey) (proof : BulletproofPlus)
      (hlen : t.rctSignatures.outPk.length = t.vout.length)
      (hfill : fillDests t.rctSignatures.outPk t.vout = some outPk)
      (htype : isRctBulletproofPlus t.rctSignatures.type = true)
      (hproof : t.rctSignatures.p.bulletproofsPlus = [proof])
      (hmax : t.vout.length ≤ (nBulletproofPlusMaxAmounts proof).2) :
      Expanded C t false { t with
        rctSignatures.outPk := outPk
        rctSignatures.p.bulletproofsPlus :=
          [{ proof with V := outPk.map fun k => C.scalarmultInvEight k.mask }] }
  | bulletproof (outPk : List CtKey) (proof : Bulletproof)
      (hlen : t.rctSignatures.outPk.length = t.vout.length)
      (hfill : fillDests t.rctSignatures.outPk t.vout = some outPk)
      (hplus : isRctBulletproofPlus t.rctSignatures.type = false)
      (htype : isRctBulletproof t.rctSignatures.type = true)
      (hproof : t.rctSignatures.p.bulletproofs = [proof])
      (hmax : t.vout.length ≤ 2 ^ (proof.L.length - 6)) :
      Expanded C t false { t with
        rctSignatures.outPk := outPk
        rctSignatures.p.bulletproofs :=
          [{ proof with V := outPk.map fun k => C.scalarmultInvEight k.mask }] }

variable {C : Crypto} {x : Transaction} {baseOnly : Bool}

/-- What the expansion makes of a transaction, and what it computes on the size of a proof. -/
theorem expandTransaction1_spec {r : List Note × Option Transaction}
    (h : expandTransaction1 C t baseOnly = r) :
    (∀ x, r.2 = some x → Expanded C t baseOnly x) ∧
      ∀ e ∈ r.1, (∃ proof, e ∈ (nBulletproofPlusMaxAmounts proof).1) ∨
        ∃ proof, 2 ≤ t.version ∧ isRctBulletproof t.rctSignatures.type = true ∧
          t.rctSignatures.p.bulletproofs = [proof] ∧ 6 ≤ proof.L.length ∧
          (e = .sub proof.L.length 6 ∨ e = .shl 32 (proof.L.length - 6)) := by
  simp only [expandTransaction1] at h
  -- The checks in the order of the source; only the size of a proof leaves notes.
  by_cases hversion : 2 ≤ t.version ∧ ¬ t.isCoinbase
  swap
  · rw [if_pos hversion] at h
    subst h
    exact ⟨by rintro x ⟨⟩; exact .same _ (.inl hversion), nofun⟩
  rw [if_neg (not_not.mpr hversion)] at h
  by_cases hnull : t.rctSignatures.type = rctTypeNull
  · rw [if_pos hnull] at h
    subst h
    exact ⟨by rintro x ⟨⟩; exact .same _ (.inr hnull), nofun⟩
  rw [if_neg hnull] at h
  by_cases hlen : t.rctSignatures.outPk.length = t.vout.length
  swap
  · rw [if_pos hlen] at h
    subst h
    exact ⟨nofun, nofun⟩
  rw [if_neg (not_not.mpr hlen)] at h
  cases hfill : fillDests t.rctSignatures.outPk t.vout with
  | none =>
    rw [hfill] at h
    subst h
    exact ⟨nofun, nofun⟩
  | some outPk =>
    rw [hfill] at h
    simp only at h
    by_cases hbase : baseOnly = true
    · rw [if_pos hbase] at h
      subst h hbase
      exact ⟨by rintro x ⟨⟩; exact .dests _ outPk hlen hfill nofun, nofun⟩
    rw [if_neg hbase] at h
    rw [Bool.not_eq_true] at hbase
    subst hbase
    by_cases hplus : isRctBulletproofPlus t.rctSignatures.type = true
    · rw [if_pos hplus] at h
      split at h
      next proof hproof =>
        split_ifs at h with hsmall hmax
        · subst h
          exact ⟨nofun, nofun⟩
        · subst h
          exact ⟨nofun, fun e he => .inl ⟨proof, he⟩⟩
        · subst h
          refine ⟨?_, fun e he => .inl ⟨proof, he⟩⟩
          rintro x ⟨⟩
          exact .plus outPk proof hlen hfill hplus hproof (not_lt.mp hmax)
      next =>
        subst h
        exact ⟨nofun, nofun⟩
    rw [if_neg hplus] at h
    rw [Bool.not_eq_true] at hplus
    -- For the older proofs the amounts are computed in place, with a subtraction and a shift.
    split_ifs at h with hbp
    · split at h
      next proof hproof =>
        split_ifs at h with hsmall hmax
        · subst h
          exact ⟨nofun, nofun⟩
        · subst h
          exact ⟨nofun, fun e he => .inr ⟨proof, hversion.1, hbp, hproof, not_lt.mp hsmall,
            by simpa using he⟩⟩
        · subst h
          refine ⟨?_, fun e he => .inr ⟨proof, hversion.1, hbp, hproof, not_lt.mp hsmall,
            by simpa using he⟩⟩
          rintro x ⟨⟩
          exact .bulletproof outPk proof hlen hfill hplus hbp hproof (not_lt.mp hmax)
      next =>
        subst h
        exact ⟨nofun, nofun⟩
    · rw [Bool.not_eq_true] at hbp
      subst h
      exact ⟨by rintro x ⟨⟩; exact .dests _ outPk hlen hfill fun _ => ⟨hplus, hbp⟩, nofun⟩

/-- Signatures whose parts are written alike are written alike. -/
theorem serializeTransaction_write_congr {rv : RctSig} (htype : rv.type = t.rctSignatures.type)
    (hbase : (serializeRctsigBase t.vin.length t.vout.length).write rv.toRctSigBase =
      (serializeRctsigBase t.vin.length t.vout.length).write t.rctSignatures.toRctSigBase)
    (hp : (serializeRctsigPrunable t.rctSignatures.type t.vin.length t.vout.length
        (mixin t.vin)).write rv.p =
      (serializeRctsigPrunable t.rctSignatures.type t.vin.length t.vout.length
        (mixin t.vin)).write t.rctSignatures.p) :
    serializeTransaction.write { t with rctSignatures := rv } = serializeTransaction.write t := by
  have hprunable : (serializePrunable t.toTransactionPrefix t.rctSignatures.type).write rv.p =
      (serializePrunable t.toTransactionPrefix t.rctSignatures.type).write t.rctSignatures.p :=
    ite_write_congr (fun _ => rfl) fun _ => hp
  have htail : (serializeTail t.toTransactionPrefix).write
        (t.signatures, (rv.toRctSigBase, 0), rv.p) =
      (serializeTail t.toTransactionPrefix).write
        (t.signatures, (t.rctSignatures.toRctSigBase, 0), t.rctSignatures.p) := by
    refine ite_write_congr (fun _ => rfl) fun _ => ite_write_congr (fun _ => rfl) fun _ => ?_
    simp only [pair, seq, measured, hbase, htype, hprunable]
  by_cases hpruned : t.pruned = true
  · simp [serializeTransaction, map, hpruned]
  · simp only [serializeTransaction, map, hpruned, Bool.false_eq_true, if_false, bind_some,
      seq, htail]

section

variable (h : Expanded C t baseOnly x)
include h

theorem Expanded.pruned_eq : x.pruned = t.pruned := by
  cases h with
  | same _ _ | dests _ _ _ _ _ | plus _ _ _ _ _ _ _ | bulletproof _ _ _ _ _ _ _ _ => rfl

theorem Expanded.kept : x.toTransactionPrefix = t.toTransactionPrefix ∧
      x.rctSignatures.type = t.rctSignatures.type := by
  cases h with
  | same _ _ => exact ⟨rfl, rfl⟩
  | dests _ _ _ _ _ | plus _ _ _ _ _ _ _ | bulletproof _ _ _ _ _ _ _ _ => exact ⟨rfl, rfl⟩

/-- Expanding a transaction does not change the bytes of its base. -/
theorem Expanded.base_write_eq (inputs outputs : Nat) :
    (serializeRctsigBase inputs outputs).write x.rctSignatures.toRctSigBase =
      (serializeRctsigBase inputs outputs).write t.rctSignatures.toRctSigBase := by
  cases h with
  | same _ _ => rfl
  | dests _ _ hlen hfill _ | plus _ _ hlen hfill _ _ _ | bulletproof _ _ hlen hfill _ _ _ _ =>
    exact serializeRctsigBase_write_outPk (fillDests_masks hlen hfill) _ _

/-- Expanding a transaction does not change its blob. -/
theorem Expanded.write_eq : serializeTransaction.write x = serializeTransaction.write t := by
  have hbase := h.base_write_eq t.vin.length t.vout.length
  cases h with
  | same _ _ => rfl
  | dests _ _ _ _ _ => exact serializeTransaction_write_congr rfl hbase rfl
  | plus _ _ _ _ _ hproof _ =>
    refine serializeTransaction_write_congr rfl hbase ?_
    refine serializeRctsigPrunable_write_congr _ ?_ (fun _ => by rfl) (by rfl) _ _ _
    rw [hproof]
    exact serializeProofs_write_congr (.cons (by rfl) .nil) (by rfl) _
  | bulletproof _ _ _ _ _ _ hproof _ =>
    refine serializeTransaction_write_congr rfl hbase ?_
    refine serializeRctsigPrunable_write_congr _ (by rfl) (fun _ => ?_) (by rfl) _ _ _
    rw [hproof]
    exact serializeProofs_write_congr (.cons (by rfl) .nil) (by rfl) _

end

theorem not_cut_mem_expand (C : Crypto) (t : Transaction) (baseOnly : Bool) :
    Note.cut ∉ (expandTransaction1 C t baseOnly).1 := by
  intro h
  rcases (expandTransaction1_spec rfl).2 _ h with ⟨proof, hproof⟩ | ⟨proof, -, -, -, -, h | h⟩
  · exact (nBulletproofMaxAmountsBase_ops _ _ _ _ hproof).2 rfl
  · cases h
  · cases h

/-! ## From a blob and back -/

variable {blob : Blob}

/-- What accepting a transaction means. -/
theorem parseAndValidateTxFromBlob_some (h : (parseAndValidateTxFromBlob C blob).2 = some x) :
    ∃ t, (serializeTransaction.read blob).value = some (t, []) ∧ Expanded C t false x ∧
      (parseAndValidateTxFromBlob C blob).1 =
        (serializeTransaction.read blob).notes ++ (expandTransaction1 C t false).1 := by
  simp only [parseAndValidateTxFromBlob] at h ⊢
  split at h
  next t hread =>
    rw [hread]
    exact ⟨t, rfl, (expandTransaction1_spec rfl).1 _ h, rfl⟩
  next => cases h

/-- A transaction that was read is not pruned. -/
theorem serializeTransaction_read_pruned {rest : Blob}
    (h : (serializeTransaction.read blob).value = some (t, rest)) : t.pruned = false := by
  rcases (map_read_value _ _ _ _ _ _).mp h with ⟨b, -, rfl⟩
  rfl

theorem serializeBlock_read_pruned {rest : Blob}
    (h : (serializeBlock.read blob).value = some (b, rest)) : b.minerTx.pruned = false := by
  rcases (map_read_value _ _ _ _ _ _).mp h with ⟨⟨hd, minerTx, l⟩, hparts, rfl⟩
  rcases (seq_read_value _ _ _ _ _).mp hparts with ⟨mid, -, hrest⟩
  rcases (seq_read_value _ _ _ _ _).mp hrest with ⟨last, htx, -⟩
  exact serializeTransaction_read_pruned htx

theorem parseAndValidateBlockFromBlob_some (h : (parseAndValidateBlockFromBlob blob).2 = some b) :
    (serializeBlock.read blob).value = some (b, []) ∧
      (parseAndValidateBlockFromBlob blob).1 = (serializeBlock.read blob).notes := by
  simp only [parseAndValidateBlockFromBlob] at h ⊢
  split at h
  next b' hread =>
    cases h
    rw [hread]
    exact ⟨rfl, rfl⟩
  next => cases h

/-- For any lawful format: what was read to the end is written with the same bytes exactly if
    nothing was cut off. -/
theorem write_read_iff {α : Type} {c : Codec α} {n : α → α} (hc : c.Lawful n) {a : α}
    (h : (c.read blob).value = some (a, [])) :
    c.write a = some blob ↔ Note.cut ∉ (c.read blob).notes := by
  rcases hc.canon _ _ _ h with ⟨bs, hbs, hblob⟩
  constructor
  · intro hwrite
    have hreads := hc.round a blob [] hwrite
    rw [List.append_nil] at hreads
    exact hreads.2
  · intro hcut
    have heq := hblob hcut
    rw [List.append_nil] at heq
    rw [hbs, heq]

/-- An accepted blob is the blob of what it decodes to exactly if none of its varints is cut off by
    its end. -/
theorem reserialise_iff (C : Crypto) (blob : Blob) :
    (∀ tx, (parseAndValidateTxFromBlob C blob).2 = some tx →
      (txToBlob tx = some blob ↔ Note.cut ∉ (parseAndValidateTxFromBlob C blob).1)) ∧
    (∀ b, (parseAndValidateBlockFromBlob blob).2 = some b →
      (blockToBlob b = some blob ↔ Note.cut ∉ (parseAndValidateBlockFromBlob blob).1)) := by
  constructor
  · intro tx h
    rcases parseAndValidateTxFromBlob_some h with ⟨t, hread, hexpand, hnotes⟩
    have hpruned : tx.pruned = false :=
      hexpand.pruned_eq.trans (serializeTransaction_read_pruned hread)
    rw [txToBlob_of_not_pruned hpruned, hexpand.write_eq, hnotes, List.mem_append,
      write_read_iff serializeTransaction_lawful hread]
    simp [not_cut_mem_expand]
  · intro b h
    rcases parseAndValidateBlockFromBlob_some h with ⟨hread, hnotes⟩
    rw [blockToBlob_of_not_pruned (serializeBlock_read_pruned hread), hnotes,
      write_read_iff serializeBlock_lawful hread]

/-- Primitives for concrete runs. -/
def Crypto.sample : Crypto where
  cnFastHash blob := BitVec.ofNat 256 blob.length
  scalarmultInvEight k := k

/-- A transaction with one input and one output. -/
def spendingBlob : Blob :=
  [1, 0, 1, 2, 5, 1, 1] ++ List.replicate 32 7 ++ [1, 5, 2] ++ List.replicate 32 9 ++ [0] ++
    List.replicate 64 3

theorem reserialise_iff_spending : ∃ tx,
    (parseAndValidateTxFromBlob Crypto.sample spendingBlob).2 = some tx ∧
      txToBlob tx = some spendingBlob := by
  have haccepted : (parseAndValidateTxFromBlob Crypto.sample spendingBlob).2.isSome := by
    decide +kernel
  rcases Option.isSome_iff_exists.mp haccepted with ⟨tx, htx⟩
  exact ⟨tx, htx, ((reserialise_iff Crypto.sample _).1 tx htx).mpr (by decide +kernel)⟩

/-- A block without transactions, up to the count of their ids. -/
def uncountedBlob : Blob :=
  [1, 1, 0] ++ List.replicate 32 0 ++ [0, 0, 0, 0] ++ [1, 0, 1, 0xff, 0, 0, 0]

/-- A transaction whose blob ends after its version, and a block whose blob ends before its last
    count, are accepted. -/
theorem cut_blobs_accepted :
    ((parseAndValidateTxFromBlob Crypto.sample [1]).2.map txToBlob = some (some [1, 0, 0, 0, 0])) ∧
    (parseAndValidateBlockFromBlob uncountedBlob).2 =
      (parseAndValidateBlockFromBlob (uncountedBlob ++ [0])).2 ∧
    ((parseAndValidateBlockFromBlob uncountedBlob).2.map blockToBlob =
      some (some (uncountedBlob ++ [0]))) := by
  decide +kernel

/-! ## To a blob and back -/

/-- The sizes that serialising a transaction in full requires. -/
structure Transaction.Sized (t : Transaction) : Prop where
  version : t.version = 1 ∨ t.version = 2
  fits : t.Fits
  signatures : t.version = 1 → SignaturesSized t.vin t.signatures
  base : t.version = 2 → t.vin ≠ [] → t.rctSignatures.type ≠ rctTypeNull →
    t.rctSignatures.Sized t.vin.length t.vout.length
  prunable : t.version = 2 → t.vin ≠ [] → t.rctSignatures.type ≠ rctTypeNull →
    t.rctSignatures.p.Sized t.rctSignatures.type t.vin.length t.vout.length (mixin t.vin)

theorem Transaction.Sized.written_eq (h : t.Sized) : t.written = t.serialised := by
  rw [written, serialised, used, used]
  by_cases hold : t.version = 1 ∨ t.vin.isEmpty = true
  · rw [if_pos hold, if_pos hold]
  · rw [not_or] at hold
    have htwo : t.version = 2 := h.version.resolve_left hold.1
    by_cases hnull : t.rctSignatures.type = rctTypeNull
    · rw [RctSigPrunable.serialised, hnull, RctSigPrunable.written_null, RctSigPrunable.used,
        if_pos rfl]
    · rw [(h.prunable htwo (by simpa using hold.2) hnull).written_eq]

theorem Transaction.Sized.writes (h : t.Sized) (hpruned : t.pruned = false) :
    serializeTransaction.Writes t := by
  rw [serializeTransaction, writes_map]
  refine ⟨_, by rw [hpruned]; rfl, ?_⟩
  rw [writes_seq]
  refine ⟨(writes_transactionPrefix _).mpr ⟨h.version, h.fits⟩, ?_⟩
  rw [serializeTail, writes_ite]
  refine ⟨fun hone => ?_, fun hone => ?_⟩
  · rw [writes_pair]
    exact ⟨(writes_signatures _ _).mpr (h.signatures hone), writes_absent _ _⟩
  rw [writes_ite]
  refine ⟨fun _ => writes_absent _ _, fun hvin => ?_⟩
  have htwo : t.version = 2 := h.version.resolve_left hone
  have hvin' : t.vin ≠ [] := by simpa using hvin
  rw [writes_pair, writes_seq]
  refine ⟨writes_absent _ _, ?_, ?_⟩
  · rw [writes_measured, writes_rctsigBase]
    by_cases hnull : t.rctSignatures.type = rctTypeNull
    · exact .inl hnull
    · exact .inr (h.base htwo hvin' hnull)
  · rw [serializePrunable, writes_ite]
    refine ⟨fun _ => writes_absent _ _, fun hnull => ?_⟩
    have hsized := h.prunable htwo hvin' hnull
    have hout : t.vout.length < 0xffffffff := hsized.outputs_lt
    refine (writes_rctsigPrunable _ _ _ hnull (h.base htwo hvin' hnull).known ?_ ?_).mpr hsized
    · intro hplus
      exact lt_of_le_of_lt (hsized.bulletproofsPlus hplus).few (by omega)
    · intro hbp
      exact lt_of_le_of_lt (hsized.bulletproofs hbp).few (by omega)

/-- Serialising a transaction in full, or a block, and parsing the blob gives it back, up to what is
    not serialised. -/
theorem deserialise_serialise :
    (∀ t : Transaction, 2 ≤ t.version → t.vin ≠ [] → t.pruned = false → t.Sized →
      ∃ blob, txToBlob t = some blob ∧
        (serializeTransaction.read blob).value = some (t.serialised, [])) ∧
    (∀ b : Block, b.minerTx.pruned = false → b.minerTx.Sized → b.txHashes.length ≤ maxTxPerBlock →
      ∃ blob, blockToBlob b = some blob ∧
        (parseAndValidateBlockFromBlob blob).2 = some b.serialised) := by
  constructor
  · intro t _ _ hpruned hsized
    rcases (writes_iff _ _).mp (hsized.writes hpruned) with ⟨blob, hblob⟩
    refine ⟨blob, by rw [txToBlob_of_not_pruned hpruned, hblob], ?_⟩
    have hread := (serializeTransaction_lawful.round t blob [] hblob).1
    rwa [List.append_nil, hsized.written_eq] at hread
  · intro b hpruned hsized hhashes
    have hwrites : serializeBlock.Writes b := by
      rw [serializeBlock, writes_map]
      refine ⟨_, rfl, ?_⟩
      rw [writes_pair, writes_pair]
      refine ⟨by simp [serializeBlockHeader], hsized.writes hpruned, ?_⟩
      have hlt : b.txHashes.length < 2 ^ 64 := lt_of_le_of_lt hhashes (by decide)
      simpa [serializeTxHashes, hhashes] using hlt
    rcases (writes_iff _ _).mp hwrites with ⟨blob, hblob⟩
    refine ⟨blob, by rw [blockToBlob_of_not_pruned hpruned, hblob], ?_⟩
    have hread := (serializeBlock_lawful.round b blob [] hblob).1
    rw [List.append_nil, hsized.written_eq] at hread
    simp only [parseAndValidateBlockFromBlob, hread]
    rfl

/-- A transaction of the newest type with one input, of two ring members, and one output. -/
def sampleTransaction : Transaction where
  version := 2
  vin := [.toKey 0 [1, 1] 7]
  vout := [⟨0, .toTaggedKey 5 1⟩]
  rctSignatures :=
    { type := rctTypeBulletproofPlus
      ecdhInfo := [{ amount := 1 }]
      outPk := [{ mask := 3 }]
      txnFee := 1
      p :=
        { bulletproofsPlus :=
            [{ A := 0, A1 := 0, B := 0, r1 := 0, s1 := 0, d1 := 0
               L := List.replicate 6 0, R := List.replicate 6 0 }]
          clsags := [{ s := [0, 0], c1 := 0, D := 0 }]
          pseudoOuts := [4] } }

theorem sampleTransaction_sized : sampleTransaction.Sized where
  version := .inr rfl
  fits := ⟨by simp [sampleTransaction, txinFits], by simp [sampleTransaction, txoutFits],
    by simp [sampleTransaction]⟩
  signatures := fun h => absurd h (by decide)
  base := fun _ _ _ => ⟨by decide, fun h => absurd h (by decide), rfl, rfl⟩
  prunable := by
    intro _ _ _
    refine ⟨by decide, by decide, by decide, fun _ => ⟨by decide, by decide, ?_⟩,
      fun h => absurd h (by decide), fun h => absurd h (by decide),
      fun _ => ⟨rfl, by simp [sampleTransaction, mixin]⟩, fun h => absurd h (by decide),
      fun _ => rfl⟩
    simp [sampleTransaction, ProofSized]

/-- A block with a miner transaction of version 1 and one other transaction. -/
def sampleBlock : Block where
  majorVersion := 1
  minorVersion := 1
  timestamp := 0
  prevId := 0
  nonce := 0
  minerTx := { vin := [.gen 0] }
  txHashes := [9]

theorem deserialise_serialise_sample : (∃ blob, txToBlob sampleTransaction = some blob ∧
      (serializeTransaction.read blob).value = some (sampleTransaction.serialised, [])) ∧
    (∃ blob, blockToBlob sampleBlock = some blob ∧
      (parseAndValidateBlockFromBlob blob).2 = some sampleBlock.serialised) := by
  refine ⟨deserialise_serialise.1 sampleTransaction (by decide) (by decide) rfl
    sampleTransaction_sized, deserialise_serialise.2 sampleBlock rfl ?_ (by decide)⟩
  -- A coinbase has no signatures, and none are expected.
  refine ⟨.inl rfl, ⟨by simp [sampleBlock, txinFits], by simp [sampleBlock],
    by simp [sampleBlock]⟩, fun _ => ?_, fun h => absurd h (by decide),
    fun h => absurd h (by decide)⟩
  exact .cons rfl .nil

end Wire

end CocaineNode
