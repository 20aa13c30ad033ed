import CocaineNode.Theory.Serialization

/-!
# Three Ways to a Transaction's Id

The id of a transaction of version 2 is a hash of three hashes: of its prefix, of
the base of its signature and of the prunable rest. A node that has the blob
cuts the last two out of it, at the sizes that serialising left behind. A node
that has only the pruned part serialises the base again, and knows the last
hash from elsewhere.

`transaction_id_paths` says that all ways agree, for a transaction whose part
that is not prunable is shorter than 2³² bytes. The sizes are kept in 32 bits:
past that they are no longer those of the parts, and `long_transaction_id`
has a transaction that gets an id only in pruned form.

## Theorems

* `Wire.Cut.read_base`: What the pruned part is read as.
* `Wire.transaction_id_paths`: All ways agree.
-/

namespace CocaineNode

open List Option

namespace Wire

open Codec

/-! ## The parts of a blob -/

/-- The bytes of the prefix, of the base and of the prunable part of a transaction. -/
structure Cut (t : Transaction) (a b c : Blob) : Prop where
  version : t.version ≠ 1
  vin : t.vin ≠ []
  pruned : t.pruned = false
  prefix_write : serializePrefix.write t.toTransactionPrefix = some a
  base_write : (serializeRctsigBase t.vin.length t.vout.length).write
    t.rctSignatures.toRctSigBase = some b
  prunable_write : (serializePrunable t.toTransactionPrefix t.rctSignatures.type).write
    t.rctSignatures.p = some c

variable {t : Transaction} {blob : Blob}

/-- The blob of a transaction with inputs is made of its three parts. -/
theorem cut_of_write (hone : t.version ≠ 1) (hvin : t.vin ≠ []) (hpruned : t.pruned = false)
    (h : serializeTransaction.write t = some blob) :
    ∃ a b c, Cut t a b c ∧ blob = a ++ (b ++ c) := by
  rcases (map_write _ _ _ _ _).mp h with ⟨x, hx, hparts⟩
  rw [hpruned] at hx
  cases hx
  rcases (seq_write _ _ _ _).mp hparts with ⟨a, y, ha, htail, rfl⟩
  simp only [serializeTail, if_neg hone, List.isEmpty_iff, if_neg hvin] at htail
  rcases (pair_write _ _ _ _).mp htail with ⟨_, y, hnil, hrct, rfl⟩
  cases hnil
  rcases (seq_write _ _ _ _).mp hrct with ⟨b, c, hb, hc, rfl⟩
  exact ⟨a, b, c, ⟨hone, hvin, hpruned, ha, hb, hc⟩, rfl⟩

theorem cut_of_blob (hversion : 2 ≤ t.version) (hvin : t.vin ≠ []) (hpruned : t.pruned = false)
    (h : txToBlob t = some blob) : ∃ a b c, Cut t a b c ∧ blob = a ++ (b ++ c) := by
  rw [txToBlob_of_not_pruned hpruned] at h
  exact cut_of_write (fun hone => absurd (hone ▸ hversion) (by decide)) hvin hpruned h

section

variable {C : Crypto} {t : Transaction} {a b c : Blob} (h : Cut t a b c)
include h

theorem Cut.txToBlob_eq : txToBlob t = some (a ++ (b ++ c)) := by
  rw [txToBlob_of_not_pruned h.pruned]
  refine (map_write _ _ _ _ _).mpr ⟨_, by rw [h.pruned]; rfl, ?_⟩
  refine (seq_write _ _ _ _).mpr ⟨a, b ++ c, h.prefix_write, ?_, rfl⟩
  simp only [serializeTail, if_neg h.version, List.isEmpty_iff, if_neg h.vin]
  refine (pair_write _ _ _ _).mpr ⟨[], b ++ c, rfl, ?_, rfl⟩
  exact (seq_write _ _ _ _).mpr ⟨b, c, h.base_write, h.prunable_write, rfl⟩

theorem Cut.saved_prefixSize : t.saved.prefixSize.toNat = a.length % 2 ^ 32 := by
  rw [Transaction.saved, size_eq h.prefix_write, UInt32.toNat_ofNat']

theorem Cut.saved_unprunableSize :
    t.saved.unprunableSize.toNat = (a.length + b.length) % 2 ^ 32 := by
  simp only [Transaction.saved, unprunableSizeAfter, if_neg h.version, List.isEmpty_iff,
    if_neg h.vin]
  rw [size_eq h.prefix_write, size_eq h.base_write, UInt32.toNat_ofNat']

/-- Reading the blob leaves the same size behind as writing it. -/
theorem Cut.written_unprunableSize : t.written.unprunableSize = t.saved.unprunableSize := by
  simp only [Transaction.written, Transaction.used, Transaction.saved, unprunableSizeAfter,
    if_neg h.version, List.isEmpty_iff, if_neg h.vin]

/-! ## The three ways -/

/-- The prunable part, serialised again. -/
theorem Cut.prunableHash_again (hnull : t.rctSignatures.type ≠ rctTypeNull) :
    calculateTransactionPrunableHash C t none = some (C.cnFastHash c) := by
  have hwrite := h.prunable_write
  rw [serializePrunable, if_neg hnull] at hwrite
  rw [calculateTransactionPrunableHash, if_neg h.version]
  simp only [show (serializeRctsigPrunable _ _ _ _).write _ = some c from hwrite, map_some]

omit h in
/-- The prunable part, cut from a blob by the size of what comes before it. -/
theorem prunableHash_of_size {x : Transaction} {u : Blob} (hone : x.version ≠ 1)
    (hsize : x.unprunableSize.toNat = u.length) (hpos : 0 < u.length) :
    calculateTransactionPrunableHash C x (some (u ++ c)) = some (C.cnFastHash c) := by
  have hzero : x.unprunableSize ≠ 0 := by
    intro hzero
    rw [hzero] at hsize
    exact absurd hsize.symm (Nat.ne_of_gt hpos)
  rw [calculateTransactionPrunableHash, if_neg hone]
  simp only [if_neg hzero, hsize]
  rw [if_pos (by simp), drop_left]

theorem Cut.prunableHash_cut (hsmall : a.length + b.length < 2 ^ 32)
    {x : Transaction} (hone : x.version ≠ 1) (hx : x.unprunableSize = t.saved.unprunableSize) :
    calculateTransactionPrunableHash C x (some (a ++ (b ++ c))) = some (C.cnFastHash c) := by
  have hsize := h.saved_unprunableSize
  rw [Nat.mod_eq_of_lt hsmall, ← length_append, ← hx] at hsize
  have hpos : 0 < b.length := Wide.byte.header _ _ _ _ h.base_write
  rw [← append_assoc]
  refine prunableHash_of_size hone hsize ?_
  rw [length_append]
  omega

/-- The id, from the base serialised again. -/
theorem Cut.getPrunedTransactionHash_eq (hversion : 2 ≤ t.version) (d : Hash) :
    getPrunedTransactionHash C t d = some (hashOfThree C (C.cnFastHash a) (C.cnFastHash b)
        (if t.rctSignatures.type = rctTypeNull then nullHash else d)) := by
  have hone : 1 < t.version := by
    exact hversion
  rw [getPrunedTransactionHash, if_neg (not_not.mpr hone), h.base_write,
    getTransactionPrefixHash, h.prefix_write]
  rfl

/-- The id, cut from the blob. -/
theorem Cut.calculateTransactionHash_eq (hsmall : a.length + b.length < 2 ^ 32) :
    calculateTransactionHash C t = some (hashOfThree C (C.cnFastHash a) (C.cnFastHash b)
        (if t.rctSignatures.type = rctTypeNull then nullHash else C.cnFastHash c)) := by
  have hhead := h.saved_prefixSize
  have hunprunable := h.saved_unprunableSize
  rw [Nat.mod_eq_of_lt (by omega)] at hhead hunprunable
  have hbase : ((a ++ (b ++ c)).drop a.length).take (a.length + b.length - a.length) = b := by
    rw [drop_left, Nat.add_sub_cancel_left, take_left]
  rw [calculateTransactionHash, h.pruned, if_neg (by decide), if_neg h.version, h.txToBlob_eq]
  simp only [bind_some, hhead, hunprunable, hbase,
    h.prunableHash_cut hsmall (x := t.saved) h.version rfl]
  rw [if_pos (by simp), getTransactionPrefixHash, h.prefix_write]
  split_ifs <;> rfl

/-! ## The pruned form -/

/-- What the pruned part of a blob is read as. -/
def Transaction.base (t : Transaction) : Transaction :=
  { t.toTransactionPrefix with
    rctSignatures := { (if t.version = 1 ∨ t.vin.isEmpty then {}
      else t.rctSignatures.toRctSigBase.serialised : RctSigBase) with }
    pruned := true }

omit h in
theorem serializeBase_lawful : serializeBase.Lawful Transaction.base := by
  have hrct : ∀ p : TransactionPrefix, (if p.version = 1 ∨ p.vin.isEmpty then absent {}
      else serializeRctsigBase p.vin.length p.vout.length).Lawful fun rv =>
        if p.version = 1 ∨ p.vin.isEmpty then {} else rv.serialised :=
    fun p => Lawful.ite (Lawful.absent _) (serializeRctsigBase_lawful _ _)
  refine (serializePrefix_lawful.seq hrct fun _ => rfl).map ?_ ?_
  · rintro ⟨p, rv⟩ -
    rfl
  · rintro t _ ⟨⟩
    rfl

theorem Cut.serializeBase_write : serializeBase.write t = some (a ++ b) := by
  refine (map_write _ _ _ _ _).mpr ⟨_, rfl, (seq_write _ _ _ _).mpr ⟨a, b, h.prefix_write, ?_, rfl⟩⟩
  rw [if_neg (by simp [h.version, h.vin])]
  exact h.base_write

/-- The pruned part of the blob is read as the base of the transaction. -/
theorem Cut.read_base (hsmall : a.length + b.length < 2 ^ 32) :
    (serializeBase.read ((a ++ (b ++ c)).take t.saved.unprunableSize.toNat)).value =
      some (t.base, []) := by
  have hread := (serializeBase_lawful.round t _ [] h.serializeBase_write).1
  rw [append_nil] at hread
  rw [h.saved_unprunableSize, Nat.mod_eq_of_lt hsmall, ← append_assoc, ← length_append, take_left]
  exact hread

/-- The base has the parts of the transaction, up to the prunable one. -/
theorem Cut.base_rct :
    t.base.rctSignatures.toRctSigBase = t.rctSignatures.toRctSigBase.serialised := by
  simp [Transaction.base, h.version, h.vin]

omit h in
/-- The hash of a pruned transaction depends on its prefix and on the bytes of its base. -/
theorem getPrunedTransactionHash_congr {x y : Transaction}
    (hhead : x.toTransactionPrefix = y.toTransactionPrefix)
    (htype : x.rctSignatures.type = y.rctSignatures.type)
    (hbase : (serializeRctsigBase y.vin.length y.vout.length).write x.rctSignatures.toRctSigBase =
      (serializeRctsigBase y.vin.length y.vout.length).write y.rctSignatures.toRctSigBase)
    (d : Hash) : getPrunedTransactionHash C x d = getPrunedTransactionHash C y d := by
  simp only [getPrunedTransactionHash, hhead, htype, hbase]

theorem Cut.getPrunedTransactionHash_base (d : Hash) :
    getPrunedTransactionHash C t.base d = getPrunedTransactionHash C t d := by
  have hrct := h.base_rct
  refine getPrunedTransactionHash_congr (x := t.base) (y := t) rfl ?_ ?_ d
  · exact (congrArg RctSigBase.type hrct).trans (RctSigBase.serialised_type _)
  · rw [hrct, (serializeRctsigBase_lawful _ _).write_again h.base_write, h.base_write]

end

/-- The id of a transaction whose part that is not prunable is shorter than 2³² bytes is the same
    cut from its blob, serialised again, and computed from its pruned form. -/
theorem transaction_id_paths (C : Crypto) (t : Transaction) (blob : Blob) (hversion : 2 ≤ t.version)
    (hvin : t.vin ≠ []) (hpruned : t.pruned = false) (hblob : txToBlob t = some blob)
    (hsmall : serializePrefix.size t.toTransactionPrefix +
      (serializeRctsigBase t.vin.length t.vout.length).size t.rctSignatures.toRctSigBase < 2 ^ 32) :
    ∃ id, calculateTransactionHash C t = some id ∧ (t.rctSignatures.type ≠ rctTypeNull →
        ∃ h, calculateTransactionPrunableHash C t.saved (some blob) = some h ∧
          calculateTransactionPrunableHash C t none = some h ∧
          ∀ x rest, (serializeTransaction.read blob).value = some (x, rest) →
            calculateTransactionPrunableHash C x (some blob) = some h) ∧
      (∃ p, (serializeBase.read (blob.take t.saved.unprunableSize.toNat)).value = some (p, [])) ∧
      ∀ h, (t.rctSignatures.type ≠ rctTypeNull →
          calculateTransactionPrunableHash C t.saved (some blob) = some h) →
        getPrunedTransactionHash C t h = some id ∧
        (∀ p rest, (serializeBase.read (blob.take t.saved.unprunableSize.toNat)).value =
          some (p, rest) → getPrunedTransactionHash C p h = some id) ∧
        (∀ p, parseAndValidateTxBaseFromBlob C (blob.take t.saved.unprunableSize.toNat) = some p →
          getPrunedTransactionHash C p h = some id) := by
  rcases cut_of_blob hversion hvin hpruned hblob with ⟨a, b, c, hcut, rfl⟩
  rw [size_eq hcut.prefix_write, size_eq hcut.base_write] at hsmall
  have hread := hcut.read_base hsmall
  have hsaved : calculateTransactionPrunableHash C t.saved (some (a ++ (b ++ c))) =
      some (C.cnFastHash c) := hcut.prunableHash_cut hsmall hcut.version rfl
  refine ⟨_, hcut.calculateTransactionHash_eq hsmall, fun hnull => ⟨_, hsaved,
    hcut.prunableHash_again hnull, fun x rest hx => ?_⟩, ⟨_, hread⟩, fun h hh => ?_⟩
  · -- What is read back has the size that writing left.
    rw [txToBlob_of_not_pruned hpruned] at hblob
    have hx' := (serializeTransaction_lawful.round t _ [] hblob).1
    rw [append_nil, hx, some.injEq, Prod.mk.injEq] at hx'
    rw [hx'.1]
    exact hcut.prunableHash_cut hsmall hcut.version hcut.written_unprunableSize
  have hfull : getPrunedTransactionHash C t h = some (hashOfThree C (C.cnFastHash a)
      (C.cnFastHash b)
      (if t.rctSignatures.type = rctTypeNull then nullHash else C.cnFastHash c)) := by
    rw [hcut.getPrunedTransactionHash_eq hversion]
    by_cases hnull : t.rctSignatures.type = rctTypeNull
    · rw [if_pos hnull, if_pos hnull]
    · have heq := hsaved.symm.trans (hh hnull)
      rw [some.injEq] at heq
      rw [if_neg hnull, if_neg hnull, heq]
  refine ⟨hfull, fun p rest hp => ?_, fun p hp => ?_⟩
  · rw [hread, some.injEq, Prod.mk.injEq] at hp
    rw [← hp.1, hcut.getPrunedTransactionHash_base, hfull]
  · rw [parseAndValidateTxBaseFromBlob, hread] at hp
    have hexpand := (expandTransaction1_spec rfl).1 _ hp
    rw [getPrunedTransactionHash_congr hexpand.kept.1 hexpand.kept.2 (hexpand.base_write_eq _ _),
      hcut.getPrunedTransactionHash_base, hfull]

theorem transaction_id_paths_sample : ∃ blob id h, txToBlob sampleTransaction = some blob ∧
      calculateTransactionHash Crypto.sample sampleTransaction = some id ∧
      calculateTransactionPrunableHash Crypto.sample sampleTransaction none = some h ∧
      getPrunedTransactionHash Crypto.sample sampleTransaction h = some id := by
  rcases (writes_iff _ _).mp (sampleTransaction_sized.writes rfl) with ⟨blob, hblob⟩
  rcases transaction_id_paths Crypto.sample sampleTransaction blob (by decide) (by decide) rfl hblob
    (by decide +kernel) with ⟨id, hid, hprunable, -, hall⟩
  rcases hprunable (by decide) with ⟨h, hcut, hagain, -⟩
  exact ⟨blob, id, h, hblob, hid, hagain, (hall h fun _ => hcut).1⟩

/-! ## Past 32 bits -/

/-- A coinbase of version 2. -/
def coinbase (extra : Blob) : Transaction where
  version := 2
  vin := [.gen 0]
  extra := extra

theorem array_byte_write (l : Blob) : (array l.length byte).write l = some l := by
  induction l with
  | nil => rfl
  | cons x l ih =>
    rw [length_cons, array, replicate_succ]
    exact (forEach_cons_write _ _ _ _ _).mpr ⟨x, l, [x], l, rfl, rfl, ih, rfl⟩

theorem counted_byte_write {l : Blob} (h : l.length < 2 ^ 64) :
    (counted byte).write l = some (writeVarint l.length ++ l) := by
  have hlen : (BitVec.ofNat 64 l.length).toNat = l.length := by
    rw [BitVec.toNat_ofNat, Nat.mod_eq_of_lt h]
  refine (seq_write (varint 64) (fun n => atLeast n.toNat (array n.toNat byte))
    (BitVec.ofNat 64 l.length, l) _).mpr ⟨writeVarint l.length, l, ?_, ?_, rfl⟩
  · show some (writeVarint (BitVec.ofNat 64 l.length).toNat) = some (writeVarint l.length)
    rw [hlen]
  · rw [hlen]
    exact array_byte_write l

theorem coinbase_cut (extra : Blob) (h : extra.length < 2 ^ 64) : Cut (coinbase extra)
      ([2] ++ ([0] ++ ([1, 0xff, 0] ++ ([0] ++ (writeVarint extra.length ++ extra))))) [0] [] where
  version := by
    show (2 : UInt64) ≠ 1
    decide
  vin := cons_ne_nil _ _
  pruned := rfl
  prefix_write := by
    refine (map_write _ _ _ _ _).mpr ⟨_, rfl, ?_⟩
    refine (pair_write _ _ _ _).mpr ⟨_, _, ?_, ?_, rfl⟩
    · show (varint64.check _ _).write 2 = some [2]
      decide +kernel
    refine (pair_write _ _ _ _).mpr ⟨_, _, ?_, ?_, rfl⟩
    · show varint64.write 0 = some [0]
      decide +kernel
    refine (pair_write _ _ _ _).mpr ⟨_, _, ?_, ?_, rfl⟩
    · show (counted serializeTxin).write [.gen 0] = some [1, 0xff, 0]
      decide +kernel
    refine (pair_write _ _ _ _).mpr ⟨_, _, ?_, counted_byte_write h, rfl⟩
    · show (counted serializeTxout).write [] = some [0]
      decide +kernel
  base_write := rfl
  prunable_write := rfl

/-- With an `extra` that makes the part that is not prunable 2³² bytes long, a transaction has an id
    in pruned form and none in full. -/
theorem coinbase_id {extra : Blob} (h : extra.length = 2 ^ 32 - 12) (C : Crypto) (d : Hash) :
    calculateTransactionHash C (coinbase extra) = none ∧
      (getPrunedTransactionHash C (coinbase extra).base d).isSome := by
  have hcut := coinbase_cut extra (by omega)
  have hvarint : (writeVarint (2 ^ 32 - 12)).length = 5 := by decide +kernel
  have hhead := hcut.saved_prefixSize
  have hunprunable := hcut.saved_unprunableSize
  simp only [length_append, length_cons, length_nil, h, hvarint]
    at hhead hunprunable
  constructor
  · rw [calculateTransactionHash, hcut.pruned, if_neg (by decide), if_neg hcut.version,
      hcut.txToBlob_eq]
    simp only [bind_some, hhead, hunprunable]
    rw [if_neg (by omega)]
  · rw [hcut.getPrunedTransactionHash_base, hcut.getPrunedTransactionHash_eq (UInt64.le_refl 2)]
    rfl

/-- A coinbase that pads its prefix to 2³² - 1 bytes is read from the pruned form of its blob, which
    is all of it, and gets an id there but not in full. -/
theorem long_transaction_id :
    ∃ blob id, txToBlob (coinbase (replicate (2 ^ 32 - 12) 0)) = some blob ∧
      (serializeBase.read blob).value =
        some ((coinbase (replicate (2 ^ 32 - 12) 0)).base, []) ∧
      getPrunedTransactionHash Crypto.sample (coinbase (replicate (2 ^ 32 - 12) 0)).base
        nullHash = some id ∧
      calculateTransactionHash Crypto.sample (coinbase (replicate (2 ^ 32 - 12) 0)) =
        none := by
  have hlen : (replicate (2 ^ 32 - 12) (0 : UInt8)).length = 2 ^ 32 - 12 :=
    length_replicate
  generalize replicate (2 ^ 32 - 12) (0 : UInt8) = extra at hlen
  have hcut := coinbase_cut extra (by omega)
  rcases coinbase_id hlen Crypto.sample nullHash with ⟨hnone, hsome⟩
  rcases isSome_iff_exists.mp hsome with ⟨id, hid⟩
  refine ⟨_, id, hcut.txToBlob_eq, ?_, hid, hnone⟩
  have hread := (serializeBase_lawful.round _ _ [] hcut.serializeBase_write).1
  rwa [append_nil] at hread

end Wire

end CocaineNode
