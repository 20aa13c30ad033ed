import CocaineNode.Theory.Serialization

/-!
# The Sizes the Verifiers Rely On

The signature checks index into the arrays of a RingCT signature without asking
for their sizes. `parsed_sizes` says that parsing a transaction leaves no room
for that to go wrong: whatever was read can be written again, and the writer
refuses every size but the right one.

The parser computes with numbers from the blob before it knows that they make
sense. Its shifts stay in range on every blob. One subtraction does not: the
number of ring members of the first input, less one, is taken before anything
has asked whether there are any. It wraps around, and the largest number there
is, is what the bound on ring sizes then refuses.

## Theorems

* `Wire.readTransaction_ops`: What can go out of range while a transaction is read.
* `Wire.parsed_sizes`: Accepted transactions have the sizes, and nothing else goes out of range.
-/

namespace CocaineNode

namespace Wire

open Codec List Option

/-! ## What was read -/

variable {blob rest : Blob} {t : Transaction}

section

variable (h : (serializeTransaction.read blob).value = some (t, rest))
include h

theorem serializeTransaction_read_parts :
    ∃ mid m, (serializePrefix.read blob).value = some (t.toTransactionPrefix, mid) ∧
      ((serializeTail t.toTransactionPrefix).read mid).value =
        some ((t.signatures, (t.rctSignatures.toRctSigBase, m), t.rctSignatures.p), rest) := by
  rcases (map_read_value _ _ _ _ _ _).mp h with ⟨⟨⟨p, k⟩, s, ⟨b, m⟩, q⟩, hparts, rfl⟩
  rcases (seq_read_value _ _ _ _ _).mp hparts with ⟨mid, hhead, htail⟩
  exact ⟨mid, m, ((measured_read_value _ _ _ _).mp hhead).1, htail⟩

variable (hone : t.version ≠ 1) (hnull : t.rctSignatures.type ≠ rctTypeNull)
include hone hnull

/-- A signature is read only behind an input. -/
theorem serializeTransaction_read_vin : t.vin ≠ [] := by
  intro hvin
  rcases serializeTransaction_read_parts h with ⟨mid, m, -, htail⟩
  rw [serializeTail, if_neg hone, if_pos (by rw [hvin]; rfl)] at htail
  -- Without inputs, the signature is left as it was made.
  simp only [absent, some.injEq, Prod.mk.injEq] at htail
  apply hnull
  rw [← htail.1.2.1.1]
  rfl

/-- The parts of a signature that was read can be written again. -/
theorem serializeTransaction_read_writes :
    t.Fits ∧ t.rctSignatures.Sized t.vin.length t.vout.length ∧
      (serializeRctsigPrunable t.rctSignatures.type t.vin.length t.vout.length
        (mixin t.vin)).Writes t.rctSignatures.p := by
  have hvin : t.vin.isEmpty = false := by
    rw [isEmpty_eq_false_iff]
    exact serializeTransaction_read_vin h hone hnull
  rcases serializeTransaction_read_parts h with ⟨mid, m, hhead, htail⟩
  have hfits := ((writes_transactionPrefix _).mp (serializePrefix_lawful.writes hhead)).2
  have hwrites := (serializeTail_lawful _).writes htail
  rw [serializeTail, if_neg hone, if_neg (by rw [hvin]; simp), writes_pair, writes_seq,
    writes_measured, writes_rctsigBase, serializePrunable, if_neg hnull, writes_noting] at hwrites
  exact ⟨hfits, hwrites.2.1.resolve_left hnull, hwrites.2.2⟩

end

variable {type : UInt8}

theorem not_bulletproof_of_plus (h : isRctBulletproofPlus type = true) :
    isRctBulletproof type = false := by
  simp only [isRctBulletproofPlus, decide_eq_true_eq] at h
  rw [h]
  rfl

/-- What was read has the sizes its serialisation requires, once there is no more than one proof. -/
theorem readTransaction_sized (h : (serializeTransaction.read blob).value = some (t, rest))
    (hone : t.version ≠ 1) (hnull : t.rctSignatures.type ≠ rctTypeNull)
    (hplus : isRctBulletproofPlus t.rctSignatures.type = true →
      t.rctSignatures.p.bulletproofsPlus.length = 1)
    (hbp : isRctBulletproof t.rctSignatures.type = true →
      t.rctSignatures.p.bulletproofs.length = 1) :
    t.rctSignatures.p.Sized t.rctSignatures.type t.vin.length t.vout.length (mixin t.vin) := by
  rcases serializeTransaction_read_writes h hone hnull with ⟨-, hbase, hwrites⟩
  refine (writes_rctsigPrunable _ _ _ hnull hbase.known (fun hp => ?_) (fun hb => ?_)).mp hwrites
  · rw [hplus hp]
    decide
  · rw [hbp hb]
    decide

/-! ## Proofs -/

/-- A proof with commitments `V` for a number of outputs. -/
structure ProofCovers (V L R : List Key) (outputs : Nat) : Prop where
  six_le : 6 ≤ L.length
  length_eq : L.length = R.length
  le_ten : L.length ≤ 10
  V_length : V.length = outputs
  outputs_le : outputs ≤ 2 ^ (L.length - 6)

/-- A single proof that covers the outputs of a transaction has the sizes for it. -/
theorem proofSizes_of_single {β : Type} {one : β → List Note × Nat} {sized : β → Prop} {b : β}
    {outputs l r : Nat} (h : ProofsSized one sized [b] outputs)
    (hone : one b = nBulletproofMaxAmountsBase l r 16) :
    6 ≤ l ∧ l = r ∧ l ≤ 10 ∧ outputs ≤ 2 ^ (l - 6) := by
  have hfew : 1 ≤ outputs := h.few
  have henough := h.enough
  simp only [nMaxAmountsLoop, zero_add] at henough
  split_ifs at henough with hover hzero
  · omega
  · -- There is an output, so the proof covers an amount.
    rw [hone] at henough
    rcases nBulletproofMaxAmountsBase_pos (lt_of_lt_of_le hfew henough) with ⟨h6, hlr, h10, hmax⟩
    exact ⟨h6, hlr, h10, hmax ▸ henough⟩
  · omega

/-! ## What goes out of range -/

/-- The ring size of the first input less one is in range, or the ring is empty and what it wraps
    around to is refused. -/
theorem serializePrunable_ops (p : TransactionPrefix) (type : UInt8) (bytes : Blob) (e : Note)
    (he : e ∈ ((serializePrunable p type).read bytes).notes) :
    e.InRange ∨ (e = .sub 0 1 ∧ ((serializePrunable p type).read bytes).value = none ∧
      ∃ amount kImage ins, p.vin = .toKey amount [] kImage :: ins) := by
  rw [serializePrunable] at he ⊢
  by_cases hnull : type = rctTypeNull
  · rw [if_pos hnull] at he
    exact absurd he not_mem_nil
  rw [if_neg hnull] at he ⊢
  rcases mem_append.mp he with hmix | hrest
  swap
  · exact .inl ((serializeRctsigPrunable_safe _ _ _ _).inRange _ e hrest)
  unfold mixinOps at hmix
  split at hmix
  next amount keyOffsets kImage ins hvin =>
    rw [mem_singleton] at hmix
    cases keyOffsets with
    | nil =>
      refine .inr ⟨hmix, ?_, amount, kImage, ins, hvin⟩
      have hwrap : 0xffffffff ≤ mixin p.vin := by
        rw [hvin]
        simp [mixin]
      simp only [noting, serializeRctsigPrunable, if_pos hwrap]
      split_ifs <;> rfl
    | cons offset keyOffsets =>
      left
      rw [hmix]
      exact Nat.succ_le_succ (Nat.zero_le _)
  next => exact absurd hmix not_mem_nil

/-- The same for all that follows the prefix. -/
theorem serializeTail_ops (p : TransactionPrefix) (bytes : Blob) (e : Note)
    (he : e ∈ ((serializeTail p).read bytes).notes) :
    e.InRange ∨ (e = .sub 0 1 ∧ ((serializeTail p).read bytes).value = none ∧
      ∃ amount kImage ins, p.vin = .toKey amount [] kImage :: ins) := by
  rw [serializeTail] at he ⊢
  by_cases hone : p.version = 1
  · rw [if_pos hone] at he
    exact .inl (((serializeSignatures_safe p.vin).pair (Safe.absent _)).inRange bytes e he)
  rw [if_neg hone] at he ⊢
  by_cases hvin : p.vin.isEmpty = true
  · rw [if_pos hvin] at he
    exact absurd he not_mem_nil
  rw [if_neg hvin] at he ⊢
  rcases (mem_seq_notes _ _ _ _).mp he with h | ⟨s, mid, hs, h⟩
  · exact absurd h not_mem_nil
  rcases (mem_seq_notes _ _ _ _).mp h with h | ⟨b, last, hb, h⟩
  · exact .inl ((serializeRctsigBase_safe _ _).measured.inRange mid e h)
  rcases serializePrunable_ops p b.1.type last e h with hin | ⟨rfl, hnone, hring⟩
  · exact .inl hin
  -- A part that fails makes the whole fail.
  refine .inr ⟨rfl, ?_, hring⟩
  rw [eq_none_iff_forall_ne_some]
  rintro ⟨⟨s', b', q⟩, rest⟩ hvalue
  rcases (seq_read_value _ _ _ _ _).mp hvalue with ⟨mid', hs', hrest⟩
  rcases (seq_read_value _ _ _ _ _).mp hrest with ⟨last', hb', hq⟩
  rw [hs, some.injEq, Prod.mk.injEq] at hs'
  rw [← hs'.2, hb, some.injEq, Prod.mk.injEq] at hb'
  rw [← hb'.1, ← hb'.2, hnone] at hq
  cases hq

/-- What can go out of range while a transaction is read: the number of ring members of a first
    input without any, less one. Then nothing is read. -/
theorem readTransaction_ops (blob : Blob) (e : Note)
    (he : e ∈ (serializeTransaction.read blob).notes) :
    e.InRange ∨ (e = .sub 0 1 ∧ (serializeTransaction.read blob).value = none ∧
      ∃ p rest amount kImage ins, (serializePrefix.read blob).value = some (p, rest) ∧
        p.vin = .toKey amount [] kImage :: ins) := by
  rw [serializeTransaction, map_read_notes] at he
  rcases (mem_seq_notes _ _ _ _).mp he with h | ⟨⟨p, k⟩, mid, hp, h⟩
  · exact .inl (serializePrefix_safe.measured.inRange blob e h)
  have hhead := ((measured_read_value _ _ _ _).mp hp).1
  rcases serializeTail_ops p mid e h with hin | ⟨rfl, hnone, amount, kImage, ins, hring⟩
  · exact .inl hin
  refine .inr ⟨rfl, ?_, p, mid, amount, kImage, ins, hhead, hring⟩
  rw [eq_none_iff_forall_ne_some]
  rintro ⟨t, rest⟩ hvalue
  rcases serializeTransaction_read_parts hvalue with ⟨mid', m, hhead', htail⟩
  rw [hhead, some.injEq, Prod.mk.injEq] at hhead'
  rw [← hhead'.1, ← hhead'.2, hnone] at htail
  cases htail

/-- The expansion shifts by what the serialiser has bounded. -/
theorem expand_ops {C : Crypto} (h : (serializeTransaction.read blob).value = some (t, rest))
    (e : Note) (he : e ∈ (expandTransaction1 C t false).1) : e.InRange := by
  rcases (expandTransaction1_spec rfl).2 e he with ⟨proof, hproof⟩ |
    ⟨proof, hversion, hbp, hproof, h6, hop⟩
  · exact (nBulletproofMaxAmountsBase_ops _ _ _ e hproof).1
  have hone : t.version ≠ 1 := by
    intro hone
    rw [hone] at hversion
    exact absurd hversion (by decide)
  have hnull : t.rctSignatures.type ≠ rctTypeNull := by
    intro hnull
    rw [hnull] at hbp
    exact absurd hbp (by decide)
  have hsized := readTransaction_sized h hone hnull
    (fun hplus => absurd hbp (by rw [not_bulletproof_of_plus hplus]; decide))
    (fun _ => by rw [hproof]; rfl)
  have hproofs := hsized.bulletproofs hbp
  rw [hproof] at hproofs
  have hten := (proofSizes_of_single hproofs rfl).2.2.1
  rcases hop with rfl | rfl
  · exact h6
  · show proof.L.length - 6 < 32
    omega

/-! ## What is accepted -/

/-- The sizes that reading settles, which the expansion does not touch. -/
structure ArraySizes (tx : Transaction) : Prop where
  ecdhInfo : tx.rctSignatures.ecdhInfo.length = tx.vout.length
  rangeSigs : isRctBulletproof tx.rctSignatures.type = false →
    isRctBulletproofPlus tx.rctSignatures.type = false →
    tx.rctSignatures.p.rangeSigs.length = tx.vout.length
  clsags : isRctClsag tx.rctSignatures.type = true →
    tx.rctSignatures.p.clsags.length = tx.vin.length
  mgs : isRctSimple tx.rctSignatures.type = true → isRctClsag tx.rctSignatures.type = false →
    tx.rctSignatures.p.mgs.length = tx.vin.length
  pseudoOuts : isRctSimple tx.rctSignatures.type = true →
    tx.rctSignatures.getPseudoOuts.length = tx.vin.length
  scalars : isRctClsag tx.rctSignatures.type = true →
    ∀ amount keyOffsets kImage ins, tx.vin = .toKey amount keyOffsets kImage :: ins →
      ∀ g ∈ tx.rctSignatures.p.clsags, g.s.length = keyOffsets.length

/-- The sizes the verifiers rely on. -/
structure VerifierSizes (tx : Transaction) : Prop extends ArraySizes tx where
  outPk : tx.rctSignatures.outPk.length = tx.vout.length
  bulletproofs : isRctBulletproof tx.rctSignatures.type = true →
    ∃ proof, tx.rctSignatures.p.bulletproofs = [proof] ∧
      ProofCovers proof.V proof.L proof.R tx.vout.length
  bulletproofsPlus : isRctBulletproofPlus tx.rctSignatures.type = true →
    ∃ proof, tx.rctSignatures.p.bulletproofsPlus = [proof] ∧
      ProofCovers proof.V proof.L proof.R tx.vout.length

/-- A ring size less one that is small enough did not wrap around. -/
theorem mixin_add_one {amount : UInt64} {keyOffsets : List UInt64} {kImage : Key} {ins : List TxIn}
    (hfits : txinFits (.toKey amount keyOffsets kImage))
    (h : mixin (.toKey amount keyOffsets kImage :: ins) < 0xffffffff) :
    mixin (.toKey amount keyOffsets kImage :: ins) + 1 = keyOffsets.length := by
  have hlen : keyOffsets.length < 2 ^ 64 := hfits
  simp only [mixin] at h ⊢
  omega

/-- The types with a ring signature for each input that is not a CLSAG. -/
theorem isMgSimple_of_simple (h : isRctSimple type = true) (hclsag : isRctClsag type = false) :
    isMgSimple type = true := by
  simp only [isRctSimple, isRctClsag, isMgSimple, Bool.or_eq_true, Bool.or_eq_false_iff,
    decide_eq_true_eq, decide_eq_false_iff_not] at h hclsag ⊢
  tauto

/-- Of the types with a pseudo output for each input, all but the first have them in the prunable
    part. -/
theorem isRctSimple_cases (h : isRctSimple type = true) :
    type = rctTypeSimple ∨ (isRctBulletproof type || isRctBulletproofPlus type) = true := by
  simp only [isRctSimple, isRctBulletproof, isRctBulletproofPlus, Bool.or_eq_true,
    decide_eq_true_eq] at h ⊢
  tauto

theorem arraySizes_of_sized (hfits : t.Fits)
    (hbase : t.rctSignatures.Sized t.vin.length t.vout.length)
    (hp : t.rctSignatures.p.Sized t.rctSignatures.type t.vin.length t.vout.length (mixin t.vin)) :
    ArraySizes t where
  ecdhInfo := hbase.ecdhInfo
  rangeSigs hbp hplus := hp.rangeSigs (by simp [hbp, hplus])
  clsags hclsag := (hp.clsags hclsag).1
  mgs hsimple hclsag := by
    have h := (hp.mgs (by simp [hclsag])).1
    rwa [if_pos (isMgSimple_of_simple hsimple hclsag)] at h
  pseudoOuts hsimple := by
    rw [RctSig.getPseudoOuts]
    rcases isRctSimple_cases hsimple with htype | hproofs
    · rw [htype]
      exact hbase.pseudoOuts htype
    · rw [if_pos hproofs]
      exact hp.pseudoOuts hproofs
  scalars hclsag amount keyOffsets kImage ins hvin g hg := by
    have hlen := (hp.clsags hclsag).2 g hg
    have hlt := hp.mixin_lt
    rw [hvin] at hlen hlt
    rw [hlen]
    refine mixin_add_one (hfits.vin.2 _ ?_) hlt
    rw [hvin]
    exact mem_cons_self

/-! ## What the expansion adds -/

/-- A transaction that has a RingCT signature to expand. -/
structure Signed (tx : Transaction) : Prop where
  version : tx.version = 2
  coinbase : tx.isCoinbase = false
  type : tx.rctSignatures.type ≠ rctTypeNull

section

variable {C : Crypto} {t x : Transaction}

theorem Signed.version_ne_one (h : Signed t) : t.version ≠ 1 := by
  rw [h.version]
  decide

theorem Signed.not_same (h : Signed t) :
    ¬ (¬ (2 ≤ t.version ∧ ¬ t.isCoinbase) ∨ t.rctSignatures.type = rctTypeNull) := by
  rw [h.version, h.coinbase]
  simp [h.type]

variable (hx : Expanded C t false x)
include hx

theorem Expanded.signed (h : Signed x) : Signed t := by
  cases hx with
  | same _ _ => exact h
  | dests _ _ _ _ _ => exact ⟨h.version, h.coinbase, h.type⟩
  | plus _ _ _ _ _ _ _ | bulletproof _ _ _ _ _ _ _ _ => exact ⟨h.version, h.coinbase, h.type⟩

theorem Expanded.arraySizes (h : ArraySizes t) : ArraySizes x := by
  rcases h with ⟨hecdh, hrange, hclsags, hmgs, hpseudo, hscalars⟩
  cases hx with
  | same _ _ => exact ⟨hecdh, hrange, hclsags, hmgs, hpseudo, hscalars⟩
  | dests _ _ _ _ _ => exact ⟨hecdh, hrange, hclsags, hmgs, hpseudo, hscalars⟩
  | plus _ _ _ _ _ _ _ => exact ⟨hecdh, hrange, hclsags, hmgs, hpseudo, hscalars⟩
  | bulletproof _ _ _ _ _ _ _ _ => exact ⟨hecdh, hrange, hclsags, hmgs, hpseudo, hscalars⟩

theorem Expanded.outPk_length (h : Signed t) : x.rctSignatures.outPk.length = x.vout.length := by
  cases hx with
  | same _ hsame => exact absurd hsame h.not_same
  | dests _ _ hlen hfill _ => exact (fillDests_masks hlen hfill).length_eq.trans hlen
  | plus _ _ hlen hfill _ _ _ => exact (fillDests_masks hlen hfill).length_eq.trans hlen
  | bulletproof _ _ hlen hfill _ _ _ _ => exact (fillDests_masks hlen hfill).length_eq.trans hlen

/-- There was exactly one proof, and it now has a commitment for each output. -/
theorem Expanded.single (h : Signed t) : (isRctBulletproofPlus t.rctSignatures.type = true →
      ∃ proof V, t.rctSignatures.p.bulletproofsPlus = [proof] ∧
        x.rctSignatures.p.bulletproofsPlus = [{ proof with V }] ∧ V.length = t.vout.length) ∧
    (isRctBulletproof t.rctSignatures.type = true →
      ∃ proof V, t.rctSignatures.p.bulletproofs = [proof] ∧
        x.rctSignatures.p.bulletproofs = [{ proof with V }] ∧ V.length = t.vout.length) := by
  have hV {outPk : List CtKey} (hlen : t.rctSignatures.outPk.length = t.vout.length)
      (hfill : fillDests t.rctSignatures.outPk t.vout = some outPk) :
      (outPk.map fun k => C.scalarmultInvEight k.mask).length = t.vout.length := by
    rw [length_map]
    exact (fillDests_masks hlen hfill).length_eq.trans hlen
  cases hx with
  | same _ hsame => exact absurd hsame h.not_same
  | dests _ _ _ _ hnone => simp [hnone rfl]
  | plus outPk proof hlen hfill htype hproof _ =>
    refine ⟨fun _ => ⟨proof, _, hproof, rfl, hV hlen hfill⟩, fun hbp => ?_⟩
    rw [not_bulletproof_of_plus htype] at hbp
    cases hbp
  | bulletproof outPk proof hlen hfill hplus _ hproof _ =>
    exact ⟨fun htype => absurd htype (by simp [hplus]),
      fun _ => ⟨proof, _, hproof, rfl, hV hlen hfill⟩⟩

end

/-- An accepted transaction with a signature has the sizes the verifiers rely on. -/
theorem verifierSizes_of_accepted {C : Crypto} {tx : Transaction}
    (h : (parseAndValidateTxFromBlob C blob).2 = some tx) (hsigned : Signed tx) :
    VerifierSizes tx := by
  rcases parseAndValidateTxFromBlob_some h with ⟨t, hread, hexpand, -⟩
  have ht := hexpand.signed hsigned
  have hp := readTransaction_sized hread ht.version_ne_one ht.type
    (fun hplus => by
      rcases (hexpand.single ht).1 hplus with ⟨proof, V, hproof, -⟩
      rw [hproof]
      rfl)
    (fun hbp => by
      rcases (hexpand.single ht).2 hbp with ⟨proof, V, hproof, -⟩
      rw [hproof]
      rfl)
  rcases serializeTransaction_read_writes hread ht.version_ne_one ht.type with ⟨hfits, hbase, -⟩
  have hvout : tx.vout = t.vout := congrArg TransactionPrefix.vout hexpand.kept.1
  refine { hexpand.arraySizes (arraySizes_of_sized hfits hbase hp) with
    outPk := hexpand.outPk_length ht
    bulletproofs := ?_
    bulletproofsPlus := ?_ }
  · rw [hexpand.kept.2, hvout]
    intro hbp
    rcases (hexpand.single ht).2 hbp with ⟨proof, V, hproof, hproof', hV⟩
    have hproofs := hp.bulletproofs hbp
    rw [hproof] at hproofs
    rcases proofSizes_of_single hproofs rfl with ⟨h6, hlr, h10, hmax⟩
    exact ⟨_, hproof', h6, hlr, h10, hV, hmax⟩
  · rw [hexpand.kept.2, hvout]
    intro hplus
    rcases (hexpand.single ht).1 hplus with ⟨proof, V, hproof, hproof', hV⟩
    have hproofs := hp.bulletproofsPlus hplus
    rw [hproof] at hproofs
    rcases proofSizes_of_single hproofs rfl with ⟨h6, hlr, h10, hmax⟩
    exact ⟨_, hproof', h6, hlr, h10, hV, hmax⟩

/-- What the parser does out of range: at most the subtraction on an empty ring, in a blob it then
    rejects. -/
theorem parse_ops (C : Crypto) (blob : Blob) (e : Note)
    (he : e ∈ (parseAndValidateTxFromBlob C blob).1) :
    e.InRange ∨ (e = .sub 0 1 ∧ (parseAndValidateTxFromBlob C blob).2 = none ∧
      ∃ p rest amount kImage ins, (serializePrefix.read blob).value = some (p, rest) ∧
        p.vin = .toKey amount [] kImage :: ins) := by
  simp only [parseAndValidateTxFromBlob] at he ⊢
  split at he
  next t hread =>
    rcases mem_append.mp he with h | h
    · rcases readTransaction_ops blob e h with hin | ⟨-, hnone, -⟩
      · exact .inl hin
      · rw [hnone] at hread
        cases hread
    · exact .inl (expand_ops hread e h)
  next hother =>
    rcases readTransaction_ops blob e he with hin | ⟨hsub, hnone, hring⟩
    · exact .inl hin
    · exact .inr ⟨hsub, rfl, hring⟩

/-- The sample transaction with what the expansion fills in. Only the first bytes of the amount are
    on the wire. -/
def acceptedSample : Transaction :=
  { sampleTransaction with
    rctSignatures.ecdhInfo := [{ amount := 0 }]
    rctSignatures.outPk := [{ dest := 5, mask := 3 }]
    rctSignatures.p.bulletproofsPlus :=
      [{ A := 0, A1 := 0, B := 0, r1 := 0, s1 := 0, d1 := 0
         L := List.replicate 6 0, R := List.replicate 6 0, V := [3] }]
    unprunableSize := 119
    prefixSize := 77 }

/-- Whatever the blob, an accepted transaction with a signature has the sizes the verifiers rely on,
    and no shift or subtraction of the parser goes out of range but the one on a first input
    without ring members, which makes it reject the blob. -/
theorem parsed_sizes (C : Crypto) (blob : Blob) :
    (∀ tx, (parseAndValidateTxFromBlob C blob).2 = some tx → tx.version = 2 →
      tx.isCoinbase = false → tx.rctSignatures.type ≠ rctTypeNull → VerifierSizes tx) ∧
    (∀ e ∈ (parseAndValidateTxFromBlob C blob).1, e.InRange ∨
      (e = .sub 0 1 ∧ (parseAndValidateTxFromBlob C blob).2 = none ∧
        ∃ p rest amount kImage ins, (serializePrefix.read blob).value = some (p, rest) ∧
          p.vin = .toKey amount [] kImage :: ins)) := by
  constructor
  · intro tx h hversion hcoinbase htype
    exact verifierSizes_of_accepted h ⟨hversion, hcoinbase, htype⟩
  · exact parse_ops C blob

/-- The sample transaction as it is accepted. -/
theorem parsed_sizes_sample :
    (parseAndValidateTxFromBlob Crypto.sample ((txToBlob sampleTransaction).getD [])).2 =
      some acceptedSample ∧ VerifierSizes acceptedSample := by
  have hparse : (parseAndValidateTxFromBlob Crypto.sample
      ((txToBlob sampleTransaction).getD [])).2 = some acceptedSample := by decide +kernel
  exact ⟨hparse, (parsed_sizes _ _).1 _ hparse rfl rfl (by decide)⟩

/-- A RingCT transaction whose one input has no ring members. -/
def emptyRingBlob : Blob :=
  [2, 0, 1, 2, 0, 0] ++ List.replicate 32 0 ++ [0, 0, 1, 0]

/-- The size of the empty ring less one is out of range. -/
theorem empty_ring_wraps :
    Note.sub 0 1 ∈ (parseAndValidateTxFromBlob Crypto.sample emptyRingBlob).1 ∧
      ¬ (Note.sub 0 1).InRange ∧
      (parseAndValidateTxFromBlob Crypto.sample emptyRingBlob).2 = none := by
  decide +kernel

end Wire

end CocaineNode
