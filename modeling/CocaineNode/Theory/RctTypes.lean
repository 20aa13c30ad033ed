import CocaineNode.Core.RctTypes

/-!
# RingCT Signatures Read Back

The laws of the RingCT codecs. `serialised` says, record by record, what a
signature keeps of itself on the wire: the fields its type uses, without the
masks and the amount tails that newer types drop and without what the parser
fills in afterwards.

Reader and writer derive every array size from the same numbers, so the laws
follow from those of the combinators. One place needs an argument: the number
of proofs is kept in 32 bits, and a writer with more proofs than that would
write the first ones. Such a writer gets that far for a transaction without
outputs only, because the amounts that many proofs cover do not fit the count
that is compared with the outputs.

## Theorems

* `serializeRctsigBase_safe`, `serializeRctsigPrunable_safe`: No shift or subtraction in them
  goes out of range.
* `writes_rctsigBase`, `writes_rctsigPrunable`: The sizes are enough to be written.
-/

namespace CocaineNode

open Codec Option UInt32

/-! ## Integers and keys -/

theorem varint64_lawful : varint64.Lawful id :=
  (Lawful.varint (by omega)).map (fun _ _ => rfl) (by rintro a _ ⟨⟩; rfl)

theorem varint32_lawful : varint32.Lawful id :=
  (Lawful.varint (by omega)).map (fun _ _ => rfl) (by rintro a _ ⟨⟩; rfl)

theorem uint32_lawful : uint32.Lawful id :=
  (Lawful.word 4).map (fun _ _ => rfl) (by rintro a _ ⟨⟩; rfl)

theorem key_lawful : key.Lawful id :=
  Lawful.blob 32

theorem varint64_safe : varint64.Safe :=
  (Safe.varint (by omega)).map _ _

theorem varint32_safe : varint32.Safe :=
  (Safe.varint (by omega)).map _ _

theorem uint32_safe : uint32.Safe :=
  (Safe.word 4).map _ _

theorem key_safe : key.Safe :=
  Safe.blob 32

@[simp] theorem writes_varint64 (x : UInt64) : varint64.Writes x :=
  rfl

@[simp] theorem writes_varint32 (x : UInt32) : varint32.Writes x :=
  rfl

@[simp] theorem writes_uint32 (x : UInt32) : uint32.Writes x :=
  rfl

@[simp] theorem writes_key (k : Key) : key.Writes k :=
  rfl

theorem varint64_wide : varint64.Wide :=
  (Wide.varint 64).map _ _

theorem key_wide : key.Wide := by
  intro k bs h
  rw [blob_length 32 k bs h]
  exact Nat.succ_pos 31

theorem keys_lawful : (counted key).Lawful id :=
  key_lawful.counted_id key_wide

/-! ## Proofs -/

/-- The commitments of a proof are not saved. -/
def Bulletproof.serialised (p : Bulletproof) : Bulletproof :=
  { p with V := [] }

/-- The commitments of a proof are not saved. -/
def BulletproofPlus.serialised (p : BulletproofPlus) : BulletproofPlus :=
  { p with V := [] }

theorem serializeBulletproof_lawful : serializeBulletproof.Lawful Bulletproof.serialised := by
  have hk := key_lawful
  have hfields := hk.pair <| hk.pair <| hk.pair <| hk.pair <| hk.pair <| hk.pair <|
    keys_lawful.pair <| keys_lawful.pair <| hk.pair <| hk.pair hk
  refine Lawful.check ?_ (fun _ _ hp => hp) fun _ => List.not_mem_nil
  refine hfields.map (fun _ _ => rfl) ?_
  rintro p _ ⟨⟩
  rfl

theorem serializeBulletproofPlus_lawful :
    serializeBulletproofPlus.Lawful BulletproofPlus.serialised := by
  have hk := key_lawful
  have hfields := hk.pair <| hk.pair <| hk.pair <| hk.pair <| hk.pair <| hk.pair <|
    keys_lawful.pair keys_lawful
  refine Lawful.check ?_ (fun _ _ hp => hp) fun _ => List.not_mem_nil
  refine hfields.map (fun _ _ => rfl) ?_
  rintro p _ ⟨⟩
  rfl

theorem serializeBulletproof_safe : serializeBulletproof.Safe := by
  have hk := key_safe
  have hfields := hk.pair <| hk.pair <| hk.pair <| hk.pair <| hk.pair <| hk.pair <|
    hk.counted.pair <| hk.counted.pair <| hk.pair <| hk.pair hk
  exact (hfields.map _ _).check _ fun _ _ _ _ _ h => absurd h List.not_mem_nil

theorem serializeBulletproofPlus_safe : serializeBulletproofPlus.Safe := by
  have hk := key_safe
  have hfields := hk.pair <| hk.pair <| hk.pair <| hk.pair <| hk.pair <| hk.pair <|
    hk.counted.pair hk.counted
  exact (hfields.map _ _).check _ fun _ _ _ _ _ h => absurd h List.not_mem_nil

/-- The sizes of the two vectors of a proof. -/
def ProofSized (L R : List Key) : Prop :=
  L ≠ [] ∧ L.length = R.length ∧ L.length < 2 ^ 64

theorem proofSized_iff (L R : List Key) :
    ProofSized L R ↔ (¬ L = [] ∧ L.length = R.length) ∧ L.length < 2 ^ 64 ∧ R.length < 2 ^ 64 := by
  constructor
  · rintro ⟨hne, hlen, hlt⟩
    exact ⟨⟨hne, hlen⟩, hlt, hlen ▸ hlt⟩
  · rintro ⟨⟨hne, hlen⟩, hlt, -⟩
    exact ⟨hne, hlen, hlt⟩

@[simp] theorem writes_bulletproof (p : Bulletproof) :
    serializeBulletproof.Writes p ↔ ProofSized p.L p.R := by
  simp [serializeBulletproof, proofSized_iff]

@[simp] theorem writes_bulletproofPlus (p : BulletproofPlus) :
    serializeBulletproofPlus.Writes p ↔ ProofSized p.L p.R := by
  simp [serializeBulletproofPlus, proofSized_iff]

/-! ## The amounts that proofs cover -/

theorem nBulletproofMaxAmountsBase_ops (l r maxOutputs : Nat) :
    ∀ e ∈ (nBulletproofMaxAmountsBase l r maxOutputs).1, e.InRange ∧ e ≠ .cut := by
  intro e he
  simp only [nBulletproofMaxAmountsBase] at he
  split_ifs at he with h1 h2 h3 h4
  · simp at he
  · simp at he
  · simp only [List.mem_singleton] at he
    subst he
    exact ⟨by decide, by simp⟩
  · simp only [List.mem_singleton] at he
    subst he
    exact ⟨by decide, by simp⟩
  · -- The size is between six and ten, so the shift is by at most four.
    simp only [List.mem_cons, List.not_mem_nil, or_false] at he
    rcases he with rfl | rfl | rfl
    · exact ⟨by decide, by simp⟩
    · exact ⟨by simp only [Note.InRange]; omega, by simp⟩
    · exact ⟨by simp only [Note.InRange]; omega, by simp⟩

/-- A proof covers amounts when its vectors have between six and ten entries. -/
theorem nBulletproofMaxAmountsBase_pos {l r : Nat} (h : 0 < (nBulletproofMaxAmountsBase l r 16).2) :
    6 ≤ l ∧ l = r ∧ l ≤ 10 ∧ (nBulletproofMaxAmountsBase l r 16).2 = 2 ^ (l - 6) := by
  simp only [nBulletproofMaxAmountsBase] at h ⊢
  split_ifs at h ⊢ with h1 h2 h3 h4
  · exact absurd h (lt_irrefl 0)
  · exact absurd h (lt_irrefl 0)
  · exact absurd h (lt_irrefl 0)
  · exact absurd h (lt_irrefl 0)
  · exact ⟨by omega, by omega, by omega, rfl⟩

section MaxAmounts

variable {β : Type} {one : β → List Note × Nat}

/-- The count of amounts never passes what it is compared with. -/
theorem nMaxAmountsLoop_ops (hone : ∀ b, ∀ e ∈ (one b).1, e.InRange ∧ e ≠ .cut) (l : List β)
    {n : Nat} (hn : n ≤ 2 ^ 32 - 1) : ∀ e ∈ (nMaxAmountsLoop one l n).1, e.InRange ∧ e ≠ .cut := by
  induction l generalizing n with
  | nil => simp [nMaxAmountsLoop]
  | cons b l ih =>
    have hstep : ∀ e ∈ (one b).1 ++ [.sub (2 ^ 32 - 1) n], e.InRange ∧ e ≠ .cut := by
      intro e he
      rcases List.mem_append.mp he with h | h
      · exact hone b e h
      · rw [List.mem_singleton] at h
        rw [h]
        exact ⟨hn, by simp⟩
    intro e he
    simp only [nMaxAmountsLoop] at he
    split_ifs at he with hover hzero
    · exact hstep e he
    · rcases List.mem_append.mp he with h | h
      · exact hstep e h
      · exact ih (by omega) e h
    · exact hstep e he

/-- Each proof that counts covers an amount. -/
theorem nMaxAmountsLoop_length (l : List β) {n : Nat} (hn : n ≤ 2 ^ 32 - 1)
    (h : (nMaxAmountsLoop one l n).2 ≠ 0) :
    n + l.length ≤ (nMaxAmountsLoop one l n).2 ∧ (nMaxAmountsLoop one l n).2 ≤ 2 ^ 32 - 1 := by
  induction l generalizing n with
  | nil => exact ⟨le_refl n, hn⟩
  | cons b l ih =>
    simp only [nMaxAmountsLoop] at h ⊢
    split_ifs at h ⊢ with hover hzero
    · exact absurd rfl h
    · have hrest := ih (by omega) h
      rw [List.length_cons]
      omega
    · exact absurd rfl h

variable {f : β → β}

theorem nMaxAmountsLoop_map (hf : ∀ b, one (f b) = one b) (l : List β) (n : Nat) :
    nMaxAmountsLoop one (l.map f) n = nMaxAmountsLoop one l n := by
  induction l generalizing n with
  | nil => rfl
  | cons b l ih => simp only [List.map_cons, nMaxAmountsLoop, hf, ih]

/-- What a writer of proofs writes, cut to the count it writes in front. -/
def firstProofs (f : β → β) (l : List β) : List β :=
  (l.take (UInt32.ofNat l.length).toNat).map f

variable {l : List β}

theorem firstProofs_of_length_lt (h : l.length < 2 ^ 32) : firstProofs f l = l.map f := by
  rw [firstProofs, toNat_ofNat', Nat.mod_eq_of_lt h, List.take_length]

variable {count : Codec UInt32} {proof : Codec β} (one : β → List Note × Nat)

theorem serializeProofs_lawful (hcount : count.Lawful id)
    (hproof : proof.Lawful f) (hf : ∀ b, one (f b) = one b)
    (hone : ∀ b, ∀ e ∈ (one b).1, e.InRange ∧ e ≠ .cut) (outputs : Nat) :
    (serializeProofs count proof (nMaxAmountsLoop one · 0) outputs).Lawful (firstProofs f) := by
  have hbody : (header count (fun l => ofNat l.length) fun nbp =>
      if outputs < nbp.toNat then fail
      else
        (delimited nbp.toNat proof).map
          (fun l => if ofNat l.length = nbp then some (l.take nbp.toNat) else none)
          id).Lawful (firstProofs f) := by
    refine Lawful.header (n := fun nbp (l : List β) => (l.take nbp.toNat).map f) hcount
      (fun nbp => ?_) (fun nbp l h => ?_)
    · split_ifs with hmany
      · exact Lawful.fail _
      · refine (hproof.delimited _).map (fun l h => ?_) (fun l b h => ?_)
        · rw [writes_delimited] at h
          rw [id, h.1, UInt32.ofNat_toNat, if_pos rfl, ← h.1, List.take_length]
        · split_ifs at h with hlen
          cases h
          rfl
    · split_ifs at h with hmany
      · exact absurd h (not_writes_fail l)
      · rw [writes_map] at h
        rcases h with ⟨b, hb, -⟩
        by_contra hne
        rw [if_neg hne] at hb
        cases hb
  refine hbody.check (fun l _ hp => ?_) fun l h => ?_
  · -- With more proofs than the count can tell, only no outputs at all are covered.
    simp only [Bool.not_eq_true', decide_eq_false_iff_not, not_lt] at hp ⊢
    by_cases hlen : l.length < 2 ^ 32
    · rwa [firstProofs_of_length_lt hlen, nMaxAmountsLoop_map hf]
    · have hzero : (nMaxAmountsLoop one l 0).2 = 0 := by
        by_contra hne
        have hbound := nMaxAmountsLoop_length l (Nat.zero_le _) hne
        omega
      omega
  · exact (nMaxAmountsLoop_ops hone l (Nat.zero_le _) _ h).2 rfl

theorem serializeProofs_safe (hcount : count.Safe) (hproof : proof.Safe)
    (hone : ∀ b, ∀ e ∈ (one b).1, e.InRange ∧ e ≠ .cut) (outputs : Nat) :
    (serializeProofs count proof (nMaxAmountsLoop one · 0) outputs).Safe := by
  refine Safe.check (hcount.header _ fun nbp => ?_) _ fun _ l _ _ e he => ?_
  · split_ifs with hmany
    · exact Safe.fail
    · exact (hproof.delimited _).map _ _
  · exact (nMaxAmountsLoop_ops hone l (Nat.zero_le _) e he).1

theorem serializeProofs_write_congr {maxAmounts : List β → List Note × Nat} {l' : List β}
    (h : List.Forall₂ (fun a b => proof.write a = proof.write b) l l')
    (hmax : maxAmounts l = maxAmounts l') (outputs : Nat) :
    (serializeProofs count proof maxAmounts outputs).write l =
      (serializeProofs count proof maxAmounts outputs).write l' := by
  have hlen : l.length = l'.length := h.length_eq
  simp only [serializeProofs, check, header, hmax, hlen]
  by_cases hmany : outputs < (ofNat l'.length).toNat
  · simp only [if_pos hmany]
    rfl
  · simp only [if_neg hmany, map, hlen, if_true, bind_some]
    rw [delimited_write_congr (List.forall₂_take _ h)]

/-- What the serialiser requires of the proofs of a transaction, where `one` is the number of
    amounts a proof covers and `sized` what is required of each. -/
structure ProofsSized (one : β → List Note × Nat) (sized : β → Prop) (l : List β)
    (outputs : Nat) : Prop where
  few : l.length ≤ outputs
  enough : outputs ≤ (nMaxAmountsLoop one l 0).2
  each : ∀ b ∈ l, sized b

theorem writes_proofs (hcount : ∀ n, count.Writes n) {sized : β → Prop}
    (hproof : ∀ b, proof.Writes b ↔ sized b) (outputs : Nat) (hl : l.length < 2 ^ 32) :
    (serializeProofs count proof (nMaxAmountsLoop one · 0) outputs).Writes l ↔
      ProofsSized one sized l outputs := by
  have hlen : (ofNat l.length).toNat = l.length := by
    rw [toNat_ofNat', Nat.mod_eq_of_lt hl]
  rw [serializeProofs, writes_check, writes_header]
  simp only [hcount, true_and, Bool.not_eq_true', decide_eq_false_iff_not, not_lt, hlen]
  split_ifs with hmany
  · exact ⟨fun h => absurd h.2 (not_writes_fail l), fun h => absurd h.few (by omega)⟩
  · rw [writes_map]
    simp only [if_true, some.injEq, exists_eq_left', writes_delimited, List.take_length,
      true_and, hproof]
    exact ⟨fun h => ⟨by omega, h.1, h.2⟩, fun h => ⟨h.enough, h.each⟩⟩

end MaxAmounts

/-! ## The base -/

/-- What is saved of an amount: all of it, or its first eight bytes. -/
def EcdhTuple.serialised (type : UInt8) (e : EcdhTuple) : EcdhTuple :=
  if isEcdhTruncated type then
    { mask := 0, amount := BitVec.append (e.amount.extractLsb' 192 64) (0 : BitVec 192) }
  else e

/-- The destinations are not saved. -/
def CtKey.serialised (k : CtKey) : CtKey :=
  { k with dest := 0 }

/-- What is saved of the base. -/
def RctSigBase.serialised (rv : RctSigBase) : RctSigBase :=
  if rv.type = rctTypeNull then {}
  else
    { type := rv.type
      txnFee := rv.txnFee
      pseudoOuts := if rv.type = rctTypeSimple then rv.pseudoOuts else []
      ecdhInfo := rv.ecdhInfo.map (EcdhTuple.serialised rv.type)
      outPk := rv.outPk.map CtKey.serialised }

@[simp] theorem RctSigBase.serialised_type (rv : RctSigBase) : rv.serialised.type = rv.type := by
  rw [RctSigBase.serialised]
  by_cases h : rv.type = rctTypeNull
  · rw [if_pos h]
    exact h.symm
  · rw [if_neg h]

theorem append_extract (x : BitVec 64) :
    (BitVec.append x (0 : BitVec 192)).extractLsb' 192 64 = x := by
  apply BitVec.eq_of_getLsbD_eq
  intro i hi
  rw [BitVec.getLsbD_extractLsb', show BitVec.append x (0 : BitVec 192) = x ++ 0#192 from rfl,
    BitVec.getLsbD_append]
  simp [hi]

theorem serializeEcdhInfo_lawful (type : UInt8) :
    (serializeEcdhInfo type).Lawful (EcdhTuple.serialised type) := by
  rw [serializeEcdhInfo]
  split_ifs with htrunc
  · refine (Lawful.blob 8).map (fun x _ => ?_) ?_
    · exact congrArg some (append_extract x)
    · rintro e _ ⟨⟩
      rw [EcdhTuple.serialised, if_pos htrunc]
      rfl
  · refine (key_lawful.pair key_lawful).map (fun _ _ => rfl) ?_
    rintro e _ ⟨⟩
    rw [EcdhTuple.serialised, if_neg htrunc]
    rfl

theorem serializeEcdhInfo_safe (type : UInt8) : (serializeEcdhInfo type).Safe := by
  rw [serializeEcdhInfo]
  split_ifs with htrunc
  · exact (Safe.blob 8).map _ _
  · exact (key_safe.pair key_safe).map _ _

@[simp] theorem writes_ecdhInfo (type : UInt8) (e : EcdhTuple) :
    (serializeEcdhInfo type).Writes e := by
  rw [serializeEcdhInfo]
  split_ifs with htrunc
  · rfl
  · rfl

theorem serializeOutPk_lawful : serializeOutPk.Lawful CtKey.serialised :=
  key_lawful.map (fun _ _ => rfl) (by rintro k _ ⟨⟩; rfl)

@[simp] theorem writes_outPk (k : CtKey) : serializeOutPk.Writes k :=
  rfl

variable (inputs outputs : Nat)

theorem serializeRctsigBase_lawful :
    (serializeRctsigBase inputs outputs).Lawful RctSigBase.serialised := by
  refine Lawful.header (n := fun _ => RctSigBase.serialised) Lawful.byte (fun type => ?_)
    (fun type rv h => ?_)
  · by_cases hnull : type = rctTypeNull
    · rw [if_pos hnull]
      refine (Lawful.absent ()).map (fun _ _ => by rw [if_pos rfl]) fun rv b h => ?_
      split_ifs at h with htype
      rw [RctSigBase.serialised, if_pos (htype.trans hnull), hnull]
      rfl
    rw [if_neg hnull]
    refine Lawful.fail_ite fun hknown => ?_
    have hecdh := (serializeEcdhInfo_lawful type).delimited outputs
    have houtPk := serializeOutPk_lawful.delimited outputs
    refine (varint64_lawful.pair <|
      ((key_lawful.delimited_id inputs).ite (Lawful.absent [])).pair <|
      hecdh.pair houtPk).map (fun _ _ => by rw [if_pos rfl]) fun rv b h => ?_
    split_ifs at h with htype
    cases h
    rw [RctSigBase.serialised, htype, if_neg hnull]
    rfl
  · -- Each body writes signatures of its own type only.
    by_contra hne
    by_cases hnull : type = rctTypeNull
    · simp [hnull, hnull ▸ hne] at h
    by_cases hknown : isRctKnown type = true
    · simp [hnull, hknown, hne] at h
    · simp [hnull, hknown] at h

theorem serializeRctsigBase_safe : (serializeRctsigBase inputs outputs).Safe := by
  refine Safe.byte.header _ fun type => ?_
  refine ((Safe.absent ()).map _ _).ite (Safe.fail.ite ?_)
  have hecdh := (serializeEcdhInfo_safe type).delimited outputs
  have houtPk : (delimited outputs serializeOutPk).Safe := (key_safe.map _ _).delimited outputs
  exact (varint64_safe.pair <| ((key_safe.delimited inputs).ite (Safe.absent [])).pair <|
    hecdh.pair houtPk).map _ _

/-- The sizes the base requires of a type that is not null. -/
structure RctSigBase.Sized (rv : RctSigBase) (inputs outputs : Nat) : Prop where
  known : isRctKnown rv.type = true
  pseudoOuts : rv.type = rctTypeSimple → rv.pseudoOuts.length = inputs
  ecdhInfo : rv.ecdhInfo.length = outputs
  outPk : rv.outPk.length = outputs

theorem writes_rctsigBase (rv : RctSigBase) : (serializeRctsigBase inputs outputs).Writes rv ↔
      rv.type = rctTypeNull ∨ rv.Sized inputs outputs := by
  rw [serializeRctsigBase, writes_header]
  by_cases hnull : rv.type = rctTypeNull
  · simp [hnull]
  by_cases hknown : isRctKnown rv.type = true
  · simp only [writes_byte, hnull, hknown, if_false, Bool.not_true, Bool.false_eq_true,
      writes_map, if_true, some.injEq, exists_eq_left', writes_pair, writes_varint64,
      writes_ite, writes_delimited, writes_key, writes_absent, writes_ecdhInfo, writes_outPk,
      implies_true, and_true, true_and, false_or]
    exact ⟨fun h => ⟨hknown, h.1, h.2.1, h.2.2⟩, fun h => ⟨h.pseudoOuts, h.ecdhInfo, h.outPk⟩⟩
  · have hnot : ¬ rv.Sized inputs outputs := fun h => hknown h.known
    simp [hnull, hknown, hnot]

/-- The destinations in `outPk` are not written. -/
theorem serializeRctsigBase_write_outPk {rv : RctSigBase} {outPk : List CtKey}
    (h : List.Forall₂ (fun k k' => k.mask = k'.mask) outPk rv.outPk) (inputs outputs : Nat) :
    (serializeRctsigBase inputs outputs).write { rv with outPk } =
      (serializeRctsigBase inputs outputs).write rv := by
  have hmasks : (delimited outputs serializeOutPk).write outPk =
      (delimited outputs serializeOutPk).write rv.outPk :=
    delimited_write_congr (h.imp fun k k' hmask => congrArg key.write hmask) outputs
  simp only [serializeRctsigBase, header]
  by_cases hnull : rv.type = rctTypeNull
  · simp only [hnull, if_true, map]
  by_cases hknown : isRctKnown rv.type = true
  · simp only [hnull, hknown, if_false, if_true, map, Bool.not_true, Bool.false_eq_true,
      bind_some, pair, seq, hmasks]
  · simp [hnull, hknown, fail]

/-! ## The prunable part -/

/-- The fields of the prunable part that a type uses, with proofs given by `plus` and `bp`. -/
def RctSigPrunable.used (type : UInt8) (p : RctSigPrunable) (plus : List BulletproofPlus)
    (bp : List Bulletproof) : RctSigPrunable :=
  if type = rctTypeNull then {}
  else
    { rangeSigs := if isRctBulletproofPlus type || isRctBulletproof type then [] else p.rangeSigs
      bulletproofs := if isRctBulletproof type then bp else []
      bulletproofsPlus := if isRctBulletproofPlus type then plus else []
      mgs := if isRctClsag type then [] else p.mgs
      clsags := if isRctClsag type then p.clsags else []
      pseudoOuts := if isRctBulletproof type || isRctBulletproofPlus type then p.pseudoOuts
        else [] }

variable {type : UInt8} {p : RctSigPrunable}

/-- Only the proofs of the type count. -/
theorem RctSigPrunable.used_congr {plus plus' : List BulletproofPlus} {bp bp' : List Bulletproof}
    (hplus : isRctBulletproofPlus type = true → plus = plus')
    (hbp : isRctBulletproof type = true → bp = bp') :
    p.used type plus bp = p.used type plus' bp' := by
  have hifPlus : (if isRctBulletproofPlus type then plus else [])
      = if isRctBulletproofPlus type then plus' else [] := ite_congr rfl hplus fun _ => rfl
  have hifBp : (if isRctBulletproof type then bp else [])
      = if isRctBulletproof type then bp' else [] := ite_congr rfl hbp fun _ => rfl
  rw [RctSigPrunable.used, RctSigPrunable.used, hifPlus, hifBp]

/-- What is saved of the prunable part. -/
def RctSigPrunable.serialised (type : UInt8) (p : RctSigPrunable) : RctSigPrunable :=
  p.used type (p.bulletproofsPlus.map BulletproofPlus.serialised)
    (p.bulletproofs.map Bulletproof.serialised)

/-- What is written of the prunable part, however many proofs there are. -/
def RctSigPrunable.written (type : UInt8) (p : RctSigPrunable) : RctSigPrunable :=
  p.used type (firstProofs BulletproofPlus.serialised p.bulletproofsPlus)
    (firstProofs Bulletproof.serialised p.bulletproofs)

theorem RctSigPrunable.written_null (p : RctSigPrunable) : p.written rctTypeNull = {} := by
  rw [RctSigPrunable.written, RctSigPrunable.used, if_pos rfl]

theorem serializeClsag_lawful (size : Nat) : (serializeClsag size).Lawful id :=
  ((key_lawful.delimited_id size).pair <| key_lawful.pair key_lawful).map (fun _ _ => rfl)
    (by rintro g _ ⟨⟩; rfl)

variable (rows cols : Nat)

theorem serializeMg_lawful : (serializeMg rows cols).Lawful id :=
  (((key_lawful.delimited_id cols).delimited_id rows).pair key_lawful).map (fun _ _ => rfl)
    (by rintro g _ ⟨⟩; rfl)

theorem serializeClsag_safe (size : Nat) : (serializeClsag size).Safe :=
  ((key_safe.delimited size).pair <| key_safe.pair key_safe).map _ _

theorem serializeMg_safe : (serializeMg rows cols).Safe :=
  (((key_safe.delimited cols).delimited rows).pair key_safe).map _ _

@[simp] theorem writes_clsag (size : Nat) (g : Clsag) :
    (serializeClsag size).Writes g ↔ g.s.length = size := by
  simp [serializeClsag]

@[simp] theorem writes_mg (g : MgSig) :
    (serializeMg rows cols).Writes g ↔ g.ss.length = rows ∧ ∀ row ∈ g.ss, row.length = cols := by
  simp [serializeMg]

theorem serializeRctsigPrunable_lawful (type : UInt8) (inputs outputs mixin : Nat) :
    (serializeRctsigPrunable type inputs outputs mixin).Lawful
      (RctSigPrunable.written type) := by
  rw [serializeRctsigPrunable]
  refine Lawful.fail_ite fun _ => Lawful.fail_ite fun _ => Lawful.fail_ite fun _ => ?_
  by_cases hnull : type = rctTypeNull
  · rw [if_pos hnull, hnull, show RctSigPrunable.written rctTypeNull = fun _ => {} from
      funext RctSigPrunable.written_null]
    exact Lawful.absent _
  · rw [if_neg hnull]
    refine Lawful.fail_ite fun _ => ?_
    have hplus := serializeProofs_lawful nBulletproofPlusMaxAmounts varint32_lawful
      serializeBulletproofPlus_lawful (fun _ => rfl)
      (fun _ => nBulletproofMaxAmountsBase_ops _ _ _) outputs
    have hcount : (if type = rctTypeBulletproof then uint32 else varint32).Lawful id := by
      split_ifs with htype
      · exact uint32_lawful
      · exact varint32_lawful
    have hbp := serializeProofs_lawful nBulletproofMaxAmounts hcount
      serializeBulletproof_lawful (fun _ => rfl)
      (fun _ => nBulletproofMaxAmountsBase_ops _ _ _) outputs
    have hnone : ∀ {α : Type}, (absent ([] : List α)).Lawful fun _ => [] := Lawful.absent []
    refine ((hplus.ite hnone).pair <| (hbp.ite hnone).pair <|
      (hnone.ite ((Lawful.blob (193 * 32)).delimited_id outputs)).pair <|
      (((serializeClsag_lawful _).delimited_id inputs).ite hnone).pair <|
      (hnone.ite ((serializeMg_lawful _ _).delimited_id _)).pair <|
      ((key_lawful.delimited_id inputs).ite hnone)).map (fun _ _ => rfl) ?_
    rintro p _ ⟨⟩
    rw [RctSigPrunable.written, RctSigPrunable.used, if_neg hnull]
    rfl

/-- What is written depends on the proofs only through what is written of them. -/
theorem serializeRctsigPrunable_write_congr {q : RctSigPrunable} (outputs : Nat)
    (hplus : (serializeProofs varint32 serializeBulletproofPlus
        (nMaxAmountsLoop nBulletproofPlusMaxAmounts · 0) outputs).write q.bulletproofsPlus =
      (serializeProofs varint32 serializeBulletproofPlus
        (nMaxAmountsLoop nBulletproofPlusMaxAmounts · 0) outputs).write p.bulletproofsPlus)
    (hbp : ∀ count, (serializeProofs count serializeBulletproof
        (nMaxAmountsLoop nBulletproofMaxAmounts · 0) outputs).write q.bulletproofs =
      (serializeProofs count serializeBulletproof
        (nMaxAmountsLoop nBulletproofMaxAmounts · 0) outputs).write p.bulletproofs)
    (hrest : { q with bulletproofs := [], bulletproofsPlus := [] } =
      { p with bulletproofs := [], bulletproofsPlus := [] }) (type : UInt8) (inputs mixin : Nat) :
    (serializeRctsigPrunable type inputs outputs mixin).write q =
      (serializeRctsigPrunable type inputs outputs mixin).write p := by
  refine ite_write_congr (fun _ => rfl) fun _ => ite_write_congr (fun _ => rfl) fun _ =>
    ite_write_congr (fun _ => rfl) fun _ => ite_write_congr (fun _ => rfl) fun _ =>
    ite_write_congr (fun _ => rfl) fun _ => ?_
  simp only [RctSigPrunable.mk.injEq, true_and] at hrest
  simp only [map, pair, seq, bind_some, hrest]
  rw [ite_write_congr (fun _ => hplus) fun _ => rfl, ite_write_congr (fun _ => hbp _) fun _ => rfl]

theorem serializeRctsigPrunable_safe (type : UInt8) (inputs outputs mixin : Nat) :
    (serializeRctsigPrunable type inputs outputs mixin).Safe := by
  have hplus := serializeProofs_safe nBulletproofPlusMaxAmounts varint32_safe
    serializeBulletproofPlus_safe (fun _ => nBulletproofMaxAmountsBase_ops _ _ _) outputs
  have hbp := serializeProofs_safe nBulletproofMaxAmounts
    (uint32_safe.ite (p := type = rctTypeBulletproof) varint32_safe)
    serializeBulletproof_safe (fun _ => nBulletproofMaxAmountsBase_ops _ _ _) outputs
  have hnone : ∀ {α : Type}, (absent ([] : List α)).Safe := Safe.absent []
  refine Safe.fail.ite <| Safe.fail.ite <| Safe.fail.ite <| (Safe.absent _).ite <| Safe.fail.ite ?_
  exact ((hplus.ite hnone).pair <| (hbp.ite hnone).pair <|
    (hnone.ite ((Safe.blob (193 * 32)).delimited outputs)).pair <|
    (((serializeClsag_safe _).delimited inputs).ite hnone).pair <|
    (hnone.ite ((serializeMg_safe _ _).delimited _)).pair <|
    ((key_safe.delimited inputs).ite hnone)).map _ _

/-- The sizes the prunable part requires of a type that is not null. -/
structure RctSigPrunable.Sized (p : RctSigPrunable) (type : UInt8) (inputs outputs mixin : Nat) :
    Prop where
  inputs_lt : inputs < 0xffffffff
  outputs_lt : outputs < 0xffffffff
  mixin_lt : mixin < 0xffffffff
  bulletproofsPlus : isRctBulletproofPlus type = true →
    ProofsSized nBulletproofPlusMaxAmounts (fun b => ProofSized b.L b.R) p.bulletproofsPlus outputs
  bulletproofs : isRctBulletproof type = true →
    ProofsSized nBulletproofMaxAmounts (fun b => ProofSized b.L b.R) p.bulletproofs outputs
  rangeSigs : ¬ (isRctBulletproofPlus type || isRctBulletproof type) = true →
    p.rangeSigs.length = outputs
  clsags : isRctClsag type = true →
    p.clsags.length = inputs ∧ ∀ g ∈ p.clsags, g.s.length = mixin + 1
  mgs : ¬ isRctClsag type = true → p.mgs.length = (if isMgSimple type then inputs else 1) ∧
      ∀ g ∈ p.mgs, g.ss.length = mixin + 1 ∧
        ∀ row ∈ g.ss, row.length = (if isMgSimple type then 1 else inputs) + 1
  pseudoOuts : (isRctBulletproof type || isRctBulletproofPlus type) = true →
    p.pseudoOuts.length = inputs

/-- With the sizes the serialiser requires no proof is lost. -/
theorem RctSigPrunable.Sized.written_eq {inputs outputs mixin : Nat}
    (h : p.Sized type inputs outputs mixin) : p.written type = p.serialised type := by
  have hout : outputs < 0xffffffff := h.outputs_lt
  refine RctSigPrunable.used_congr (fun hplus => ?_) (fun hbp => ?_)
  · have hfew := (h.bulletproofsPlus hplus).few
    exact firstProofs_of_length_lt (by omega)
  · have hfew := (h.bulletproofs hbp).few
    exact firstProofs_of_length_lt (by omega)

/-- The sizes are what it takes to be written. Proofs past the 32 bits of their count are left
    aside. -/
theorem writes_rctsigPrunable (inputs outputs mixin : Nat) (hnull : type ≠ rctTypeNull)
    (hknown : isRctKnown type = true)
    (hplus : isRctBulletproofPlus type = true → p.bulletproofsPlus.length < 2 ^ 32)
    (hbp : isRctBulletproof type = true → p.bulletproofs.length < 2 ^ 32) :
    (serializeRctsigPrunable type inputs outputs mixin).Writes p ↔
      p.Sized type inputs outputs mixin := by
  have hcount : ∀ n, (if type = rctTypeBulletproof then uint32 else varint32).Writes n := by
    intro n
    split_ifs with htype
    · exact writes_uint32 n
    · exact writes_varint32 n
  rw [serializeRctsigPrunable]
  by_cases hin : 0xffffffff ≤ inputs
  · rw [if_pos hin]
    exact ⟨fun h => absurd h (not_writes_fail p), fun h => absurd h.inputs_lt (by omega)⟩
  by_cases hout : 0xffffffff ≤ outputs
  · rw [if_neg hin, if_pos hout]
    exact ⟨fun h => absurd h (not_writes_fail p), fun h => absurd h.outputs_lt (by omega)⟩
  by_cases hmix : 0xffffffff ≤ mixin
  · rw [if_neg hin, if_neg hout, if_pos hmix]
    exact ⟨fun h => absurd h (not_writes_fail p), fun h => absurd h.mixin_lt (by omega)⟩
  simp only [if_neg hin, if_neg hout, if_neg hmix, if_neg hnull, hknown, Bool.not_true,
    Bool.false_eq_true, if_false, writes_map, some.injEq, exists_eq_left', writes_pair,
    writes_ite, writes_absent, implies_true, and_true, true_and, writes_delimited, writes_blob,
    writes_key, writes_clsag, writes_mg]
  have hproofsPlus := fun h => writes_proofs nBulletproofPlusMaxAmounts writes_varint32
    writes_bulletproofPlus outputs (hplus h)
  have hproofs := fun h => writes_proofs nBulletproofMaxAmounts hcount
    writes_bulletproof outputs (hbp h)
  constructor
  · rintro ⟨h1, h2, h3, h4, h5, h6⟩
    exact ⟨by omega, by omega, by omega, fun h => (hproofsPlus h).mp (h1 h),
      fun h => (hproofs h).mp (h2 h), h3, h4, h5, h6⟩
  · intro h
    exact ⟨fun ht => (hproofsPlus ht).mpr (h.bulletproofsPlus ht),
      fun ht => (hproofs ht).mpr (h.bulletproofs ht), h.rangeSigs, h.clsags, h.mgs, h.pseudoOuts⟩

end CocaineNode
