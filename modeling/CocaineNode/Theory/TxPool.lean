import CocaineNode.Lib.Transition
import CocaineNode.Theory.PoolOperations

/-!
# Conflicts in a Block Template

`fill_block_template` walks the pool from the highest fee down and skips a
transaction one of whose key images was seen before. The key images are read
from a transaction object that `is_transaction_ready_to_go` fills in, and it
does so only when the answer of the input checks is not cached. A transaction
with a cached answer has no key images as far as the template is concerned: it
is not compared with the ones before it, nor are the ones after it compared
with it.

So two transactions in a template can spend the same key image, but then one of
them had its answer in the cache when the call began
(`fillBlockTemplate_conflict`). That is the case for every transaction that was
relayed since the last block, and for the whole pool from the second template
on.

The proof has two layers. `Kept` is what every operation of the pool keeps: the
sorted container holds no id twice, and every stored blob satisfies a given
property. It is used with the property that a transaction read from the blob
does not repeat a key image, which `ver_non_input_consensus` checks. `Apart` is
the invariant of the loop of `fill_block_template`.

## Theorems

* `TxPool.fillBlockTemplate_apart`: Uncached transactions in a template do not conflict.
* `TxPool.fillBlockTemplate_conflict`: Where a conflict comes from.
-/

namespace CocaineNode

open List Option

namespace TxPool

open Transition

/-! ## What every operation keeps -/

/-- No id is sorted in twice, and every blob in the table satisfies `Q`. -/
structure Kept (Q : Blob → Prop) (p : TxPool) : Prop where
  nodup : (p.txsByFeeAndReceiveTime.map SortedTx.txid).Nodup
  blobs : ∀ id m blob, p.txpool.lookup id = some (m, blob) → Q blob

section Kept

variable {Q : Blob → Prop} {p p' : TxPool} {id : Hash} (h : Kept Q p)
include h

theorem Kept.congr (htable : p'.txpool = p.txpool)
    (hsorted : p'.txsByFeeAndReceiveTime = p.txsByFeeAndReceiveTime) : Kept Q p' :=
  ⟨by rw [hsorted]; exact h.nodup, by rw [htable]; exact h.blobs⟩

theorem Kept.insert {m : TxMeta} {blob : Blob} (hblob : Q blob) :
    Kept Q (p.withTable (p.txpool.insert id (m, blob))) := by
  refine ⟨h.nodup, fun id' m' blob' hlookup => ?_⟩
  rcases lookup_of_insert hlookup with ⟨-, heq⟩ | ⟨-, hold⟩
  · cases heq
    exact hblob
  · exact h.blobs id' m' blob' hold

theorem Kept.erase (id : Hash) : Kept Q (p.withTable (p.txpool.erase id)) :=
  ⟨h.nodup, fun id' m' blob' hlookup => h.blobs id' m' blob' (lookup_of_erase hlookup)⟩

/-- The blob of an entry does not change with its metadata. -/
theorem Kept.updateMeta (id : Hash) (m : TxMeta) : Kept Q (p.updateMeta id m) := by
  unfold TxPool.updateMeta
  split
  · rename_i hlookup
    exact h.insert (h.blobs _ _ _ hlookup)
  · exact h

theorem Kept.markDoubleSpend (ins : List TxIn) : Kept Q (p.markDoubleSpend ins) :=
  markDoubleSpend_rec (fun _ id _ _ hq _ => hq.updateMeta id _) ins h

/-! ### The sorted container -/

omit h in
theorem insertSorted_perm (x : SortedTx) (l : List SortedTx) :
    (insertSorted x l).Perm (x :: l) := by
  induction l with
  | nil => exact List.Perm.refl _
  | cons y rest ih =>
    simp only [insertSorted]
    split
    · exact List.Perm.refl _
    · exact (ih.cons y).trans (List.Perm.swap x y rest)

theorem Kept.eraseSorted (id : Hash) : Kept Q (p.eraseSorted id) :=
  ⟨h.nodup.sublist (filter_sublist.map _), h.blobs⟩

theorem Kept.addSorted (e : SortedTx) : Kept Q (p.addSorted e) := by
  unfold TxPool.addSorted
  split
  · exact h
  · rename_i hfresh
    refine ⟨?_, h.blobs⟩
    have hperm := (insertSorted_perm e p.txsByFeeAndReceiveTime).map SortedTx.txid
    refine hperm.nodup_iff.mpr (nodup_cons.mpr ⟨fun hmem => ?_, h.nodup⟩)
    rcases mem_map.mp hmem with ⟨f, hf, heq⟩
    exact hfresh (any_eq_true.mpr ⟨f, hf, by simpa using heq⟩)

theorem Kept.addTxToTransientLists (id : Hash) (feeRate receiveTime : UInt64) :
    Kept Q (p.addTxToTransientLists id feeRate receiveTime) := by
  simp only [TxPool.addTxToTransientLists]
  split
  · exact ((h.eraseSorted id).addSorted _).congr rfl rfl
  · exact (h.addSorted _).congr rfl rfl

theorem Kept.removeTxFromTransientLists (id : Hash) (sensitive : Bool) :
    Kept Q (p.removeTxFromTransientLists id sensitive) :=
  (h.eraseSorted id).congr rfl rfl

/-! ### The writers -/

theorem Kept.drop (id : Hash) (m : TxMeta) (vin : List TxIn) : Kept Q (p.drop id m vin) := by
  rcases drop_eq p id m vin with ⟨t, ht⟩
  have hreduced : Kept Q
      (((p.withTable (p.txpool.erase id)).reduceTxpoolWeight m.weight).withSpentKeyImages t) :=
    (h.erase id).congr rfl rfl
  rw [ht]
  exact hreduced.removeTxFromTransientLists id _

theorem Kept.prune (E : Externals) (bytes : UInt64) : Kept Q (p.prune E bytes) :=
  prune_rec (fun _ id m _ tx hq _ _ => hq.drop id m tx.vin)
    (fun _ _ _ _ hq _ _ => ⟨hq.nodup, h.blobs⟩) bytes h

variable {E : Externals} {c : AddTxCall} {tvc : Tvc}

theorem storeTx_kept (E : Externals) (txRelay : RelayMethod) (m : TxMeta) (now : UInt64)
    (replace : Bool) (hblob : Q c.blob) : Kept Q (p.storeTx E c txRelay m now replace).2 := by
  rcases insertKeyImages_eq p c.id txRelay c.tx.vin with ⟨t, ht⟩
  have hinserted : Kept Q (p.withSpentKeyImages t) := h.congr rfl rfl
  simp only [storeTx, ht]
  split
  · exact hinserted
  · exact (hinserted.insert hblob).addTxToTransientLists _ _ _

theorem Kept.checks (hchecks : Checks E p c tvc p') : Kept Q p' := by
  rcases hchecks.pool with ⟨cache, rfl | rfl⟩
  · exact h.congr rfl rfl
  · exact h.congr rfl rfl

/-- `add_tx` keeps the invariant when the blob it may store is a good one. It stores one only if
    the rules that need no chain have passed, now or before. -/
theorem addTx_kept (E : Externals) (v : ChainView) (c : AddTxCall) (now : UInt64) (tvc : Tvc)
    (hblob : (nicVerified E c tvc).1 = true → Q c.blob) : Kept Q (p.addTx E v c now tvc).2.2 := by
  have hend := addTx_outcome E v p c now tvc
  generalize p.addTx E v c now tvc = r at hend ⊢
  rcases r with ⟨ok, tvc', p'⟩
  cases hend with
  | refused => exact h
  | conflicting => exact h.markDoubleSpend _
  | failing q hq => exact h.checks hq
  | known q bytes hq => exact (h.checks hq).prune E bytes
  | unstored q txRelay m replace hq =>
    exact storeTx_kept (h.checks hq) E txRelay m now replace (hblob hq.passed)
  | stored q txRelay m replace bytes hq =>
    have hstored := storeTx_kept (h.checks hq) E txRelay m now replace (hblob hq.passed)
    refine Kept.prune ?_ E bytes
    split
    · exact hstored
    · exact hstored.congr rfl rfl

theorem takeTx_kept {t : TakenTx} (htake : p.takeTx E id = some (t, p')) :
    Kept Q p' ∧ Q t.blob := by
  rcases takeTx_some htake with ⟨m, hlookup, rfl, -⟩
  exact ⟨h.drop id m t.tx.vin, h.blobs id m t.blob hlookup⟩

variable (E : Externals) (v : ChainView) (version : UInt8) (now : UInt64)

theorem revalidate_kept (hversion : version ≠ 0) (e : Hash × TxMeta) :
    Kept Q (p.revalidate E v version now e) := by
  rcases revalidate_cases E v hversion now p e with hsame | ⟨t, p₁, htake, -, hturn⟩
  · rw [hsame]
    exact h
  · rcases takeTx_kept h htake with ⟨hkept, hblob⟩
    have hadded := addTx_kept hkept E v (readdCall t e version) now {} fun _ => hblob
    rw [hturn]
    split
    · exact hadded.updateMeta _ _
    · exact hadded

end Kept

/-! ## The readiness check -/

variable {E : Externals} {v : ChainView} {ins : List TxIn} {tvc : Tvc}

theorem checkInputsLoop_toKey {tx : Transaction} {i maxHeight : Nat}
    (h : (checkInputsLoop E v tx ins i maxHeight tvc).1 = true) : ∀ x ∈ ins, x.isToKey = true := by
  induction ins generalizing i maxHeight tvc with
  | nil => simp
  | cons x rest ih =>
    cases x with
    | toKey amount offsets ki =>
      simp only [checkInputsLoop] at h
      split_ifs at h
      split at h
      · cases h
      · rintro y hy
        rcases mem_cons.mp hy with rfl | hy
        · rfl
        · exact ih h y hy
    | gen | toScript | toScripthash => cases h

/-- A transaction whose inputs check out outside a block spends key images only. -/
theorem checkTxInputs_toKey {tx : Transaction} {maxUsedBlockId : Hash}
    (h : (CocaineNode.checkTxInputs E v tx tvc maxUsedBlockId false).ok) :
    ∀ x ∈ tx.vin, x.isToKey = true := by
  have hcore : (checkTxInputsCore E v tx tvc).1 = true := by
    by_contra hfailed
    rw [Bool.not_eq_true] at hfailed
    simp [CocaineNode.checkTxInputs, hfailed] at h
  have hloop : (checkInputsLoop E v tx tx.vin 0 0 (E.checkMixins v.db v.version tx tvc).2).1 =
      true := by
    by_contra hfailed
    rw [Bool.not_eq_true] at hfailed
    simp only [checkTxInputsCore, hfailed] at hcore
    split_ifs at hcore with _ _ hstop
    · simp [hfailed] at hcore
    · simp at hstop
  exact checkInputsLoop_toKey hloop

/-- The transaction in the blob of a pool entry. -/
def readTx (E : Externals) (p : TxPool) (id : Hash) : Option Transaction :=
  (p.txpool.lookup id).bind fun e => E.parseTx e.2

theorem updateMeta_readTx (E : Externals) (p : TxPool) (id : Hash) (m : TxMeta) (id' : Hash) :
    (p.updateMeta id m).readTx E id' = p.readTx E id' := by
  unfold updateMeta
  split
  · rename_i m₀ blob hlookup
    by_cases heq : id' = id
    · subst heq
      simp [readTx, withTable, hlookup]
    · simp [readTx, withTable, AList.lookup_insert_ne heq]
  · rfl

theorem updateMeta_inputCache (p : TxPool) (id : Hash) (m : TxMeta) :
    (p.updateMeta id m).inputCache = p.inputCache := by
  unfold updateMeta
  split <;> rfl

/-- What is known after a readiness check. The transaction object holds the transaction only when
    its answer was not cached. -/
structure Checked (E : Externals) (p : TxPool) (id : Hash) (blob : Blob) (r : Readiness)
    (p' : TxPool) : Prop where
  table : p'.txpool = p.txpool
  sorted : p'.txsByFeeAndReceiveTime = p.txsByFeeAndReceiveTime
  cache : ∀ id' ∈ p'.inputCache, id' = id ∨ id' ∈ p.inputCache
  parsed : r.ready = true → id ∉ p.inputCache →
    E.parseTx blob = some r.tx ∧ ∀ x ∈ r.tx.vin, x.isToKey = true

variable {p : TxPool} {id : Hash} {blob : Blob}

theorem isTransactionReadyToGo_checked {p' : TxPool} {txd : TxMeta} {r : Readiness}
    (h : p.isTransactionReadyToGo E v txd id blob = some (r, p')) : Checked E p id blob r p' := by
  simp only [isTransactionReadyToGo] at h
  split at h
  · cases h
    exact ⟨rfl, rfl, fun _ => Or.inr, fun hready => absurd hready (by simp)⟩
  · rcases map_eq_some_iff.mp h with ⟨⟨check, p₁⟩, hcheck, hr⟩
    have hp' : p₁ = p' := by
      split at hr <;> (cases hr; rfl)
    subst hp'
    unfold checkTxInputs at hcheck
    simp only [Bool.false_eq_true, if_false] at hcheck
    split at hcheck
    · -- The answer was cached.
      rename_i cached hcached
      cases hcheck
      have hmem : id ∈ p.inputCache := AList.lookup_isSome.mp (by rw [hcached]; rfl)
      exact ⟨rfl, rfl, fun _ => Or.inr, fun _ hfresh => absurd hmem hfresh⟩
    · rcases map_eq_some_iff.mp hcheck with ⟨tx, hparse, heq⟩
      cases heq
      refine ⟨rfl, rfl, fun id' hid' => ?_, fun hready hfresh => ?_⟩
      · simp only [cacheInputs] at hid'
        split at hid'
        · exact Or.inr hid'
        · rwa [AList.mem_insert] at hid'
      · rw [if_neg hfresh, hparse, getD_some] at hr
        split at hr
        · rename_i hok
          cases hr
          exact ⟨hparse, checkTxInputs_toKey hok⟩
        · cases hr
          cases hready

/-! ## The template loop -/

theorem haveKeyImages_false {ks : List KeyImage} (hkeys : ∀ x ∈ ins, x.isToKey = true)
    (h : haveKeyImages ks ins = false) : ∀ ki ∈ ins.filterMap TxIn.keyImage?, ki ∉ ks := by
  induction ins, hkeys using TxIn.toKey_induction with
  | nil => simp
  | cons amount offsets ki rest _ _ ih =>
    simp only [haveKeyImages] at h
    split at h
    · cases h
    · rename_i hfresh
      rintro k hk
      rcases mem_cons.mp hk with rfl | hk
      · exact hfresh
      · exact ih h k hk

theorem subset_appendKeyImages (ks : List KeyImage) (ins : List TxIn) :
    ks ⊆ appendKeyImages ks ins := by
  induction ins generalizing ks with
  | nil => exact List.Subset.refl _
  | cons x rest ih =>
    cases x with
    | toKey amount offsets ki =>
      simp only [appendKeyImages]
      split
      · exact List.Subset.refl _
      · exact List.Subset.trans (subset_cons_self ki ks) (ih (ki :: ks))
    | gen | toScript | toScripthash => exact List.Subset.refl _

/-- A transaction that repeats no key image has all of them recorded. -/
theorem mem_appendKeyImages {ks : List KeyImage} (hkeys : ∀ x ∈ ins, x.isToKey = true)
    (hnodup : (ins.filterMap TxIn.keyImage?).Nodup)
    (hfresh : ∀ ki ∈ ins.filterMap TxIn.keyImage?, ki ∉ ks) :
    ∀ ki ∈ ins.filterMap TxIn.keyImage?, ki ∈ appendKeyImages ks ins := by
  induction ins, hkeys using TxIn.toKey_induction generalizing ks with
  | nil => simp
  | cons amount offsets ki rest _ _ ih =>
    rcases nodup_cons.mp hnodup with ⟨hnew, hrest⟩
    simp only [appendKeyImages, if_neg (hfresh ki (mem_cons_self ..))]
    rintro k hk
    rcases mem_cons.mp hk with rfl | hk
    · exact subset_appendKeyImages _ rest (mem_cons_self ..)
    · refine ih hrest (fun k' hk' hmem => ?_) k hk
      rcases mem_cons.mp hmem with rfl | hmem
      · exact hnew hk'
      · exact hfresh k' (mem_cons_of_mem _ hk') hmem

/-- A pool transaction spends a key image. -/
def Spends (E : Externals) (p : TxPool) (id : Hash) (ki : KeyImage) : Prop :=
  ∃ tx, p.readTx E id = some tx ∧ ki ∈ tx.keyImages

/-- No transaction read from the blob repeats a key image. -/
def NoRepeat (E : Externals) (blob : Blob) : Prop :=
  ∀ tx, E.parseTx blob = some tx → tx.keyImages.Nodup

/-- The loop over a pool `p` with `rest` still to come. Only transactions whose answer was cached
    when the loop began can conflict with one another. -/
structure Apart (E : Externals) (p : TxPool) (rest : List Hash) (f : Filling) : Prop where
  same : ∀ id, f.pool.readTx E id = p.readTx E id
  cache : ∀ id ∈ rest, id ∈ f.pool.inputCache → id ∈ p.inputCache
  seen : ∀ id ∈ f.txHashes, id ∉ p.inputCache → ∀ ki, Spends E p id ki → ki ∈ f.kImages
  apart : ∀ x ∈ f.txHashes, ∀ y ∈ f.txHashes, x ≠ y → x ∉ p.inputCache → y ∉ p.inputCache →
    ∀ ki, Spends E p x ki → ¬Spends E p y ki

variable {rest : List Hash} {f : Filling}

/-- An entry that is passed over. -/
theorem Apart.skip {pool : TxPool} {f' : Filling} (h : Apart E p (id :: rest) f)
    (hfresh : id ∉ rest) (hsame : ∀ id', pool.readTx E id' = f.pool.readTx E id')
    (hcache : ∀ id' ∈ pool.inputCache, id' = id ∨ id' ∈ f.pool.inputCache) (hpool : f'.pool = pool)
    (hhashes : f'.txHashes = f.txHashes) (himages : f'.kImages = f.kImages) :
    Apart E p rest f' := by
  refine ⟨fun id' => ?_, fun id' hid' hmem => ?_, ?_, ?_⟩
  · rw [hpool, hsame, h.same]
  · rw [hpool] at hmem
    rcases hcache id' hmem with rfl | hmem
    · exact absurd hid' hfresh
    · exact h.cache id' (mem_cons_of_mem _ hid') hmem
  · rw [hhashes, himages]
    exact h.seen
  · rw [hhashes]
    exact h.apart

/-- A transaction that is appended is compared with the ones before it, unless its answer was
    cached. -/
theorem Apart.append {f' : Filling} (id : Hash) (tx : Transaction) (h : Apart E p rest f)
    (hparsed : id ∉ p.inputCache → p.readTx E id = some tx ∧
      (∀ x ∈ tx.vin, x.isToKey = true) ∧ tx.keyImages.Nodup)
    (hnew : haveKeyImages f.kImages tx.vin = false) (hpool : f'.pool = f.pool)
    (hhashes : f'.txHashes = f.txHashes ++ [id])
    (himages : f'.kImages = appendKeyImages f.kImages tx.vin) : Apart E p rest f' := by
  -- What the new transaction spends was not seen before, and is now.
  have hfresh : id ∉ p.inputCache → ∀ ki, Spends E p id ki →
      ki ∉ f.kImages ∧ ki ∈ appendKeyImages f.kImages tx.vin := by
    rintro hcached ki ⟨tx', hread, hki⟩
    rcases hparsed hcached with ⟨htx, hkeys, hnodup⟩
    rw [htx, some.injEq] at hread
    subst hread
    have hunseen := haveKeyImages_false hkeys hnew
    exact ⟨hunseen ki hki, mem_appendKeyImages hkeys hnodup hunseen ki hki⟩
  refine ⟨fun id' => by rw [hpool, h.same], by rw [hpool]; exact h.cache, ?_, ?_⟩
  · rw [hhashes, himages]
    intro x hx hcached ki hspends
    rcases mem_append.mp hx with hxOld | hxNew
    · exact subset_appendKeyImages _ _ (h.seen x hxOld hcached ki hspends)
    · rw [mem_singleton.mp hxNew] at hcached hspends
      exact (hfresh hcached ki hspends).2
  · rw [hhashes]
    intro x hx y hy hne hcachedx hcachedy ki hspendsx hspendsy
    rcases mem_append.mp hx with hxOld | hxNew
    · rcases mem_append.mp hy with hyOld | hyNew
      · exact h.apart x hxOld y hyOld hne hcachedx hcachedy ki hspendsx hspendsy
      · rw [mem_singleton.mp hyNew] at hcachedy hspendsy
        exact (hfresh hcachedy ki hspendsy).1 (h.seen x hxOld hcachedx ki hspendsx)
    · rw [mem_singleton.mp hxNew] at hcachedx hspendsx hne
      rcases mem_append.mp hy with hyOld | hyNew
      · exact (hfresh hcachedx ki hspendsx).1 (h.seen y hyOld hcachedy ki hspendsy)
      · exact hne (mem_singleton.mp hyNew).symm

/-- One turn of the loop. -/
theorem fillReady_apart {m : TxMeta} (coinbase : UInt64) (h : Apart E p (id :: rest) f)
    (hfresh : id ∉ rest) (hlookup : f.pool.txpool.lookup id = some (m, blob))
    (hclean : ∀ tx, p.readTx E id = some tx → tx.keyImages.Nodup) :
    Apart E p rest (fillReady E v f id m blob coinbase) := by
  simp only [fillReady]
  split
  · exact h.skip hfresh (fun _ => rfl) (fun _ => Or.inr) rfl rfl rfl
  · rename_i r pool hready
    have hchecked := isTransactionReadyToGo_checked hready
    set pool' := if r.txd = m then pool else pool.updateMeta id r.txd with hpool'
    have hsame : ∀ id', pool'.readTx E id' = f.pool.readTx E id' := by
      intro id'
      have hpool : pool.readTx E id' = f.pool.readTx E id' := by rw [readTx, hchecked.table]; rfl
      rw [hpool']
      split
      · exact hpool
      · rw [updateMeta_readTx, hpool]
    have hcache : ∀ id' ∈ pool'.inputCache, id' = id ∨ id' ∈ f.pool.inputCache := by
      rw [hpool']
      split
      · exact hchecked.cache
      · rw [updateMeta_inputCache]
        exact hchecked.cache
    have hskip : Apart E p rest { f with coinbase, pool := pool' } :=
      h.skip hfresh hsame hcache rfl rfl rfl
    split
    · exact hskip
    · rename_i hisReady
      split
      · exact hskip
      · rename_i hnew
        refine hskip.append id r.tx (fun hcached => ?_) (by simpa using hnew) rfl rfl rfl
        have huncached : id ∉ f.pool.inputCache :=
          fun hmem => hcached (h.cache id (mem_cons_self ..) hmem)
        rcases hchecked.parsed (by simpa using hisReady) huncached with ⟨hparse, hkeys⟩
        have hread : p.readTx E id = some r.tx := by
          rw [← h.same, readTx, hlookup]
          exact hparse
        exact ⟨hread, hkeys, hclean r.tx hread⟩

/-- Uncached transactions in a template do not conflict. -/
theorem fillBlockTemplate_apart {a : TemplateArgs} (h : Kept (NoRepeat E) p)
    (hfill : p.fillBlockTemplate E v a = some f) : Apart E p [] f := by
  rcases map_eq_some_iff.mp hfill with ⟨best, -, rfl⟩
  refine (fillLoop_rec (P := fun ids f => ids.Nodup ∧ Apart E p ids f) ?_ ?_
    ⟨h.nodup, fun _ => rfl, fun _ _ hmem => hmem, by simp, by simp⟩).2
  · intro id rest f hf
    rcases nodup_cons.mp hf.1 with ⟨hfresh, hrest⟩
    exact ⟨hrest, hf.2.skip hfresh (fun _ => rfl) (fun _ => Or.inr) rfl rfl rfl⟩
  · intro id rest f m blob coinbase hlookup hf
    rcases nodup_cons.mp hf.1 with ⟨hfresh, hrest⟩
    refine ⟨hrest, fillReady_apart coinbase hf.2 hfresh hlookup fun tx hread => ?_⟩
    rcases bind_eq_some_iff.mp hread with ⟨e, he, hparse⟩
    exact h.blobs id e.1 e.2 he tx hparse

/-! ## Runs of the pool -/

/-- What callers of `add_tx` promise: the blob is that of the transaction, and a version is given
    as verified only when the rules that need no chain have passed. -/
structure Honest (E : Externals) (c : AddTxCall) : Prop where
  blob : ∀ tx, E.parseTx c.blob = some tx → tx.vin = c.tx.vin
  verified : c.version = c.nicVerifiedHfVersion →
    ∃ tvc version, (verNonInputConsensus E [c.tx] tvc version).1 = true

/-- One operation on the pool of a node. A block that is added or removed gives the chain another
    view and clears the caches. -/
inductive PoolStep (E : Externals) : TxPool × ChainView → TxPool × ChainView → Prop
  | addTx (p : TxPool) (v : ChainView) (c : AddTxCall) (now : UInt64) (tvc : Tvc) : Honest E c →
      PoolStep E (p, v) ((p.addTx E v c now tvc).2.2, v)
  | takeTx (p p' : TxPool) (v : ChainView) (id : Hash) (t : TakenTx) :
      p.takeTx E id = some (t, p') → PoolStep E (p, v) (p', v)
  | block (p : TxPool) (v v' : ChainView) : PoolStep E (p, v) (p.onBlockchainChange, v')
  | validate (p : TxPool) (v : ChainView) (version : UInt8) (now : UInt64) : version ≠ 0 →
      PoolStep E (p, v) (p.validate E v version now, v)
  | template (p : TxPool) (v : ChainView) (a : TemplateArgs) (f : Filling) :
      p.fillBlockTemplate E v a = some f → PoolStep E (p, v) (f.pool, v)
  -- The operations are dated by a clock that may show anything.
  | clock (p : TxPool) (v : ChainView) (c : Clock) : PoolStep E (p, v) ({ p with clock := c }, v)

theorem Honest.noRepeat {c : AddTxCall} (h : Honest E c) (hnic : (nicVerified E c tvc).1 = true) :
    NoRepeat E c.blob := by
  intro tx hparse
  rw [Transaction.keyImages, h.blob tx hparse]
  exact (nicVerified_ok h.verified hnic).2.2

/-- Every operation keeps the invariant of the pool. -/
theorem poolStep_kept (E : Externals) : Preserves (PoolStep E) fun s => Kept (NoRepeat E) s.1 := by
  intro s t h hstep
  cases hstep with
  | addTx p v c now tvc hhonest => exact addTx_kept h E v c now tvc hhonest.noRepeat
  | takeTx p p' v id t htake => exact (takeTx_kept h htake).1
  | block p v v' => exact h.congr rfl rfl
  | validate p v version now hversion =>
    exact foldlRecOn _ _ (h.congr rfl rfl) fun _ hp e _ =>
      revalidate_kept hp E v version now hversion e
  | template p v a f hfill =>
    exact fillBlockTemplate_preserves (fun _ _ hq => hq.congr rfl rfl)
      (fun _ id _ m' _ hq _ _ => hq.updateMeta id m') h hfill
  | clock p v c => exact h.congr rfl rfl

/-- A pool with nothing in it, under any configuration. -/
def unused (txpoolMaxWeight : UInt64) (mineStemTxes : Bool) : TxPool :=
  { empty with txpoolMaxWeight, mineStemTxes }

/-- Two transactions of a template spend the same key image only if one of them had the answer of
    its input checks in the cache when the template was asked for. -/
theorem fillBlockTemplate_conflict (E : Externals) (p : TxPool) (v₀ v : ChainView)
    (maxWeight : UInt64) (mineStemTxes : Bool) (a : TemplateArgs) (f : Filling) (x y : Hash)
    (ki : KeyImage) (hrun : Run (PoolStep E) (unused maxWeight mineStemTxes, v₀) (p, v))
    (hfill : p.fillBlockTemplate E v a = some f) (hx : x ∈ f.txHashes) (hy : y ∈ f.txHashes)
    (hne : x ≠ y) (hspendsx : Spends E p x ki) (hspendsy : Spends E p y ki) :
    x ∈ p.inputCache ∨ y ∈ p.inputCache := by
  have hstart : Kept (NoRepeat E) (unused maxWeight mineStemTxes) :=
    ⟨nodup_nil, fun id m blob hlookup => by cases hlookup⟩
  have hkept : Kept (NoRepeat E) p := (poolStep_kept E).run hrun hstart
  by_contra hcached
  rw [not_or] at hcached
  exact (fillBlockTemplate_apart hkept hfill).apart x hx y hy hne hcached.1 hcached.2 ki hspendsx
    hspendsy

/-! ## A relayed transaction and one from a block -/

/-- A chain of one block, at version 12. -/
def shortView : ChainView where
  db :=
    { blocks := [
        { block := { majorVersion := 12, minorVersion := 12, timestamp := 0, prevId := nullHash
                     nonce := 0, minerTx := {}, txHashes := [] }
          hash := 1, minerTxHash := 1, txs := [], weight := 0, longTermWeight := 0
          cumulativeDifficulty := 1, coins := 0 }]
      hfVersions := fun _ => none
      altBlocks := ∅
      ids_nodup := nodup_singleton _
      linked := isChain_singleton _ }
  version := 12
  hashCheckSize := 0

/-- A sample transaction offered to the pool. -/
def sampleCall (blob : Blob) (txRelay : RelayMethod) : AddTxCall :=
  { tx := sampleTx blob, id := Externals.sample.txHash (sampleTx blob), blob, txWeight := 2, txRelay
    relayed := true, version := 12 }

theorem sampleCall_honest (blob : Blob) (txRelay : RelayMethod) :
    Honest .sample (sampleCall blob txRelay) :=
  ⟨fun _ hparse => by cases hparse; rfl,
    fun hversion => absurd hversion (show (12 : UInt8) ≠ 0 by decide)⟩

/-- One transaction was relayed, and one with the same key image came with a block that is not on
    the main chain. -/
def conflictPool : TxPool :=
  ((((unused 648000000 false).addTx .sample shortView (sampleCall [7, 1] .fluff) 10 {}).2.2).addTx
    .sample shortView (sampleCall [8, 1] .block) 10 {}).2.2

theorem conflictPool_run :
    Run (PoolStep .sample) (unused 648000000 false, shortView) (conflictPool, shortView) :=
  (Relation.ReflTransGen.single (PoolStep.addTx _ _ _ 10 {} (sampleCall_honest [7, 1] .fluff))).tail
    (PoolStep.addTx _ _ _ 10 {} (sampleCall_honest [8, 1] .block))

/-- What a template takes from the two transactions, late in the emission. -/
def conflictFilling : Option Filling :=
  conflictPool.fillBlockTemplate .sample shortView ⟨300000, 18446744072709551615, 12⟩

theorem conflictFilling_hashes : conflictFilling.map Filling.txHashes =
      some [(sampleCall [7, 1] .fluff).id, (sampleCall [8, 1] .block).id] := by
  decide +kernel

theorem conflictPool_spends (blob : Blob) (txRelay : RelayMethod)
    (h : (conflictPool.readTx .sample (sampleCall blob txRelay).id).any fun tx =>
      1 ∈ tx.keyImages) :
    Spends .sample conflictPool (sampleCall blob txRelay).id 1 := by
  rcases any_eq_true _ _ |>.mp h with ⟨tx, hread, hmem⟩
  exact ⟨tx, hread, by simpa using hmem⟩

/-- The template takes both. -/
theorem fillBlockTemplate_takes_both :
    ∃ (E : Externals) (p : TxPool) (v₀ v : ChainView) (maxWeight : UInt64) (mineStemTxes : Bool)
      (a : TemplateArgs) (f : Filling) (x y : Hash) (ki : KeyImage),
      Run (PoolStep E) (unused maxWeight mineStemTxes, v₀) (p, v) ∧
        p.fillBlockTemplate E v a = some f ∧ x ∈ f.txHashes ∧ y ∈ f.txHashes ∧ x ≠ y ∧
        Spends E p x ki ∧ Spends E p y ki := by
  rcases map_eq_some_iff.mp conflictFilling_hashes with ⟨f, hfill, hhashes⟩
  exact ⟨.sample, conflictPool, shortView, shortView, _, _, _, f, (sampleCall [7, 1] .fluff).id,
    (sampleCall [8, 1] .block).id, 1, conflictPool_run, hfill, by simp [hhashes],
    by simp [hhashes], by decide +kernel, conflictPool_spends [7, 1] .fluff (by decide +kernel),
    conflictPool_spends [8, 1] .block (by decide +kernel)⟩

/-- The relayed one had its answer cached when it was added. -/
theorem conflictPool_cached : (sampleCall [7, 1] .fluff).id ∈ conflictPool.inputCache ∨
      (sampleCall [8, 1] .block).id ∈ conflictPool.inputCache := by
  rcases map_eq_some_iff.mp conflictFilling_hashes with ⟨f, hfill, hhashes⟩
  exact fillBlockTemplate_conflict .sample conflictPool shortView shortView _ _ _ f
    (sampleCall [7, 1] .fluff).id (sampleCall [8, 1] .block).id 1 conflictPool_run hfill
    (by simp [hhashes]) (by simp [hhashes]) (by decide +kernel)
    (conflictPool_spends [7, 1] .fluff (by decide +kernel))
    (conflictPool_spends [8, 1] .block (by decide +kernel))

end TxPool

end CocaineNode
