import CocaineNode.Lib.ReverseIndex
import CocaineNode.Theory.PoolEntries
import Mathlib.Algebra.BigOperators.Group.List.Basic

/-!
# The Indexes of the Pool

The pool keeps, beside its table, which transactions spend a key image, the
transactions in the order of their fees, and the sum of their weights. Each
operation updates these in its own order and with its own early returns.
`Exact` says that they describe the table, and every operation keeps it.

Two facts about the table go with it. The blob of an entry has the inputs that
belong to its id, so the key images that are taken out when it leaves are those
that were entered when it came. And no two transactions that are not kept by a
block share a key image, so `insert_key_images` never stops halfway: it enters
all images of a transaction, or it refuses the first one and changes nothing.

## Theorems

* `TxPool.storeTx_taken`: A transaction comes.
* `TxPool.addTx_exact`, `TxPool.validate_exact`, `TxPool.setRelayed_exact`,
  `TxPool.removeStuckTransactions_exact`: The operations keep the indexes exact.
-/

namespace CocaineNode

open List AList

namespace TxPool

open Transition ReverseIndex

/-! ## Inputs -/

/-- The key images that inputs spend. -/
def imagesOf (vin : List TxIn) : List KeyImage :=
  vin.filterMap TxIn.keyImage?

/-- Inputs as the rules that need no chain leave them: some, all of them spend a key image, and
    none twice. -/
structure Spendable (vin : List TxIn) : Prop where
  ne_nil : vin ≠ []
  toKey : ∀ x ∈ vin, x.isToKey = true
  nodup : (imagesOf vin).Nodup

/-! ## The index of key images -/

/-- The ids under a key image. -/
abbrev spenders (p : TxPool) (ki : KeyImage) : List Hash :=
  find p.spentKeyImages ki

theorem spenders_withSpentKeyImages (p : TxPool) (t : AList fun _ : KeyImage => List Hash)
    (ki : KeyImage) : (p.withSpentKeyImages t).spenders ki = find t ki := rfl

/-- One image of `insert_key_images`. -/
theorem insertKeyImages_toKey (p : TxPool) (id : Hash) (txRelay : RelayMethod) (amount : UInt64)
    (offsets : List UInt64) (ki : KeyImage) (rest : List TxIn) :
    p.insertKeyImages id txRelay (.toKey amount offsets ki :: rest) =
      if decide (txRelay ≠ .block) && !(decide (p.spenders ki = []) ||
          decide (p.spenders ki = [id])) then
        (false, p.withSpentKeyImages (p.spentKeyImages.insert ki (p.spenders ki)))
      else if decide (id ∈ p.spenders ki) && p.txMatchesCategory id .legacy then
        (false, p.withSpentKeyImages (add p.spentKeyImages ki id))
      else (p.withSpentKeyImages (add p.spentKeyImages ki id)).insertKeyImages id
        txRelay rest := rfl

theorem eq_nil_or_singleton {α : Type} {l : List α} {a : α} (hnodup : l.Nodup)
    (h : ∀ x ∈ l, x = a) : l = [] ∨ l = [a] := by
  obtain ⟨n, rfl⟩ : ∃ n, l = replicate n a := ⟨_, eq_replicate_of_mem h⟩
  rcases Nat.le_one_iff_eq_zero_or_eq_one.mp (nodup_replicate.mp hnodup) with rfl | rfl
  · exact Or.inl rfl
  · exact Or.inr rfl

variable {p : TxPool} {id : Hash}

/-- An image is entered when no other transaction is in the way, and the transaction is not one
    that is public already. -/
theorem insertKeyImages_cons {txRelay : RelayMethod} {amount : UInt64} {offsets : List UInt64}
    {ki : KeyImage} {rest : List TxIn} (hwf : WellFormed p.spentKeyImages)
    (hset : txRelay = .block ∨ ∀ x ∈ p.spenders ki, x = id)
    (hnew : p.txMatchesCategory id .legacy = false ∨ id ∉ p.spenders ki) :
    p.insertKeyImages id txRelay (.toKey amount offsets ki :: rest) =
      (p.withSpentKeyImages (add p.spentKeyImages ki id)).insertKeyImages id txRelay rest := by
  have hone : (decide (txRelay ≠ .block) && !(decide (p.spenders ki = []) ||
      decide (p.spenders ki = [id]))) = false := by
    rcases hset with rfl | hset
    · rfl
    · rcases eq_nil_or_singleton (hwf.find_nodup ki) hset with hlist | hlist <;> simp [hlist]
  have hfresh : (decide (id ∈ p.spenders ki) && p.txMatchesCategory id .legacy) = false := by
    rcases hnew with hnew | hnew
    · rw [hnew, Bool.and_false]
    · rw [decide_eq_false hnew, Bool.false_and]
  rw [insertKeyImages_toKey, hone, hfresh]
  rfl

variable {vin : List TxIn}

/-- When the key images of a transaction are entered. -/
theorem insertKeyImages_accepted {txRelay : RelayMethod} (hkeys : ∀ x ∈ vin, x.isToKey = true)
    (hwf : WellFormed p.spentKeyImages)
    (hset : txRelay = .block ∨ ∀ ki ∈ imagesOf vin, ∀ x ∈ p.spenders ki, x = id)
    (hnew : p.txMatchesCategory id .legacy = false ∨ (imagesOf vin).Nodup ∧ ∀ ki ∈ imagesOf vin,
      id ∉ p.spenders ki) :
    (p.insertKeyImages id txRelay vin).1 = true ∧
      WellFormed (p.insertKeyImages id txRelay vin).2.spentKeyImages ∧
      ∀ ki x, x ∈ (p.insertKeyImages id txRelay vin).2.spenders ki ↔
        x ∈ p.spenders ki ∨ x = id ∧ ki ∈ imagesOf vin := by
  induction vin, hkeys using TxIn.toKey_induction generalizing p with
  | nil => exact ⟨rfl, hwf, fun ki x => by simp [imagesOf, insertKeyImages]⟩
  | cons amount offsets ki rest _ _ ih =>
    have himages : imagesOf (.toKey amount offsets ki :: rest) = ki :: imagesOf rest := rfl
    rw [himages] at hset hnew ⊢
    rw [insertKeyImages_cons hwf (hset.imp_right fun h => h ki mem_cons_self)
      (hnew.imp_right fun h => h.2 ki mem_cons_self)]
    have hadd := mem_find_add p.spentKeyImages ki id
    have hset' : txRelay = .block ∨ ∀ k ∈ imagesOf rest,
        ∀ x ∈ find (add p.spentKeyImages ki id) k, x = id := by
      refine hset.imp_right fun h k hk x hx => ?_
      rcases (hadd k x).mp hx with hx | ⟨_, rfl⟩
      · exact h k (mem_cons_of_mem ki hk) x hx
      · rfl
    have hnew' : p.txMatchesCategory id .legacy = false ∨ (imagesOf rest).Nodup ∧
        ∀ k ∈ imagesOf rest, id ∉ find (add p.spentKeyImages ki id) k := by
      refine hnew.imp_right fun h => ⟨(nodup_cons.mp h.1).2, fun k hk hin => ?_⟩
      rcases (hadd k id).mp hin with hin | ⟨rfl, _⟩
      · exact h.2 k (mem_cons_of_mem ki hk) hin
      · exact (nodup_cons.mp h.1).1 hk
    rcases ih (p := p.withSpentKeyImages (add p.spentKeyImages ki id)) (hwf.add ki id) hset' hnew'
      with ⟨hok, hwf', hmem⟩
    refine ⟨hok, hwf', fun k x => ?_⟩
    rw [hmem, spenders_withSpentKeyImages, hadd, mem_cons, or_assoc, and_comm (a := k = ki),
      and_or_left]

/-- A transaction that is public already has its key images refused, and nothing changes. -/
theorem insertKeyImages_refused (txRelay : RelayMethod) (hwf : WellFormed p.spentKeyImages)
    (hvin : Spendable vin) (hlegacy : p.txMatchesCategory id .legacy = true)
    (hin : ∀ ki ∈ imagesOf vin, id ∈ p.spenders ki) :
    (p.insertKeyImages id txRelay vin).1 = false ∧
      WellFormed (p.insertKeyImages id txRelay vin).2.spentKeyImages ∧
      ∀ ki, (p.insertKeyImages id txRelay vin).2.spenders ki = p.spenders ki := by
  have hkeys := hvin.toKey
  induction vin, hkeys using TxIn.toKey_induction with
  | nil => exact absurd rfl hvin.ne_nil
  | cons amount offsets ki rest =>
    have hmem : id ∈ p.spenders ki := hin ki mem_cons_self
    -- The list under the first image is entered again as it was.
    have hwf' : WellFormed (p.spentKeyImages.insert ki (p.spenders ki)) :=
      hwf.insert ki (ne_nil_of_mem hmem) (hwf.find_nodup ki)
    have hsame : ∀ k, find (p.spentKeyImages.insert ki (p.spenders ki)) k = p.spenders k := by
      intro k
      rw [find_insert]
      split
      · rename_i heq
        rw [heq]
      · rfl
    have hadd : add p.spentKeyImages ki id = p.spentKeyImages.insert ki (p.spenders ki) := by
      rw [add, if_pos hmem]
    rw [insertKeyImages_toKey, hadd, hlegacy, decide_eq_true hmem]
    split
    · exact ⟨rfl, hwf', hsame⟩
    · exact ⟨rfl, hwf', hsame⟩

/-- Key images that are all there are all taken out. -/
theorem removeTransactionKeyimages_all (id : Hash) (hkeys : ∀ x ∈ vin, x.isToKey = true)
    (hwf : WellFormed p.spentKeyImages) (hnodup : (imagesOf vin).Nodup)
    (hin : ∀ ki ∈ imagesOf vin, id ∈ p.spenders ki) :
    WellFormed (p.removeTransactionKeyimages id vin).spentKeyImages ∧
      ∀ ki x, x ∈ (p.removeTransactionKeyimages id vin).spenders ki ↔
        x ∈ p.spenders ki ∧ ¬ (x = id ∧ ki ∈ imagesOf vin) := by
  induction vin, hkeys using TxIn.toKey_induction generalizing p with
  | nil => exact ⟨hwf, fun ki x => by simp [imagesOf, removeTransactionKeyimages]⟩
  | cons amount offsets ki rest _ _ ih =>
    have himages : imagesOf (.toKey amount offsets ki :: rest) = ki :: imagesOf rest := rfl
    rw [himages] at hnodup hin ⊢
    rcases nodup_cons.mp hnodup with ⟨hki, hrest⟩
    have hmem : id ∈ p.spenders ki := hin ki mem_cons_self
    have hone : p.removeTransactionKeyimages id (.toKey amount offsets ki :: rest) =
        (p.withSpentKeyImages (remove p.spentKeyImages ki id)).removeTransactionKeyimages id
          rest := by
      cases hlookup : p.spentKeyImages.lookup ki with
      | none =>
        rw [spenders, find, hlookup] at hmem
        cases hmem
      | some set =>
        have hset := find_of_lookup hlookup
        rw [spenders, hset] at hmem
        simp only [removeTransactionKeyimages, hlookup, if_pos hmem, remove, hset]
    have hremove := mem_find_remove hwf ki id
    have hin' : ∀ k ∈ imagesOf rest, id ∈ find (remove p.spentKeyImages ki id) k := by
      intro k hk
      refine (hremove k id).mpr ⟨hin k (mem_cons_of_mem ki hk), fun h => ?_⟩
      rw [h.1] at hk
      exact hki hk
    rw [hone]
    rcases ih (p := p.withSpentKeyImages (remove p.spentKeyImages ki id)) (hwf.remove ki id) hrest
      hin' with ⟨hwf', hmem'⟩
    refine ⟨hwf', fun k x => ?_⟩
    rw [hmem', spenders_withSpentKeyImages, hremove, mem_cons, and_assoc,
      and_comm (a := k = ki), and_or_left, not_or]

/-! ## The sorted container -/

/-- The ids in the sorted container. -/
abbrev sortedIds (p : TxPool) : List Hash :=
  p.txsByFeeAndReceiveTime.map SortedTx.txid

theorem mem_eraseSorted (p : TxPool) (id x : Hash) :
    x ∈ (p.eraseSorted id).sortedIds ↔ x ∈ p.sortedIds ∧ x ≠ id := by
  simp only [sortedIds, eraseSorted, mem_map, mem_filter, decide_eq_true_eq]
  constructor
  · intro h
    rcases h with ⟨e, ⟨he, hne⟩, rfl⟩
    exact ⟨⟨e, he, rfl⟩, hne⟩
  · intro h
    rcases h with ⟨⟨e, he, rfl⟩, hne⟩
    exact ⟨e, ⟨he, hne⟩, rfl⟩

theorem mem_addSorted (p : TxPool) (e : SortedTx) (x : Hash) :
    x ∈ (p.addSorted e).sortedIds ↔ x ∈ p.sortedIds ∨ x = e.txid := by
  unfold addSorted
  split
  · rename_i hany
    refine ⟨Or.inl, fun h => ?_⟩
    rcases h with h | rfl
    · exact h
    · rcases any_eq_true.mp hany with ⟨f, hf, heq⟩
      exact mem_map.mpr ⟨f, hf, by simpa using heq⟩
  · have hperm := (insertSorted_perm e p.txsByFeeAndReceiveTime).map SortedTx.txid
    rw [hperm.mem_iff, map_cons, mem_cons, or_comm]

/-- A transaction that is moved in the sorted container stays in it. -/
theorem mem_addTxToTransientLists (p : TxPool) (id : Hash) (feeRate receiveTime : UInt64)
    (x : Hash) : x ∈ (p.addTxToTransientLists id feeRate receiveTime).sortedIds ↔
      x ∈ p.sortedIds ∨ x = id := by
  change x ∈ ((if id ∈ p.addedTxsById then p.eraseSorted id else p).addSorted
    ⟨feeRate, receiveTime, id⟩).sortedIds ↔ _
  rw [mem_addSorted]
  split
  · rw [mem_eraseSorted]
    tauto
  · rfl

/-! ## What the indexes say -/

variable {E : Externals} {vinOf : Hash → List TxIn} {weightOf : Hash → UInt64}

/-- The blob of a transaction: its prefix can be read, and whatever is read from it has the inputs
    that belong to the id. -/
structure BlobOf (E : Externals) (vinOf : Hash → List TxIn) (id : Hash) (blob : Blob) : Prop where
  readable : (E.parseTxPrefix blob).isSome
  fromPrefix : ∀ tx, E.parseTxPrefix blob = some tx → tx.vin = vinOf id
  fromBase : ∀ tx, E.parseTxBase blob = some tx → tx.vin = vinOf id
  fromAll : ∀ tx, E.parseTx blob = some tx → tx.vin = vinOf id

/-- A transaction of the table that is not kept by a block. -/
def FreeIn (t : AList fun _ : Hash => TxMeta × Blob) (id : Hash) : Prop :=
  ∃ m blob, t.lookup id = some (m, blob) ∧ m.relay ≠ .block

/-- The table holds transactions with the inputs and the weight that belong to their ids, and no
    two that are not kept by a block spend one key image. -/
structure Entries (E : Externals) (vinOf : Hash → List TxIn) (weightOf : Hash → UInt64)
    (t : AList fun _ : Hash => TxMeta × Blob) : Prop where
  weights : ∀ id m blob, t.lookup id = some (m, blob) → m.weight = weightOf id
  blobs : ∀ id m blob, t.lookup id = some (m, blob) → BlobOf E vinOf id blob
  inputs : ∀ id ∈ t, Spendable (vinOf id)
  single : ∀ ki x y, FreeIn t x → FreeIn t y → ki ∈ imagesOf (vinOf x) →
    ki ∈ imagesOf (vinOf y) → x = y

/-- The sum of the weights in the table. -/
def total (weightOf : Hash → UInt64) (t : AList fun _ : Hash => TxMeta × Blob) : Nat :=
  (t.keys.map fun id => (weightOf id).toNat).sum

/-- The table is in order, the index of key images describes the transactions with some ids, the
    sorted container holds some ids, each of them once, and the pool has a weight. -/
structure Described (E : Externals) (vinOf : Hash → List TxIn) (weightOf : Hash → UInt64)
    (ids listed : Hash → Prop) (weight : Nat) (p : TxPool) : Prop where
  entries : Entries E vinOf weightOf p.txpool
  cached : ∀ id tx, p.parsedTxCache.lookup id = some tx → tx.vin = vinOf id
  wellFormed : WellFormed p.spentKeyImages
  spent : ∀ ki id, id ∈ p.spenders ki ↔ ids id ∧ ki ∈ imagesOf (vinOf id)
  nodup : p.sortedIds.Nodup
  sorted : ∀ id, id ∈ p.sortedIds ↔ listed id
  weighed : p.txpoolWeight.toNat = weight

/-- As `Exact`, for a pool whose sorted container is ahead of its table or behind it. -/
def Pending (E : Externals) (vinOf : Hash → List TxIn) (weightOf : Hash → UInt64)
    (listed : Hash → Prop) (p : TxPool) : Prop :=
  Described E vinOf weightOf (· ∈ p.txpool) listed (total weightOf p.txpool) p

/-- The indexes describe the table. -/
def Exact (E : Externals) (vinOf : Hash → List TxIn) (weightOf : Hash → UInt64) (p : TxPool) :
    Prop :=
  Pending E vinOf weightOf (· ∈ p.txpool) p

variable {t : AList fun _ : Hash => TxMeta × Blob} {id : Hash}

theorem mem_of_lookup {e : TxMeta × Blob} (h : t.lookup id = some e) : id ∈ t :=
  lookup_isSome.mp (by rw [h]; rfl)

/-- A table with fewer entries. -/
theorem Entries.of_lookup {t' : AList fun _ : Hash => TxMeta × Blob}
    (h : Entries E vinOf weightOf t) (hsub : ∀ id e, t'.lookup id = some e → t.lookup id = some e) :
    Entries E vinOf weightOf t' := by
  have hfree : ∀ x, FreeIn t' x → FreeIn t x := by
    intro x hx
    rcases hx with ⟨m, blob, hlookup, hrelay⟩
    exact ⟨m, blob, hsub x _ hlookup, hrelay⟩
  refine ⟨?_, ?_, ?_, ?_⟩
  · intro id m blob hlookup
    exact h.weights id m blob (hsub id _ hlookup)
  · intro id m blob hlookup
    exact h.blobs id m blob (hsub id _ hlookup)
  · intro id hid
    rcases Option.isSome_iff_exists.mp (lookup_isSome.mpr hid) with ⟨e, he⟩
    exact h.inputs id (mem_of_lookup (hsub id e he))
  · intro ki x y hx hy
    exact h.single ki x y (hfree x hx) (hfree y hy)

theorem Entries.erase (h : Entries E vinOf weightOf t) (id : Hash) :
    Entries E vinOf weightOf (t.erase id) :=
  h.of_lookup fun _ _ hlookup => lookup_of_erase hlookup

variable {m : TxMeta}

/-- A table with one entry more, or another one under the same id. -/
theorem Entries.insert (h : Entries E vinOf weightOf t) {blob : Blob}
    (hweight : m.weight = weightOf id) (hblob : BlobOf E vinOf id blob)
    (hinputs : Spendable (vinOf id))
    (hfree : m.relay = .block ∨ ∀ ki ∈ imagesOf (vinOf id), ∀ x, FreeIn t x →
      ki ∈ imagesOf (vinOf x) → x = id) :
    Entries E vinOf weightOf (t.insert id (m, blob)) := by
  refine ⟨?_, ?_, ?_, ?_⟩
  · intro x m' blob' hlookup
    rcases lookup_of_insert hlookup with ⟨rfl, heq⟩ | ⟨-, hold⟩
    · cases heq
      exact hweight
    · exact h.weights x m' blob' hold
  · intro x m' blob' hlookup
    rcases lookup_of_insert hlookup with ⟨rfl, heq⟩ | ⟨-, hold⟩
    · cases heq
      exact hblob
    · exact h.blobs x m' blob' hold
  · intro x hx
    rcases (mem_insert t).mp hx with rfl | hx
    · exact hinputs
    · exact h.inputs x hx
  · -- The new entry is compared with the old ones, and those with one another.
    intro ki x y hx hy hkx hky
    rcases hx with ⟨mx, bx, hlx, hrx⟩
    rcases hy with ⟨my, bY, hly, hry⟩
    rcases lookup_of_insert hlx with ⟨rfl, heqx⟩ | ⟨-, holdx⟩
    · cases heqx
      rcases lookup_of_insert hly with ⟨rfl, _⟩ | ⟨-, holdy⟩
      · rfl
      · exact (hfree.resolve_left hrx ki hkx y ⟨my, bY, holdy, hry⟩ hky).symm
    · rcases lookup_of_insert hly with ⟨rfl, heqy⟩ | ⟨-, holdy⟩
      · cases heqy
        exact hfree.resolve_left hry ki hky x ⟨mx, bx, holdx, hrx⟩ hkx
      · exact h.single ki x y ⟨mx, bx, holdx, hrx⟩ ⟨my, bY, holdy, hry⟩ hkx hky

/-! ## Sums of weights -/

variable (weightOf)

theorem total_erase (h : id ∈ t) :
    (weightOf id).toNat + total weightOf (t.erase id) = total weightOf t := by
  unfold total
  rw [keys_erase]
  exact sum_map_erase (fun id => (weightOf id).toNat) (mem_keys.mp h)

theorem total_insert_of_mem (h : id ∈ t) (e : TxMeta × Blob) :
    total weightOf (t.insert id e) = total weightOf t := by
  unfold total
  rw [keys_insert, map_cons, sum_cons]
  exact sum_map_erase (fun id => (weightOf id).toNat) (mem_keys.mp h)

theorem total_insert_of_not_mem (h : id ∉ t) (e : TxMeta × Blob) :
    total weightOf (t.insert id e) = (weightOf id).toNat + total weightOf t := by
  unfold total
  rw [keys_insert, map_cons, sum_cons, erase_of_not_mem fun hmem => h (mem_keys.mpr hmem)]

variable {weightOf}

/-! ## Changes to the pool -/

variable {p p' : TxPool} {ids listed : Hash → Prop} {weight : Nat}

section

variable (h : Described E vinOf weightOf ids listed weight p)
include h

theorem Described.of_iff {ids' listed' : Hash → Prop} (hids : ∀ id, ids' id ↔ ids id)
    (hlisted : ∀ id, listed' id ↔ listed id) : Described E vinOf weightOf ids' listed' weight p :=
  { h with
    spent := fun ki id => by rw [hids, h.spent]
    sorted := fun id => by rw [hlisted, h.sorted] }

/-- A transaction is added to the lists, for the first time or again. -/
theorem Described.list (id : Hash) (feeRate receiveTime : UInt64) :
    Described E vinOf weightOf ids (fun x => listed x ∨ x = id) weight
      (p.addTxToTransientLists id feeRate receiveTime) := by
  have hsorted := mem_addTxToTransientLists p id feeRate receiveTime
  have hkept : Kept (fun _ => True) p := ⟨h.nodup, fun _ _ _ _ => trivial⟩
  have hnodup := (hkept.addTxToTransientLists id feeRate receiveTime).nodup
  rcases addTxToTransientLists_eq p id feeRate receiveTime with ⟨l, hl⟩
  rw [hl] at hsorted hnodup ⊢
  refine ⟨h.entries, h.cached, h.wellFormed, h.spent, hnodup, fun x => ?_, h.weighed⟩
  rw [hsorted, h.sorted]

theorem Described.addTxpoolWeight {w : UInt64} (hfits : weight + w.toNat < 2 ^ 64) :
    Described E vinOf weightOf ids listed (weight + w.toNat) (p.addTxpoolWeight w) := by
  refine ⟨h.entries, h.cached, h.wellFormed, h.spent, h.nodup, h.sorted, ?_⟩
  change (p.txpoolWeight + w).toNat = _
  rw [UInt64.toNat_add, h.weighed, Nat.mod_eq_of_lt hfits]

end

/-- Metadata may change as long as the weight stays and no transaction of a block becomes one that
    is not. -/
theorem Exact.updateMeta (h : Exact E vinOf weightOf p) (id : Hash) (m' : TxMeta)
    (hm : ∀ m blob, p.txpool.lookup id = some (m, blob) →
      m'.weight = m.weight ∧ (m'.relay ≠ .block → m.relay ≠ .block)) :
    Exact E vinOf weightOf (p.updateMeta id m') := by
  unfold TxPool.updateMeta
  split
  · rename_i m blob hlookup
    rcases hm m blob hlookup with ⟨hweight, hrelay⟩
    have hid : id ∈ p.txpool := mem_of_lookup hlookup
    have hentries : Entries E vinOf weightOf (p.txpool.insert id (m', blob)) := by
      refine h.entries.insert (hweight.trans (h.entries.weights id m blob hlookup))
        (h.entries.blobs id m blob hlookup) (h.entries.inputs id hid) ?_
      by_cases hblock : m'.relay = .block
      · exact Or.inl hblock
      · refine Or.inr fun ki hki x hx hkx => ?_
        exact h.entries.single ki x id hx ⟨m, blob, hlookup, hrelay hblock⟩ hkx hki
    have hids : ∀ x, x ∈ p.txpool.insert id (m', blob) ↔ x ∈ p.txpool := by
      intro x
      rw [mem_insert]
      refine ⟨fun hx => ?_, Or.inr⟩
      rcases hx with rfl | hx
      · exact hid
      · exact hx
    have hupdated : Described E vinOf weightOf (· ∈ p.txpool) (· ∈ p.txpool)
        (total weightOf p.txpool) (p.withTable (p.txpool.insert id (m', blob))) :=
      ⟨hentries, h.cached, h.wellFormed, h.spent, h.nodup, h.sorted, h.weighed⟩
    rw [← total_insert_of_mem weightOf hid (m', blob)] at hupdated
    exact hupdated.of_iff hids hids
  · exact h

theorem Exact.markDoubleSpend (h : Exact E vinOf weightOf p) (vin : List TxIn) :
    Exact E vinOf weightOf (p.markDoubleSpend vin) := by
  refine markDoubleSpend_rec (fun q id m blob hq hlookup => ?_) vin h
  exact hq.updateMeta id _ (forall_lookup hlookup ⟨rfl, fun hrelay => hrelay⟩)

/-! ### Transactions that leave -/

/-- The weight of a pool after a transaction of it has left. -/
theorem reduceTxpoolWeight_eq (h : p.txpoolWeight.toNat = total weightOf p.txpool)
    (hid : id ∈ p.txpool) :
    (p.reduceTxpoolWeight (weightOf id)).txpoolWeight.toNat =
      total weightOf (p.txpool.erase id) := by
  have htotal := total_erase weightOf hid
  have hle : weightOf id ≤ p.txpoolWeight := by
    rw [UInt64.le_iff_toNat_le, h, ← htotal]
    exact Nat.le_add_right _ _
  change (if weightOf id > p.txpoolWeight then 0 else p.txpoolWeight - weightOf id).toNat = _
  rw [if_neg (UInt64.not_lt.mpr hle), UInt64.toNat_sub_of_le _ _ hle, h, ← htotal]
  omega

/-- A transaction leaves the table, the key images and the weight. -/
def unindex (p : TxPool) (id : Hash) (weight : UInt64) (vin : List TxIn) : TxPool :=
  ((p.withTable (p.txpool.erase id)).reduceTxpoolWeight weight).removeTransactionKeyimages id vin

theorem unindex_fields (p : TxPool) (id : Hash) (weight : UInt64) (vin : List TxIn) :
    (p.unindex id weight vin).txpool = p.txpool.erase id ∧
      (p.unindex id weight vin).txsByFeeAndReceiveTime = p.txsByFeeAndReceiveTime ∧
      (p.unindex id weight vin).parsedTxCache = p.parsedTxCache ∧
      (p.unindex id weight vin).txpoolWeight = (p.reduceTxpoolWeight weight).txpoolWeight := by
  rcases removeTransactionKeyimages_eq p.spentKeyImages id vin with ⟨t, ht⟩
  rw [unindex, ht _ (by rfl)]
  exact ⟨rfl, rfl, rfl, rfl⟩

theorem Pending.unindex (h : Pending E vinOf weightOf listed p) (hid : id ∈ p.txpool) :
    Pending E vinOf weightOf listed (p.unindex id (weightOf id) (vinOf id)) := by
  have hvin := h.entries.inputs id hid
  rcases unindex_fields p id (weightOf id) (vinOf id) with ⟨htable, hsorted, hcache, hweight⟩
  rcases removeTransactionKeyimages_all id hvin.toKey
    (p := (p.withTable (p.txpool.erase id)).reduceTxpoolWeight (weightOf id))
    h.wellFormed hvin.nodup fun ki hki => (h.spent ki id).mpr ⟨hid, hki⟩ with ⟨hwf, hspent⟩
  rw [Pending, htable]
  refine ⟨?_, ?_, hwf, fun ki x => ?_, ?_, fun x => ?_, ?_⟩
  · rw [htable]
    exact h.entries.erase id
  · rw [hcache]
    exact h.cached
  · -- The key images of the others are all that is left.
    rw [TxPool.unindex, hspent, mem_erase]
    change x ∈ p.spenders ki ∧ _ ↔ _
    rw [h.spent]
    constructor
    · intro hx
      refine ⟨⟨fun heq => hx.2 ⟨heq, ?_⟩, hx.1.1⟩, hx.1.2⟩
      rw [← heq]
      exact hx.1.2
    · intro hx
      exact ⟨⟨hx.1.2, hx.2⟩, fun hboth => hx.1.1 hboth.1⟩
  · rw [sortedIds, hsorted]
    exact h.nodup
  · rw [sortedIds, hsorted]
    exact h.sorted x
  · rw [hweight]
    exact reduceTxpoolWeight_eq h.weighed hid

theorem Pending.unlist (h : Pending E vinOf weightOf listed p) (id : Hash) (sensitive : Bool) :
    Pending E vinOf weightOf (fun x => listed x ∧ x ≠ id)
      (p.removeTxFromTransientLists id sensitive) := by
  have hkept : Kept (fun _ => True) p := ⟨h.nodup, fun _ _ _ _ => trivial⟩
  refine ⟨h.entries, h.cached, h.wellFormed, h.spent,
    (hkept.removeTxFromTransientLists id sensitive).nodup, fun x => ?_, h.weighed⟩
  exact (mem_eraseSorted p id x).trans (and_congr_left fun _ => h.sorted x)

variable (h : Exact E vinOf weightOf p)
include h

/-- `take_tx`, `prune` and the like keep the indexes exact. -/
theorem Exact.drop {blob : Blob}
    (hlookup : p.txpool.lookup id = some (m, blob)) {vin : List TxIn} (hvin : vin = vinOf id) :
    Exact E vinOf weightOf (p.drop id m vin) := by
  have hdrop : p.drop id m vin =
      (p.unindex id (weightOf id) (vinOf id)).removeTxFromTransientLists id m.sensitive := by
    rw [hvin, ← h.entries.weights id m blob hlookup]
    rfl
  have hleft := (Pending.unindex h (mem_of_lookup hlookup)).unlist id m.sensitive
  rw [hdrop]
  refine hleft.of_iff (fun _ => Iff.rfl) fun x => Iff.symm ?_
  change _ ↔ x ∈ (p.unindex id (weightOf id) (vinOf id)).txpool
  rw [(unindex_fields p id (weightOf id) (vinOf id)).1, mem_erase]
  exact and_comm

theorem takeTx_exact {t : TakenTx} (htake : p.takeTx E id = some (t, p')) :
    Exact E vinOf weightOf p' ∧ t.tx.vin = vinOf id ∧ BlobOf E vinOf id t.blob ∧
      (weightOf id).toNat + total weightOf p'.txpool = total weightOf p.txpool := by
  rcases takeTx_some htake with ⟨m, hlookup, rfl, hsource⟩
  have hblob := h.entries.blobs id m t.blob hlookup
  have hvin : t.tx.vin = vinOf id := by
    rcases hsource with hcached | hbase | hall
    · exact h.cached id _ hcached
    · exact hblob.fromBase _ hbase
    · exact hblob.fromAll _ hall
  refine ⟨h.drop hlookup hvin, hvin, hblob, ?_⟩
  rw [drop_table]
  exact total_erase weightOf (mem_of_lookup hlookup)

theorem Exact.prune (bytes : UInt64) : Exact E vinOf weightOf (p.prune E bytes) := by
  refine prune_rec ?_ ?_ bytes h
  · intro q id m blob tx hq hlookup htx
    exact hq.drop hlookup ((hq.entries.blobs id m blob hlookup).fromPrefix tx htx)
  · -- The prefix of every blob in the pool can be read.
    intro q id m blob hq hlookup hnone
    have hreadable := (hq.entries.blobs id m blob hlookup).readable
    rw [hnone] at hreadable
    cases hreadable

/-! ### Transactions that come -/

/-- What callers of `add_tx` promise: the inputs, the weight and the blob are those that belong to
    the id, and a version is given as verified only when the rules that need no chain have passed.
    -/
structure Faithful (E : Externals) (vinOf : Hash → List TxIn) (weightOf : Hash → UInt64)
    (c : AddTxCall) : Prop where
  inputs : c.tx.vin = vinOf c.id
  weight : c.txWeight = weightOf c.id
  blob : BlobOf E vinOf c.id c.blob
  verified : c.version = c.nicVerifiedHfVersion →
    ∃ tvc version, (verNonInputConsensus E [c.tx] tvc version).1 = true

variable {c : AddTxCall} {tvc : Tvc}

omit h in
theorem Faithful.spendable (h : Faithful E vinOf weightOf c)
    (hnic : (nicVerified E c tvc).1 = true) :
    Spendable (vinOf c.id) := by
  rw [← h.inputs]
  rcases nicVerified_ok h.verified hnic with ⟨hne, hkeys, hnodup⟩
  exact ⟨hne, hkeys, hnodup⟩

/-- No other transaction of the pool spends what this one spends, unless it comes with a block. -/
def Unopposed (vinOf : Hash → List TxIn) (p : TxPool) (id : Hash) (txRelay : RelayMethod) : Prop :=
  txRelay = .block ∨ ∀ ki ∈ imagesOf (vinOf id), ∀ x ∈ p.spenders ki, x = id

variable {txRelay : RelayMethod}

/-- The index of key images after `insert_key_images`: the transaction is entered in whole, or it
    was there and nothing changes. -/
theorem insertKeyImages_indexed (hvin : Spendable (vinOf id))
    (hset : Unopposed vinOf p id txRelay) :
    WellFormed (p.insertKeyImages id txRelay (vinOf id)).2.spentKeyImages ∧
      ∀ ki x, x ∈ (p.insertKeyImages id txRelay (vinOf id)).2.spenders ki ↔
        (x ∈ p.txpool ∨ (p.insertKeyImages id txRelay (vinOf id)).1 = true ∧ x = id) ∧
          ki ∈ imagesOf (vinOf x) := by
  by_cases hlegacy : p.txMatchesCategory id .legacy = true
  · -- Only a transaction in the pool has a category.
    have hid : id ∈ p.txpool := by
      by_contra hout
      rw [txMatchesCategory, getMeta, lookup_eq_none.mpr hout] at hlegacy
      cases hlegacy
    rcases insertKeyImages_refused txRelay h.wellFormed hvin hlegacy
      fun ki hki => (h.spent ki id).mpr ⟨hid, hki⟩ with ⟨hfailed, hwf, hsame⟩
    refine ⟨hwf, fun ki x => ?_⟩
    rw [hsame, h.spent, hfailed]
    simp
  · rw [Bool.not_eq_true] at hlegacy
    rcases insertKeyImages_accepted hvin.toKey h.wellFormed hset (Or.inl hlegacy) with
      ⟨hok, hwf, hmem⟩
    refine ⟨hwf, fun ki x => ?_⟩
    rw [hmem, h.spent, hok]
    constructor
    · intro hx
      rcases hx with hx | ⟨rfl, hki⟩
      · exact ⟨Or.inl hx.1, hx.2⟩
      · exact ⟨Or.inr ⟨rfl, rfl⟩, hki⟩
    · intro hx
      rcases hx with ⟨hx | ⟨_, rfl⟩, hki⟩
      · exact Or.inl ⟨hx, hki⟩
      · exact Or.inr ⟨rfl, hki⟩

/-- A pool that took in a transaction or refused it: only the weight is still to be added. -/
structure Taken (E : Externals) (vinOf : Hash → List TxIn) (weightOf : Hash → UInt64) (p : TxPool)
    (added : Nat) (p' : TxPool) : Prop where
  described : Described E vinOf weightOf (· ∈ p'.txpool) (· ∈ p'.txpool)
    (total weightOf p.txpool) p'
  total : total weightOf p'.txpool = total weightOf p.txpool + added

theorem storeTx_taken (hc : Faithful E vinOf weightOf c)
    (hvin : Spendable (vinOf c.id)) (hset : Unopposed vinOf p c.id txRelay)
    (hm : Entered c txRelay m c.blob) (now : UInt64) (replace : Bool) :
    Taken E vinOf weightOf p
      (if (p.storeTx E c txRelay m now replace).1 ∧ c.id ∉ p.txpool then c.txWeight.toNat else 0)
      (p.storeTx E c txRelay m now replace).2 := by
  rcases insertKeyImages_indexed h hvin hset with ⟨hwf, hspent⟩
  rcases insertKeyImages_eq p c.id txRelay (vinOf c.id) with ⟨t, ht⟩
  have hentries : Entries E vinOf weightOf (p.txpool.insert c.id (m, c.blob)) := by
    refine h.entries.insert (hm.weight.trans hc.weight) hc.blob hvin ?_
    rcases hset with hblock | hset
    · exact Or.inl (hm.relay.trans hblock)
    · refine Or.inr fun ki hki x hx hkx => hset ki hki x ((h.spent ki x).mpr ⟨?_, hkx⟩)
      rcases hx with ⟨mx, bx, hlookup, _⟩
      exact mem_of_lookup hlookup
  simp only [storeTx, hc.inputs]
  generalize hr : p.insertKeyImages c.id txRelay (vinOf c.id) = r at hwf hspent ht ⊢
  rcases r with ⟨ok, q⟩
  subst ht
  split
  · -- Either nothing was entered, or the transaction was there before.
    rename_i hfailed
    have hold : ok = true → c.id ∈ p.txpool := by
      intro hok
      simp only [hok, Bool.not_true, Bool.false_or, Bool.and_eq_true, decide_eq_true_eq] at hfailed
      exact hfailed.2
    refine ⟨⟨h.entries, h.cached, hwf, fun ki x => ?_, h.nodup, h.sorted, h.weighed⟩,
      by simp [withSpentKeyImages]⟩
    rw [hspent]
    refine and_congr_left fun _ => ⟨fun hx => ?_, Or.inl⟩
    rcases hx with hx | ⟨hok, rfl⟩
    · exact hx
    · exact hold hok
  · rename_i hstored
    have hok : ok = true := by
      cases ok with
      | true => rfl
      | false => exact absurd rfl hstored
    subst hok
    have hentered : Described E vinOf weightOf (fun x => x ∈ p.txpool ∨ true = true ∧ x = c.id)
        (· ∈ p.txpool) (total weightOf p.txpool)
        ((p.withSpentKeyImages t).withTable (p.txpool.insert c.id (m, c.blob))) :=
      ⟨hentries, h.cached, hwf, hspent, h.nodup, h.sorted, h.weighed⟩
    have hlisted := hentered.list c.id
      (E.feeRate m.fee (if c.txWeight = 0 then 1 else c.txWeight)) now
    have htable := addTxToTransientLists_table ((p.withSpentKeyImages t).withTable
      (p.txpool.insert c.id (m, c.blob))) c.id
      (E.feeRate m.fee (if c.txWeight = 0 then 1 else c.txWeight)) now
    have hids : ∀ x, x ∈ p.txpool.insert c.id (m, c.blob) ↔ x ∈ p.txpool ∨ x = c.id :=
      fun x => (mem_insert p.txpool).trans or_comm
    refine ⟨hlisted.of_iff (fun x => ?_) fun x => ?_, ?_⟩
    · refine (iff_of_eq (congrArg (x ∈ ·) htable)).trans ((hids x).trans ?_)
      simp
    · exact (iff_of_eq (congrArg (x ∈ ·) htable)).trans (hids x)
    · refine (congrArg (total weightOf) htable).trans ?_
      change total weightOf (p.txpool.insert c.id (m, c.blob)) = _
      by_cases hid : c.id ∈ p.txpool
      · rw [total_insert_of_mem weightOf hid, if_neg fun hboth => hboth.2 hid, Nat.add_zero]
      · rw [total_insert_of_not_mem weightOf hid, if_pos ⟨rfl, hid⟩, hc.weight, Nat.add_comm]

theorem Exact.cacheParsed {tx : Transaction}
    (htx : tx.vin = vinOf id) : Exact E vinOf weightOf (p.cacheParsed id tx) := by
  have hcached : ∀ x tx', (p.cacheParsed id tx).parsedTxCache.lookup x = some tx' →
      tx'.vin = vinOf x := by
    intro x tx' hlookup
    simp only [TxPool.cacheParsed] at hlookup
    split at hlookup
    · exact h.cached x tx' hlookup
    · by_cases heq : x = id
      · rw [heq, lookup_insert, Option.some.injEq] at hlookup
        rw [heq, ← hlookup]
        exact htx
      · rw [lookup_insert_ne heq] at hlookup
        exact h.cached x tx' hlookup
  exact ⟨h.entries, hcached, h.wellFormed, h.spent, h.nodup, h.sorted, h.weighed⟩

omit h in
theorem Unopposed.relayAs (h : Unopposed vinOf p c.id c.txRelay) :
    Unopposed vinOf p c.id (p.relayAs c) := by
  refine h.imp_left fun hblock => ?_
  rw [TxPool.relayAs, if_neg, hblock]
  rw [hblock]
  exact fun hloop => by cases hloop.1

omit h in
/-- A transaction whose key images are not spent has no rival in the pool. -/
theorem spenders_of_not_spent {tx : Transaction} (h : p.haveTxKeyimgesAsSpent tx id = false) :
    ∀ ki ∈ imagesOf tx.vin, ∀ x ∈ p.spenders ki, x = id := by
  intro ki hki x hx
  rcases mem_filterMap.mp hki with ⟨i, hi, himage⟩
  have hnot := any_eq_false.mp h i hi
  cases i with
  | toKey amount offsets k =>
    have hk : k = ki := by simpa [TxIn.keyImage?] using himage
    subst hk
    rw [spenders, find] at hx
    simp only [haveTxKeyimgAsSpent] at hnot
    cases hlookup : p.spentKeyImages.lookup k with
    | none =>
      rw [hlookup] at hx
      cases hx
    | some set =>
      rw [hlookup] at hx hnot
      cases set with
      | nil => cases hx
      | cons first rest =>
        simp only [Bool.or_eq_true, decide_eq_true_eq] at hnot
        split at hnot
        · exact absurd rfl hnot
        · rename_i halone
          rw [not_or, not_not, not_not] at halone
          rw [Option.getD_some, halone.1, halone.2, mem_singleton] at hx
          exact hx
  | gen | toScript | toScripthash => cases himage

omit h in
/-- The pool a transaction is stored in. -/
theorem Checks.exact (h : Checks E p c tvc p') (hp : Exact E vinOf weightOf p)
    (hc : Faithful E vinOf weightOf c) :
    Exact E vinOf weightOf p' ∧ Spendable (vinOf c.id) ∧ Unopposed vinOf p' c.id c.txRelay := by
  have hset : Unopposed vinOf p c.id c.txRelay := by
    refine h.unspent.imp_right fun hunspent => ?_
    rw [← hc.inputs]
    exact spenders_of_not_spent hunspent
  rcases h.pool with ⟨cache, rfl | rfl⟩
  · exact ⟨{ hp with }, hc.spendable h.passed, hset⟩
  · have hchecked : Exact E vinOf weightOf { p with inputCache := cache } := { hp with }
    exact ⟨hchecked.cacheParsed hc.inputs, hc.spendable h.passed, hset⟩

omit h in
theorem Storing.unopposed {replace : Bool} (h : Storing p c txRelay m replace)
    (hset : Unopposed vinOf p c.id c.txRelay) : Unopposed vinOf p c.id txRelay := by
  rcases h.method with ⟨rfl, -⟩ | ⟨rfl, -⟩
  · exact hset
  · exact hset.relayAs

omit h in
/-- A pool to which nothing was added has the weight it had. -/
theorem Taken.exact (h : Taken E vinOf weightOf p 0 p') : Exact E vinOf weightOf p' := by
  have hdescribed := h.described
  rwa [← Nat.add_zero (TxPool.total weightOf p.txpool), ← h.total] at hdescribed

/-- `add_tx` keeps the indexes exact. -/
theorem addTx_exact (hc : Faithful E vinOf weightOf c)
    (hfits : total weightOf p.txpool + c.txWeight.toNat < 2 ^ 64) (v : ChainView) (now : UInt64)
    (tvc : Tvc) : Exact E vinOf weightOf (p.addTx E v c now tvc).2.2 := by
  have hend := addTx_outcome E v p c now tvc
  generalize p.addTx E v c now tvc = r at hend ⊢
  rcases r with ⟨ok, tvc', p'⟩
  cases hend with
  | refused => exact h
  | conflicting => exact h.markDoubleSpend c.tx.vin
  | failing q hq => exact (hq.exact h hc).1
  | known q bytes hq => exact (hq.exact h hc).1.prune bytes
  | unstored q txRelay m replace hq hm hs =>
    rcases hq.exact h hc with ⟨hexact, hvin, hset⟩
    have htaken := storeTx_taken hexact hc hvin (hm.unopposed hset) hm.entered now replace
    rw [if_neg fun hboth => by simp [hs] at hboth] at htaken
    exact htaken.exact
  | stored q txRelay m replace bytes hq hm hs =>
    rcases hq.exact h hc with ⟨hexact, hvin, hset⟩
    have htaken := storeTx_taken hexact hc hvin (hm.unopposed hset) hm.entered now replace
    rw [← hq.table] at hfits
    refine Exact.prune ?_ bytes
    split
    · rename_i hin
      rw [if_neg fun hboth => hboth.2 hin] at htaken
      exact htaken.exact
    · rename_i hnew
      rw [if_pos ⟨hs, hnew⟩] at htaken
      have hweighed := htaken.described.addTxpoolWeight hfits
      rwa [← htaken.total] at hweighed

/-! ### The pool as a whole -/

section

variable (v : ChainView) {version : UInt8} (hversion : version ≠ 0) (now : UInt64)
include v version hversion now

theorem revalidate_exact {e : Hash × TxMeta} (he : e.2.weight = weightOf e.1) :
    Exact E vinOf weightOf (p.revalidate E v version now e) := by
  rcases revalidate_cases E v hversion now p e with hsame | ⟨t, p₁, htake, hnew, hturn⟩
  · rw [hsame]
    exact h
  · rcases takeTx_exact h htake with ⟨hexact, hvin, hblob, htotal⟩
    have hfaithful : Faithful E vinOf weightOf (readdCall t e version) :=
      ⟨hvin, he, hblob, fun hverified => absurd hverified hversion⟩
    -- What was taken out fits in again.
    have hfits : total weightOf p₁.txpool + (readdCall t e version).txWeight.toNat < 2 ^ 64 := by
      have hbound := p.txpoolWeight.toNat_lt
      rw [h.weighed, ← htotal, ← he] at hbound
      rw [Nat.add_comm]
      exact hbound
    have hadded := addTx_exact hexact hfaithful hfits v now {}
    rw [hturn]
    split
    · refine hadded.updateMeta e.1 e.2 fun m blob hlookup => ?_
      have hentered := (addTx_entered (c := readdCall t e version) hnew v now {} m blob hlookup).2
      rw [hentered.weight, hentered.relay]
      exact ⟨rfl, fun hfree => hfree⟩
    · exact hadded

theorem validate_exact : Exact E vinOf weightOf (p.validate E v version now) := by
  refine (validate_rec p v hversion now { h with } ?_).1
  intro q e _ he hq
  rcases mem_entriesById he with ⟨blob, hlookup⟩
  exact revalidate_exact hq v hversion now (h.entries.weights e.1 e.2 blob hlookup)

end

/-- A transaction of the pool that is added to the lists again. -/
theorem Exact.addTxToTransientLists (hid : id ∈ p.txpool) (feeRate receiveTime : UInt64) :
    Exact E vinOf weightOf (p.addTxToTransientLists id feeRate receiveTime) := by
  rw [Exact, Pending, addTxToTransientLists_table]
  refine (Described.list h id feeRate receiveTime).of_iff (fun _ => Iff.rfl) fun x => ⟨Or.inl, ?_⟩
  rintro (hx | rfl)
  · exact hx
  · exact hid

omit h in
theorem relayedMeta_block {method : RelayMethod} (h : (relayedMeta m method).relay ≠ .block) :
    m.relay ≠ .block := by
  intro hblock
  refine h ?_
  change (if m.relay.rank < method.rank then method else m.relay) = .block
  rw [hblock, if_neg]
  -- No method ranks higher.
  cases method <;> decide

theorem setRelayed_exact (hashes : List Hash) (method : RelayMethod) (now : UInt64) :
    Exact E vinOf weightOf (p.setRelayed E hashes method now).2 := by
  refine setRelayed_rec (fun q id m blob hq hlookup => ?_) hashes h
  have hupdated : Exact E vinOf weightOf (q.updateMeta id (relayedMeta m method)) :=
    hq.updateMeta id _ (forall_lookup hlookup ⟨rfl, relayedMeta_block⟩)
  have hin : id ∈ (q.updateMeta id (relayedMeta m method)).txpool := by
    rw [updateMeta, hlookup]
    exact (mem_insert _).mpr (Or.inl rfl)
  split
  · exact hupdated.addTxToTransientLists hin _ _
  · exact hupdated

theorem removeStuckTransactions_exact : Exact E vinOf weightOf (p.removeStuckTransactions E) := by
  refine removeStuckTransactions_rec (fun q hq => { hq with }) (fun q _ hq => { hq with }) ?_ ?_ h
  · intro q id m blob hq hlookup
    exact (hq.entries.blobs id m blob hlookup).readable
  · intro q id m blob tx hq hlookup htx
    exact hq.drop hlookup ((hq.entries.blobs id m blob hlookup).fromPrefix tx htx)

end TxPool

end CocaineNode
