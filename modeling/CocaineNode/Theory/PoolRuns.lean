import CocaineNode.Theory.PoolIndexes

/-!
# Runs of the Pool

The indexes of the pool live in memory and its table in the database, so a node
that starts builds the indexes from the table. `init` goes over the table twice:
transactions that are not kept by a block have to come first, since the key
images of such a transaction are refused once another one has entered them.
That no two of those share a key image is a property of the table, and the
runs before the restart have kept it.

`PoolMove` is one operation on the pool. Whatever the operations were, the
indexes describe the table.

## Theorems

* `TxPool.poolMove_exact`: Every operation keeps the indexes exact.
* `TxPool.indexes_exact`: So they are after every run.
-/

namespace CocaineNode

open List AList

namespace TxPool

open Transition ReverseIndex

section

variable {E : Externals} {vinOf : Hash → List TxIn} {weightOf : Hash → UInt64} {p : TxPool}
  {t : AList fun _ : Hash => TxMeta × Blob}

/-! ## Starting -/

/-- The sum of the weights of transactions. -/
def weightsSum (weightOf : Hash → UInt64) (ids : List Hash) : Nat :=
  (ids.map fun id => (weightOf id).toNat).sum

/-- The indexes describe the transactions entered so far. -/
structure Building (E : Externals) (vinOf : Hash → List TxIn) (weightOf : Hash → UInt64)
    (t : AList fun _ : Hash => TxMeta × Blob) (done : List Hash) (p : TxPool) : Prop where
  table : p.txpool = t
  described : Described E vinOf weightOf (· ∈ done) (· ∈ done) (weightsSum weightOf done) p

theorem Building.start (ht : Entries E vinOf weightOf p.txpool)
    (hcached : ∀ id tx, p.parsedTxCache.lookup id = some tx → tx.vin = vinOf id)
    (maxTxpoolWeight : UInt64) :
    Building E vinOf weightOf p.txpool [] (p.unindexed maxTxpoolWeight) := by
  refine ⟨rfl, ht, hcached, WellFormed.empty, fun ki id => ?_, nodup_nil, fun _ => Iff.rfl, rfl⟩
  refine ⟨fun h => ?_, fun h => ?_⟩
  · cases h
  · cases h.1

theorem weightsSum_append (weightOf : Hash → UInt64) (l l' : List Hash) :
    weightsSum weightOf (l ++ l') = weightsSum weightOf l + weightsSum weightOf l' := by
  rw [weightsSum, map_append, sum_append]
  rfl

/-- A transaction enters the indexes. Its key images are accepted: it was not entered before, and
    unless it is kept by a block the others that were are not kept by one either. -/
theorem indexEntry_building {done : List Hash} (h : Building E vinOf weightOf t done p) {id : Hash}
    {m : TxMeta} {blob : Blob} (hlookup : t.lookup id = some (m, blob)) (hnew : id ∉ done)
    (hfree : m.relay = .block ∨ ∀ x ∈ done, FreeIn t x)
    (hfits : weightsSum weightOf (done ++ [id]) < 2 ^ 64) {tx : Transaction}
    (htx : tx.vin = vinOf id) :
    (p.indexEntry E id m tx).1 = true ∧
      Building E vinOf weightOf t (done ++ [id]) (p.indexEntry E id m tx).2 := by
  rcases h with ⟨rfl, h⟩
  have hspendable := h.entries.inputs id (mem_of_lookup hlookup)
  have hset : m.relay = .block ∨ ∀ ki ∈ imagesOf (vinOf id), ∀ x ∈ p.spenders ki, x = id := by
    by_cases hblock : m.relay = .block
    · exact Or.inl hblock
    · refine Or.inr fun ki hki x hx => ?_
      rcases (h.spent ki x).mp hx with ⟨hdone, hkx⟩
      exact h.entries.single ki x id (hfree.resolve_left hblock x hdone)
        ⟨m, blob, hlookup, hblock⟩ hkx hki
  have hfresh : ∀ ki ∈ imagesOf (vinOf id), id ∉ p.spenders ki :=
    fun ki _ hin => hnew ((h.spent ki id).mp hin).1
  rcases insertKeyImages_accepted hspendable.toKey h.wellFormed hset
    (Or.inr ⟨hspendable.nodup, hfresh⟩) with ⟨hok, hwf, hspent⟩
  rcases insertKeyImages_eq p id m.relay (vinOf id) with ⟨images, hentered⟩
  rw [hentered] at hwf hspent
  have hstep : p.indexEntry E id m tx =
      (true, ((p.withSpentKeyImages images).addTxToTransientLists id (E.feeRate m.fee m.weight)
        m.receiveTime).addTxpoolWeight m.weight) := by
    rw [indexEntry, htx, hok, hentered]
    rfl
  have hids : ∀ x, x ∈ done ++ [id] ↔ x ∈ done ∨ x = id := by simp
  have hindexed : Described E vinOf weightOf (· ∈ done ++ [id]) (· ∈ done)
      (weightsSum weightOf done) (p.withSpentKeyImages images) := by
    refine ⟨h.entries, h.cached, hwf, fun ki x => (hspent ki x).trans ?_, h.nodup, h.sorted,
      h.weighed⟩
    rw [h.spent, hids]
    constructor
    · rintro (⟨hdone, hki⟩ | ⟨rfl, hki⟩)
      · exact ⟨Or.inl hdone, hki⟩
      · exact ⟨Or.inr rfl, hki⟩
    · rintro ⟨hdone | rfl, hki⟩
      · exact Or.inl ⟨hdone, hki⟩
      · exact Or.inr ⟨rfl, hki⟩
  have hweight : weightsSum weightOf (done ++ [id]) =
      weightsSum weightOf done + m.weight.toNat := by
    rw [weightsSum_append, h.entries.weights id m blob hlookup]
    simp [weightsSum]
  rw [hweight] at hfits
  have hlisted := (hindexed.list id (E.feeRate m.fee m.weight) m.receiveTime).addTxpoolWeight hfits
  rw [← hweight] at hlisted
  rw [hstep]
  exact ⟨rfl, addTxToTransientLists_table _ id _ _, hlisted.of_iff (fun _ => Iff.rfl) hids⟩

/-- Whether a pass of `init` is about an entry. -/
def inPass (kept : Bool) (e : Hash × TxMeta × Blob) : Bool :=
  kept = decide (e.2.1.relay = .block)

/-- One pass over the table: it is about some of the entries, and enters all of them. -/
theorem initPass_building (kept : Bool) (l : List (Hash × TxMeta × Blob))
    (hl : ∀ e ∈ l, t.lookup e.1 = some e.2) (hnodup : (l.map Prod.fst).Nodup) {done : List Hash}
    (hnew : ∀ e ∈ l, inPass kept e = true → e.1 ∉ done)
    (hfree : kept = true ∨ ∀ x ∈ done, FreeIn t x) (h : Building E vinOf weightOf t done p)
    (hfits : weightsSum weightOf (done ++ (l.filter (inPass kept)).map Prod.fst) < 2 ^ 64)
    (remove : List Hash) :
    ∃ p', initPass E kept l p remove = (true, p', remove) ∧
      Building E vinOf weightOf t (done ++ (l.filter (inPass kept)).map Prod.fst) p' := by
  induction l generalizing p done with
  | nil => exact ⟨p, rfl, by simpa using h⟩
  | cons e rest ih =>
    rcases e with ⟨id, m, blob⟩
    have hl' : ∀ e ∈ rest, t.lookup e.1 = some e.2 :=
      fun e he => hl e (mem_cons_of_mem _ he)
    rcases nodup_cons.mp hnodup with ⟨hid, hrest⟩
    by_cases hpass : inPass kept (id, m, blob) = true
    · have hlookup : t.lookup id = some (m, blob) := hl _ mem_cons_self
      have hkept : kept = decide (m.relay = .block) := by simpa [inPass] using hpass
      have hblob := h.described.entries.blobs id m blob (h.table ▸ hlookup)
      rcases Option.isSome_iff_exists.mp hblob.readable with ⟨tx, htx⟩
      rw [filter_cons_of_pos hpass, map_cons, append_cons] at hfits ⊢
      have hfits' : weightsSum weightOf (done ++ [id]) < 2 ^ 64 := by
        rw [weightsSum_append] at hfits
        exact Nat.lt_of_le_of_lt (Nat.le_add_right _ _) hfits
      have hrival : m.relay = .block ∨ ∀ x ∈ done, FreeIn t x :=
        hfree.imp_left fun hk => by simpa [hk] using hkept
      rcases indexEntry_building h hlookup (hnew _ mem_cons_self hpass) hrival
        hfits' (hblob.fromPrefix tx htx) with ⟨hok, hentered⟩
      -- What comes later is neither among the earlier ones nor this one.
      have hnew' : ∀ e ∈ rest, inPass kept e = true → e.1 ∉ done ++ [id] := by
        intro e he hin hmem
        rcases mem_append.mp hmem with hdone | hsame
        · exact hnew e (mem_cons_of_mem _ he) hin hdone
        · refine hid (mem_map.mpr ⟨e, he, ?_⟩)
          exact mem_singleton.mp hsame
      have hfree' : kept = true ∨ ∀ x ∈ done ++ [id], FreeIn t x := by
        by_cases hk : kept = true
        · exact Or.inl hk
        · refine Or.inr fun x hx => ?_
          rcases mem_append.mp hx with hdone | hsame
          · exact hfree.resolve_left hk x hdone
          · rw [mem_singleton.mp hsame]
            exact ⟨m, blob, hlookup, fun hblock => hk (by rw [hkept, hblock]; rfl)⟩
      rcases ih hl' hrest hnew' hfree' hentered hfits with ⟨p', heq, hbuilt⟩
      refine ⟨p', ?_, hbuilt⟩
      rw [initPass, if_neg (not_not_intro hkept), htx]
      simp only [hok]
      exact heq
    · have hskip : kept ≠ decide (m.relay = .block) := by simpa [inPass] using hpass
      rw [filter_cons_of_neg hpass] at hfits ⊢
      rcases ih hl' hrest (fun e he => hnew e (mem_cons_of_mem _ he)) hfree h hfits with
        ⟨p', heq, hbuilt⟩
      refine ⟨p', ?_, hbuilt⟩
      rw [initPass, if_pos hskip]
      exact heq

theorem blobsById_perm (p : TxPool) : p.blobsById.Perm (p.txpool.entries.map fun e => (e.1, e.2)) :=
  perm_insertionSort _ _

theorem blobsById_keys (p : TxPool) : (p.blobsById.map Prod.fst).Perm p.txpool.keys := by
  have h := (blobsById_perm p).map Prod.fst
  rw [map_map] at h
  exact h

theorem lookup_of_blobsById {e : Hash × TxMeta × Blob} (h : e ∈ p.blobsById) :
    p.txpool.lookup e.1 = some e.2 := by
  rcases mem_map.mp ((blobsById_perm p).mem_iff.mp h) with ⟨entry, hin, rfl⟩
  exact mem_lookup_iff.mpr hin

/-- The two passes together are about every entry. -/
theorem inPass_perm (l : List (Hash × TxMeta × Blob)) :
    ((l.filter (inPass false)).map Prod.fst ++ (l.filter (inPass true)).map Prod.fst).Perm
      (l.map Prod.fst) := by
  have hother : inPass true = fun e => !inPass false e := by
    funext e
    by_cases h : e.2.1.relay = .block <;> simp [inPass, h]
  rw [← map_append, hother]
  exact (filter_append_perm (inPass false) l).map Prod.fst

/-- The indexes that are built describe the table, whatever they said before. -/
theorem init_exact (ht : Entries E vinOf weightOf p.txpool)
    (hcached : ∀ id tx, p.parsedTxCache.lookup id = some tx → tx.vin = vinOf id)
    (hfits : total weightOf p.txpool < 2 ^ 64) (maxTxpoolWeight : UInt64) (mineStemTxes : Bool) :
    (p.init E maxTxpoolWeight mineStemTxes).1 = true ∧
      Exact E vinOf weightOf (p.init E maxTxpoolWeight mineStemTxes).2 := by
  have hperm := (inPass_perm p.blobsById).trans (blobsById_keys p)
  have hnodup : (p.blobsById.map Prod.fst).Nodup :=
    (blobsById_keys p).nodup_iff.mpr p.txpool.nodupKeys
  have hl : ∀ e ∈ p.blobsById, p.txpool.lookup e.1 = some e.2 := fun e => lookup_of_blobsById
  have hsum : weightsSum weightOf ((p.blobsById.filter (inPass false)).map Prod.fst ++
      (p.blobsById.filter (inPass true)).map Prod.fst) = total weightOf p.txpool :=
    (hperm.map fun id => (weightOf id).toNat).sum_eq
  have hfirst : weightsSum weightOf ([] ++ (p.blobsById.filter (inPass false)).map Prod.fst) <
      2 ^ 64 := by
    rw [← hsum, weightsSum_append] at hfits
    exact Nat.lt_of_le_of_lt (Nat.le_add_right _ _) hfits
  rcases initPass_building false p.blobsById hl hnodup (fun _ _ _ => not_mem_nil)
    (Or.inr fun x hx => by cases hx) (Building.start ht hcached maxTxpoolWeight) hfirst [] with
    ⟨p₁, hpass₁, hbuilt₁⟩
  -- An entry is in one of the passes only, and no id is there twice.
  have hapart : ∀ e ∈ p.blobsById, inPass true e = true →
      e.1 ∉ [] ++ (p.blobsById.filter (inPass false)).map Prod.fst := by
    intro e he hin hmem
    rcases mem_map.mp hmem with ⟨e', he', heq⟩
    rcases mem_filter.mp he' with ⟨hin', hpass'⟩
    have hsame : e' = e := by
      have hlookup := hl e' hin'
      rw [heq, hl e he] at hlookup
      exact Prod.ext heq (Option.some.inj hlookup).symm
    rw [hsame] at hpass'
    simp [inPass] at hin hpass'
    exact hpass' hin
  rcases initPass_building true p.blobsById hl hnodup hapart (Or.inl rfl) hbuilt₁
    (hsum ▸ hfits) [] with ⟨p₂, hpass₂, htable, hbuilt₂⟩
  have hinit : p.init E maxTxpoolWeight mineStemTxes = (true, { p₂ with mineStemTxes }) := by
    rw [init, hpass₁]
    simp only [Bool.not_true, Bool.false_eq_true, if_false, hpass₂]
    rfl
  have hids : ∀ id, id ∈ p.txpool ↔ id ∈ [] ++ (p.blobsById.filter (inPass false)).map Prod.fst ++
      (p.blobsById.filter (inPass true)).map Prod.fst :=
    fun id => mem_keys.trans hperm.mem_iff.symm
  rw [hinit]
  have hexact : Exact E vinOf weightOf p₂ := by
    rw [Exact, Pending, htable, ← hsum]
    exact hbuilt₂.of_iff hids hids
  exact ⟨rfl, { hexact with }⟩

/-! ## Runs -/

/-- A new object over a database that has the table already. -/
def reopen (p : TxPool) : TxPool :=
  { TxPool.empty with txpool := p.txpool, clock := p.clock }

/-- One operation on the pool, on a chain that changes. What callers of `add_tx` promise is a
    parameter. A version of 0 stands for none, and no fork has it. -/
inductive PoolMove (E : Externals) (promise : TxPool → AddTxCall → Prop) :
    TxPool × ChainView → TxPool × ChainView → Prop
  | addTx (p : TxPool) (v : ChainView) (c : AddTxCall) (now : UInt64) (tvc : Tvc) : promise p c →
      PoolMove E promise (p, v) ((p.addTx E v c now tvc).2.2, v)
  | takeTx (p p' : TxPool) (v : ChainView) (id : Hash) (taken : TakenTx) :
      p.takeTx E id = some (taken, p') → PoolMove E promise (p, v) (p', v)
  | prune (p : TxPool) (v : ChainView) (bytes : UInt64) :
      PoolMove E promise (p, v) (p.prune E bytes, v)
  | removeStuckTransactions (p : TxPool) (v : ChainView) :
      PoolMove E promise (p, v) (p.removeStuckTransactions E, v)
  | validate (p : TxPool) (v : ChainView) (version : UInt8) (now : UInt64) : version ≠ 0 →
      PoolMove E promise (p, v) (p.validate E v version now, v)
  | setRelayed (p : TxPool) (v : ChainView) (hashes : List Hash) (method : RelayMethod)
      (now : UInt64) : PoolMove E promise (p, v) ((p.setRelayed E hashes method now).2, v)
  | init (p : TxPool) (v : ChainView) (maxTxpoolWeight : UInt64) (mineStemTxes : Bool) :
      PoolMove E promise (p, v) ((p.init E maxTxpoolWeight mineStemTxes).2, v)
  -- The node is stopped and started again.
  | restart (p : TxPool) (v : ChainView) (maxTxpoolWeight : UInt64) (mineStemTxes : Bool) :
      PoolMove E promise (p, v) ((p.reopen.init E maxTxpoolWeight mineStemTxes).2, v)
  | block (p : TxPool) (v v' : ChainView) : PoolMove E promise (p, v) (p.onBlockchainChange, v')
  | template (p : TxPool) (v : ChainView) (a : TemplateArgs) (f : Filling) :
      p.fillBlockTemplate E v a = some f → PoolMove E promise (p, v) (f.pool, v)

/-- The transaction is what its id says, and the weight of the pool with it is a `size_t`. -/
structure Admissible (E : Externals) (vinOf : Hash → List TxIn) (weightOf : Hash → UInt64)
    (p : TxPool) (c : AddTxCall) : Prop where
  faithful : Faithful E vinOf weightOf c
  fits : total weightOf p.txpool + c.txWeight.toNat < 2 ^ 64

variable (E : Externals) (vinOf : Hash → List TxIn) (weightOf : Hash → UInt64)

/-- Every operation keeps the indexes exact. -/
theorem poolMove_exact :
    Preserves (PoolMove E (Admissible E vinOf weightOf)) fun s => Exact E vinOf weightOf s.1 := by
  intro s s' h hmove
  -- The weight of the pool is a word, so what is in the table adds up to one.
  have hfits : total weightOf s.1.txpool < 2 ^ 64 := by
    rw [← h.weighed]
    exact UInt64.toNat_lt _
  cases hmove with
  | addTx p v c now tvc hc => exact addTx_exact h hc.faithful hc.fits v now tvc
  | takeTx p p' v id taken htake => exact (takeTx_exact h htake).1
  | prune p v bytes => exact h.prune bytes
  | removeStuckTransactions p v => exact removeStuckTransactions_exact h
  | validate p v version now hversion => exact validate_exact h v hversion now
  | setRelayed p v hashes method now => exact setRelayed_exact h hashes method now
  | init p v maxTxpoolWeight mineStemTxes =>
    exact (init_exact h.entries h.cached hfits maxTxpoolWeight mineStemTxes).2
  | restart p v maxTxpoolWeight mineStemTxes =>
    have hcached : ∀ id tx, p.reopen.parsedTxCache.lookup id = some tx → tx.vin = vinOf id :=
      fun id tx hlookup => by cases hlookup
    exact (init_exact (p := p.reopen) h.entries hcached hfits maxTxpoolWeight mineStemTxes).2
  | block p v v' =>
    have hcached : ∀ id tx, p.onBlockchainChange.parsedTxCache.lookup id = some tx →
        tx.vin = vinOf id := fun id tx hlookup => by cases hlookup
    exact { h with cached := hcached }
  | template p v a f hfill =>
    refine fillBlockTemplate_preserves ?_ ?_ h hfill
    · intro q cache hq
      exact { hq with }
    · intro q id m m' blob hq hlookup hfixed
      exact hq.updateMeta id m' (forall_lookup hlookup
        ⟨hfixed.weight, fun hfree => by rwa [hfixed.relay] at hfree⟩)

theorem unused_exact (maxWeight : UInt64) (mineStemTxes : Bool) (clock : Clock) :
    Exact E vinOf weightOf { unused maxWeight mineStemTxes with clock } := by
  have hnone : ∀ id e,
      ({ unused maxWeight mineStemTxes with clock } : TxPool).txpool.lookup id ≠ some e :=
    fun id e hlookup => by cases hlookup
  refine ⟨⟨?_, ?_, ?_, ?_⟩, ?_, WellFormed.empty, fun ki id => ?_, nodup_nil, fun id => ?_, rfl⟩
  · intro id m blob hlookup
    exact absurd hlookup (hnone id _)
  · intro id m blob hlookup
    exact absurd hlookup (hnone id _)
  · intro id hid
    exact absurd hid (notMem_empty id)
  · intro ki x y hx hy hkx hky
    rcases hx with ⟨m, blob, hlookup, hfree⟩
    exact absurd hlookup (hnone x _)
  · intro id tx hlookup
    cases hlookup
  · refine ⟨fun h => ?_, fun h => ?_⟩
    · cases h
    · exact absurd h.1 (notMem_empty id)
  · refine ⟨fun h => ?_, fun h => ?_⟩
    · cases h
    · exact absurd h (notMem_empty id)

end

/-- A transaction of the pool spends a key image. -/
def SpendsImage (E : Externals) (p : TxPool) (id : Hash) (m : TxMeta) (ki : KeyImage) : Prop :=
  ∃ blob tx, p.txpool.lookup id = some (m, blob) ∧ E.parseTxPrefix blob = some tx ∧
    ki ∈ tx.keyImages

section

variable {E : Externals} {vinOf : Hash → List TxIn} {weightOf : Hash → UInt64} {p : TxPool}

section

variable (h : Exact E vinOf weightOf p)
include h

theorem Exact.spendsImage {id : Hash} {m : TxMeta} {ki : KeyImage}
    (hspends : SpendsImage E p id m ki) : id ∈ p.txpool ∧ ki ∈ imagesOf (vinOf id) := by
  rcases hspends with ⟨blob, tx, hlookup, htx, hki⟩
  refine ⟨mem_of_lookup hlookup, ?_⟩
  rw [← (h.entries.blobs id m blob hlookup).fromPrefix tx htx]
  exact hki

theorem Exact.mem_spenders (ki : KeyImage) (id : Hash) :
    id ∈ p.spenders ki ↔ ∃ m, SpendsImage E p id m ki := by
  rw [h.spent]
  constructor
  · intro hspent
    rcases hspent with ⟨hid, hki⟩
    rcases Option.isSome_iff_exists.mp (lookup_isSome.mpr hid) with ⟨⟨m, blob⟩, hlookup⟩
    have hblob := h.entries.blobs id m blob hlookup
    rcases Option.isSome_iff_exists.mp hblob.readable with ⟨tx, htx⟩
    rw [← hblob.fromPrefix tx htx] at hki
    exact ⟨m, blob, tx, hlookup, htx, hki⟩
  · intro hspent
    rcases hspent with ⟨m, hspends⟩
    exact h.spendsImage hspends

/-- The stored weights are those that belong to the ids. -/
theorem Exact.total_eq :
    total weightOf p.txpool = (p.txpool.entries.map fun e => e.2.1.weight.toNat).sum := by
  have hkeys : p.txpool.keys = p.txpool.entries.map Sigma.fst := rfl
  rw [total, hkeys, map_map]
  refine congrArg sum (map_congr_left fun e he => ?_)
  rw [h.entries.weights e.1 e.2.1 e.2.2 (mem_lookup_iff.mpr he)]
  rfl

end

/-- After every run the indexes describe the pool: each key image has precisely the transactions
    that spend it and none has an empty set, the weight is the sum of the stored weights, the
    sorted container has each id once, and no two transactions that are not kept by a block spend
    the same key image. -/
theorem indexes_exact (E : Externals) (vinOf : Hash → List TxIn) (weightOf : Hash → UInt64)
    (maxWeight : UInt64) (mineStemTxes : Bool) (clock : Clock) (p : TxPool) (v₀ v : ChainView)
    (hrun : Run (PoolMove E (Admissible E vinOf weightOf))
      ({ unused maxWeight mineStemTxes with clock }, v₀) (p, v)) :
    (∀ ki ids, p.spentKeyImages.lookup ki = some ids → ids ≠ [] ∧ ids.Nodup) ∧
      (∀ ki id, id ∈ (p.spentKeyImages.lookup ki).getD [] ↔ ∃ m, SpendsImage E p id m ki) ∧
      p.txpoolWeight.toNat = (p.txpool.entries.map fun e => e.2.1.weight.toNat).sum ∧
      (p.txsByFeeAndReceiveTime.map SortedTx.txid).Nodup ∧
      (∀ id, id ∈ p.txsByFeeAndReceiveTime.map SortedTx.txid ↔ id ∈ p.txpool) ∧
      ∀ ki x y m m', SpendsImage E p x m ki → m.relay ≠ .block → SpendsImage E p y m' ki →
        m'.relay ≠ .block → x = y := by
  have h : Exact E vinOf weightOf p := (poolMove_exact E vinOf weightOf).run hrun
    (unused_exact E vinOf weightOf maxWeight mineStemTxes clock)
  refine ⟨?_, h.mem_spenders, ?_, h.nodup, h.sorted, ?_⟩
  · intro ki ids hlookup
    exact ⟨h.wellFormed.ne_nil ki ids hlookup, h.wellFormed.nodup ki ids hlookup⟩
  · rw [h.weighed, h.total_eq]
  · intro ki x y m m' hx hfreex hy hfreey
    have hkx := (h.spendsImage hx).2
    have hky := (h.spendsImage hy).2
    rcases hx with ⟨blob, _, hlookupx, _⟩
    rcases hy with ⟨blob', _, hlookupy, _⟩
    exact h.entries.single ki x y ⟨m, blob, hlookupx, hfreex⟩ ⟨m', blob', hlookupy, hfreey⟩ hkx hky

end

/-! ## A run -/

/-- The inputs of a sample transaction, which are in the last byte of its id. -/
def sampleInputs (id : Hash) : List TxIn :=
  [.toKey 0 [1] (BitVec.ofNat 256 (id.toNat % 256))]

theorem sampleCall_faithful {blob : Blob} (txRelay : RelayMethod)
    (h : (sampleTx blob).vin = sampleInputs (sampleCall blob txRelay).id) :
    Faithful .sample sampleInputs (fun _ => 2) (sampleCall blob txRelay) := by
  refine ⟨h, rfl, ⟨rfl, ?_, ?_, ?_⟩,
    fun hversion => absurd hversion (show (12 : UInt8) ≠ 0 by decide)⟩
  · intro tx hparse
    cases hparse
    exact h
  · intro tx hparse
    cases hparse
    exact h
  · intro tx hparse
    cases hparse
    exact h

theorem conflictPool_moves : Run (PoolMove .sample (Admissible .sample sampleInputs fun _ => 2))
      ({ unused 648000000 false with clock := ⟨fun _ => 0, 0⟩ }, shortView)
      (conflictPool, shortView) := by
  have hrelayed : Admissible .sample sampleInputs (fun _ => 2) (unused 648000000 false)
      (sampleCall [7, 1] .fluff) :=
    ⟨sampleCall_faithful .fluff (by decide +kernel), by decide +kernel⟩
  have hkept : Admissible .sample sampleInputs (fun _ => 2)
      ((unused 648000000 false).addTx .sample shortView (sampleCall [7, 1] .fluff) 10 {}).2.2
      (sampleCall [8, 1] .block) :=
    ⟨sampleCall_faithful .block (by decide +kernel), by decide +kernel⟩
  exact (Relation.ReflTransGen.single (PoolMove.addTx _ _ _ 10 {} hrelayed)).tail
    (PoolMove.addTx _ _ _ 10 {} hkept)

/-- Two transactions under one key image, one of them kept by a block. -/
theorem indexes_exact_conflictPool :
    (conflictPool.spentKeyImages.lookup 1).map List.length = some 2 ∧
      (∀ id, id ∈ (conflictPool.spentKeyImages.lookup 1).getD [] ↔
        ∃ m, SpendsImage .sample conflictPool id m 1) ∧
      conflictPool.txpoolWeight.toNat =
        (conflictPool.txpool.entries.map fun e => e.2.1.weight.toNat).sum := by
  rcases indexes_exact .sample sampleInputs (fun _ => 2) 648000000 false ⟨fun _ => 0, 0⟩
    conflictPool shortView shortView conflictPool_moves with ⟨_, hspent, hweight, _⟩
  exact ⟨by decide +kernel, hspent 1, hweight⟩

end TxPool

end CocaineNode
