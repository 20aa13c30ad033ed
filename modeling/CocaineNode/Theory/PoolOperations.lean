import CocaineNode.Core.PoolUpkeep

/-!
# Operations of the Pool

`add_tx`, `take_tx`, `prune` and the rest are made of a few changes: a cache gets
an entry, metadata change, a transaction leaves, a transaction is stored. This
module says once for each operation which of them it makes, so that an invariant
of the pool has to be shown for the changes only.

The long one is `add_tx`. It may refuse a transaction before it has touched
anything, mark the ones it conflicts with, fail the checks of the inputs, find
the transaction already there, fail to store it, or store it and then `prune`.
`Outcome` has one case for each, and `addTx_outcome` says that there are no
others.

## Theorems

* `TxPool.addTx_outcome`: The ways `add_tx` can end.
* `TxPool.revalidate_cases`: The two ways a turn of `validate` goes.
-/

namespace CocaineNode

open Option

/-! ## The rules that need no chain -/

theorem nodup_of_keyimagesDiffFrom {seen : List KeyImage} {ins : List TxIn}
    (h : Transaction.keyimagesDiffFrom seen ins = true) :
    (ins.filterMap TxIn.keyImage?).Nodup ∧ ∀ ki ∈ ins.filterMap TxIn.keyImage?, ki ∉ seen := by
  induction ins generalizing seen with
  | nil => simp
  | cons i rest ih =>
    cases i with
    | toKey amount offsets ki =>
      simp only [Transaction.keyimagesDiffFrom] at h
      split at h
      · cases h
      · rename_i hfresh
        rcases ih h with ⟨hnodup, hseen⟩
        change (ki :: rest.filterMap TxIn.keyImage?).Nodup ∧
          ∀ k ∈ ki :: rest.filterMap TxIn.keyImage?, k ∉ seen
        refine ⟨List.nodup_cons.mpr ⟨fun hmem => ?_, hnodup⟩, ?_⟩
        · exact hseen ki hmem (List.mem_cons_self ..)
        · rintro k hk
          rcases List.mem_cons.mp hk with rfl | hk
          · exact hfresh
          · exact fun hmem => hseen k hk (List.mem_cons_of_mem _ hmem)
    | gen | toScript | toScripthash => cases h

/-- A transaction that passes has inputs, all of them spend a key image, and none twice. -/
theorem verNonInputConsensus_ok {E : Externals} {tx : Transaction} {tvc : Tvc} {version : UInt8}
    (h : (verNonInputConsensus E [tx] tvc version).1 = true) :
    tx.vin ≠ [] ∧ (∀ x ∈ tx.vin, x.isToKey = true) ∧ tx.keyImages.Nodup := by
  have hrules : (verNonInputRules E tx tvc version).1 = true := by
    by_contra hfailed
    rw [Bool.not_eq_true] at hfailed
    simp [verNonInputConsensus, verNonInputLoop, hfailed] at h
  have hsemantic : (checkTxSemantic E tx tvc version).1 = true := by
    by_contra hfailed
    simp [verNonInputRules, hfailed, apply_ite Prod.fst] at hrules
  have hins : tx.vin ≠ [] := by
    intro hempty
    simp [checkTxSemantic, hempty] at hsemantic
  have htypes : tx.checkInputsTypesSupported = true := by
    by_contra hfailed
    simp [checkTxSemantic, hfailed, apply_ite Prod.fst] at hsemantic
  have hdiff : tx.checkTxInputsKeyimagesDiff = true := by
    by_contra hfailed
    simp [checkTxSemantic, hfailed, apply_ite Prod.fst] at hsemantic
  exact ⟨hins, List.all_eq_true.mp htypes, (nodup_of_keyimagesDiffFrom hdiff).1⟩

namespace TxPool

/-- The rules hold for a call that has passed them, now or before. -/
theorem nicVerified_ok {E : Externals} {c : AddTxCall} {tvc : Tvc}
    (hverified : c.version = c.nicVerifiedHfVersion →
      ∃ tvc version, (verNonInputConsensus E [c.tx] tvc version).1 = true)
    (h : (nicVerified E c tvc).1 = true) :
    c.tx.vin ≠ [] ∧ (∀ x ∈ c.tx.vin, x.isToKey = true) ∧ c.tx.keyImages.Nodup := by
  by_cases hversion : c.version = c.nicVerifiedHfVersion
  · rcases hverified hversion with ⟨tvc', version, hpassed⟩
    exact verNonInputConsensus_ok hpassed
  · rw [nicVerified, if_neg hversion] at h
    exact verNonInputConsensus_ok h

variable {E : Externals} {v : ChainView} {p p' : TxPool} {id : Hash}

/-! ## Changes of one field -/

/-- Key images that are entered change that index only. -/
theorem insertKeyImages_eq (p : TxPool) (id : Hash) (txRelay : RelayMethod) (vin : List TxIn) :
    ∃ t, (p.insertKeyImages id txRelay vin).2 = p.withSpentKeyImages t := by
  induction vin generalizing p with
  | nil => exact ⟨p.spentKeyImages, rfl⟩
  | cons i rest ih =>
    cases i with
    | toKey amount offsets ki =>
      simp only [insertKeyImages]
      split
      · exact ⟨_, rfl⟩
      · split
        · exact ⟨_, rfl⟩
        · rcases ih (p.withSpentKeyImages _) with ⟨t, ht⟩
          exact ⟨t, ht⟩
    | gen | toScript | toScripthash => exact ⟨p.spentKeyImages, rfl⟩

/-- Key images that are taken out change that index only, whatever else the pool has. -/
theorem removeTransactionKeyimages_eq (images : AList fun _ : KeyImage => List Hash) (id : Hash)
    (vin : List TxIn) : ∃ t, ∀ p : TxPool, p.spentKeyImages = images →
      p.removeTransactionKeyimages id vin = p.withSpentKeyImages t := by
  induction vin generalizing images with
  | nil => exact ⟨images, fun p hp => hp ▸ rfl⟩
  | cons i rest ih =>
    cases i with
    | toKey amount offsets ki =>
      simp only [removeTransactionKeyimages]
      cases hlookup : images.lookup ki with
      | none => exact ⟨images, fun p hp => by simp only [hp, hlookup]; exact hp ▸ rfl⟩
      | some set =>
        by_cases hin : id ∈ set
        · rcases ih (if set.erase id = [] then images.erase ki
            else images.insert ki (set.erase id)) with ⟨t, ht⟩
          refine ⟨t, fun p hp => ?_⟩
          simp only [hp, hlookup, if_pos hin]
          exact ht _ rfl
        · exact ⟨images, fun p hp => by simp only [hp, hlookup, if_neg hin]; exact hp ▸ rfl⟩
    | gen | toScript | toScripthash => exact ⟨images, fun p hp => hp ▸ rfl⟩

theorem drop_eq (p : TxPool) (id : Hash) (m : TxMeta) (vin : List TxIn) :
    ∃ t, p.drop id m vin = (((p.withTable (p.txpool.erase id)).reduceTxpoolWeight
      m.weight).withSpentKeyImages t).removeTxFromTransientLists id m.sensitive := by
  rcases removeTransactionKeyimages_eq p.spentKeyImages id vin with ⟨t, ht⟩
  exact ⟨t, congrArg (fun q => removeTxFromTransientLists q id m.sensitive) (ht _ rfl)⟩

theorem drop_table (p : TxPool) (id : Hash) (m : TxMeta) (vin : List TxIn) :
    (p.drop id m vin).txpool = p.txpool.erase id := by
  rcases drop_eq p id m vin with ⟨t, ht⟩
  rw [ht]
  rfl

/-- A check of the inputs changes their cache and nothing else. -/
theorem checkTxInputs_eq {getTx : Option Transaction} {txid : Hash} {tvc : Tvc}
    {maxUsedBlockId : Hash} {keptByBlock : Bool} {r : InputCheck}
    (hcheck : p.checkTxInputs E v getTx txid tvc maxUsedBlockId keptByBlock = some (r, p')) :
    ∃ cache, p' = { p with inputCache := cache } := by
  unfold TxPool.checkTxInputs at hcheck
  split at hcheck
  · cases hcheck
    exact ⟨p.inputCache, rfl⟩
  · rcases map_eq_some_iff.mp hcheck with ⟨tx, -, heq⟩
    cases heq
    split
    · exact ⟨p.inputCache, rfl⟩
    · exact ⟨_, rfl⟩

/-- A transaction that enters the lists changes nothing else. -/
theorem addTxToTransientLists_eq (p : TxPool) (id : Hash) (feeRate receiveTime : UInt64) :
    ∃ l, p.addTxToTransientLists id feeRate receiveTime = { p with
        txsByFeeAndReceiveTime := l
        addedTxsById := p.addedTxsById.insert id p.clock.now
        addedTxsStartTime := if p.addedTxsStartTime = 0 then p.clock.now else p.addedTxsStartTime
        clock := p.clock.tick } := by
  have hsorted : ∀ (q : TxPool) (e : SortedTx), ∃ l,
      q.addSorted e = { q with txsByFeeAndReceiveTime := l } := by
    intro q e
    unfold addSorted
    split
    · exact ⟨q.txsByFeeAndReceiveTime, rfl⟩
    · exact ⟨_, rfl⟩
  rcases hsorted (if id ∈ p.addedTxsById then p.eraseSorted id else p)
    ⟨feeRate, receiveTime, id⟩ with ⟨l, hl⟩
  refine ⟨l, ?_⟩
  simp only [addTxToTransientLists, hl]
  split <;> rfl

theorem addTxToTransientLists_table (p : TxPool) (id : Hash) (feeRate receiveTime : UInt64) :
    (p.addTxToTransientLists id feeRate receiveTime).txpool = p.txpool := by
  rcases addTxToTransientLists_eq p id feeRate receiveTime with ⟨l, hl⟩
  rw [hl]

theorem getMeta_eq {m : TxMeta} {blob : Blob} (h : p.txpool.lookup id = some (m, blob)) :
    p.getMeta id = some m := by
  rw [getMeta, h]
  rfl

theorem isNone_getMeta (p : TxPool) (id : Hash) : (p.getMeta id).isNone = true ↔ id ∉ p.txpool := by
  rw [getMeta, isNone_map, isNone_iff_eq_none, AList.lookup_eq_none]

theorem lookup_of_erase {table : AList fun _ : Hash => TxMeta × Blob} {x : Hash}
    {e : TxMeta × Blob} (h : (table.erase id).lookup x = some e) : table.lookup x = some e := by
  by_cases heq : x = id
  · subst heq
    rw [AList.lookup_erase] at h
    cases h
  · rwa [AList.lookup_erase_ne heq] at h

theorem lookup_of_insert {table : AList fun _ : Hash => TxMeta × Blob} {x : Hash}
    {e e' : TxMeta × Blob} (h : (table.insert id e).lookup x = some e') :
    x = id ∧ e' = e ∨ x ≠ id ∧ table.lookup x = some e' := by
  by_cases heq : x = id
  · rw [heq, AList.lookup_insert] at h
    exact Or.inl ⟨heq, (some.inj h).symm⟩
  · rw [AList.lookup_insert_ne heq] at h
    exact Or.inr ⟨heq, h⟩

/-- The table after metadata were replaced: the blobs stay. -/
theorem lookup_of_updateMeta {m m' : TxMeta} {x : Hash} {blob : Blob}
    (h : (p.updateMeta id m).txpool.lookup x = some (m', blob)) :
    (x = id ∧ m' = m ∧ ∃ m₀, p.txpool.lookup id = some (m₀, blob)) ∨
      x ≠ id ∧ p.txpool.lookup x = some (m', blob) := by
  unfold updateMeta at h
  split at h
  · rename_i m₀ blob₀ hlookup
    rcases lookup_of_insert h with ⟨hx, heq⟩ | hold
    · cases heq
      exact Or.inl ⟨hx, rfl, m₀, hlookup⟩
    · exact Or.inr hold
  · rename_i hnone
    refine Or.inr ⟨fun hx => ?_, h⟩
    rw [hx, hnone] at h
    cases h

/-- What holds of the metadata of an entry holds of all that are found under its id. -/
theorem forall_lookup {Q : TxMeta → Prop} {m : TxMeta} {blob : Blob}
    (hlookup : p.txpool.lookup id = some (m, blob)) (h : Q m) (m' : TxMeta) (blob' : Blob)
    (hlookup' : p.txpool.lookup id = some (m', blob')) : Q m' := by
  rw [hlookup] at hlookup'
  cases hlookup'
  exact h

/-! ## Marks and removals -/

variable {P : TxPool → Prop}

/-- What the mark of one entry keeps, `mark_double_spend` keeps. -/
theorem markDoubleSpend_rec (hmark : ∀ q id m blob, P q → q.txpool.lookup id = some (m, blob) →
      P (q.updateMeta id { m with doubleSpendSeen := true }))
    (vin : List TxIn) (h : P p) : P (p.markDoubleSpend vin) := by
  have hone : ∀ q ki, P q → P (q.markImage ki) := by
    intro q ki hq
    refine List.foldlRecOn _ _ hq fun q hq id _ => ?_
    split
    · rename_i m hmeta
      split
      · exact hq
      · rcases map_eq_some_iff.mp hmeta with ⟨⟨m₀, blob⟩, hlookup, rfl⟩
        exact hmark q id m₀ blob hq hlookup
    · exact hq
  induction vin generalizing p with
  | nil => exact h
  | cons i rest ih =>
    cases i with
    | toKey amount offsets ki => exact ih (hone p ki h)
    | gen | toScript | toScripthash => exact h

/-- What the removal of an entry keeps, `prune` keeps. A blob that does not parse brings the table
    of before back. -/
theorem prune_rec (hdrop : ∀ q id m blob tx, P q → q.txpool.lookup id = some (m, blob) →
      E.parseTxPrefix blob = some tx → P (q.drop id m tx.vin))
    (hback : ∀ q id m blob, P q → q.txpool.lookup id = some (m, blob) →
      E.parseTxPrefix blob = none → P (q.withTable p.txpool))
    (bytes : UInt64) (h : P p) : P (p.prune E bytes) := by
  have hloop : ∀ ids bytes q, P q → P (pruneLoop E bytes p.txpool ids q) := by
    intro ids bytes
    induction ids with
    | nil => exact fun q hq => hq
    | cons id rest ih =>
      intro q hq
      simp only [pruneLoop]
      split
      · exact hq
      · split
        · exact ih q hq
        · rename_i m blob hlookup
          split
          · exact ih q hq
          · cases hparse : E.parseTxPrefix blob with
            | none =>
              rw [pruneEntry, hparse]
              exact hback q id m blob hq hlookup hparse
            | some tx =>
              rw [pruneEntry, hparse]
              exact ih _ (hdrop q id m blob tx hq hlookup hparse)
  exact hloop _ _ p h

/-- What `take_tx` takes out, and where the transaction comes from. -/
theorem takeTx_some {t : TakenTx} (h : p.takeTx E id = some (t, p')) :
    ∃ m, p.txpool.lookup id = some (m, t.blob) ∧ p' = p.drop id m t.tx.vin ∧
      (p.parsedTxCache.lookup id = some t.tx ∨ E.parseTxBase t.blob = some t.tx ∨
        E.parseTx t.blob = some t.tx) := by
  unfold takeTx at h
  split at h
  · cases h
  · rename_i m blob hlookup
    rcases map_eq_some_iff.mp h with ⟨tx, hparsed, heq⟩
    cases heq
    refine ⟨m, hlookup, rfl, ?_⟩
    split at hparsed
    · rename_i hcached
      cases hparsed
      exact Or.inl hcached
    · split at hparsed
      · exact Or.inr (Or.inl hparsed)
      · exact Or.inr (Or.inr hparsed)

/-! ## Adding a transaction -/

/-- An entry is the one a call has added. -/
structure Entered (c : AddTxCall) (txRelay : RelayMethod) (m : TxMeta) (blob : Blob) : Prop where
  blob : blob = c.blob
  weight : m.weight = c.txWeight
  relay : m.relay = txRelay
  pruned : m.pruned = c.tx.pruned

/-- What `add_tx` has found out when it comes to storing a transaction. Only the caches of the pool
    have changed since. -/
structure Checks (E : Externals) (p : TxPool) (c : AddTxCall) (tvc : Tvc) (q : TxPool) : Prop where
  passed : (nicVerified E c tvc).1 = true
  unspent : c.txRelay = .block ∨ p.haveTxKeyimgesAsSpent c.tx c.id = false
  pool : ∃ cache, q = { p with inputCache := cache } ∨
    q = { p with inputCache := cache }.cacheParsed c.id c.tx

/-- How a call stores a transaction: with which metadata, and whether it may replace an entry. -/
structure Storing (q : TxPool) (c : AddTxCall) (txRelay : RelayMethod) (m : TxMeta)
    (replace : Bool) : Prop where
  entered : Entered c txRelay m c.blob
  method : txRelay = c.txRelay ∧ replace = false ∨
    txRelay = q.relayAs c ∧ (q.upgradesRelay c || (q.getMeta c.id).isNone) = true

/-- How a call of `add_tx` ends. The weight of a transaction that was stored is added if there was
    no entry before. -/
inductive Outcome (E : Externals) (p : TxPool) (c : AddTxCall) (now : UInt64) (tvc : Tvc) :
    Bool → TxPool → Prop
  | refused : Outcome E p c now tvc false p
  | conflicting : Outcome E p c now tvc false (p.markDoubleSpend c.tx.vin)
  | failing (q : TxPool) : Checks E p c tvc q → Outcome E p c now tvc false q
  | known (q : TxPool) (bytes : UInt64) : Checks E p c tvc q → c.id ∈ q.txpool →
      Outcome E p c now tvc true (q.prune E bytes)
  | unstored (q : TxPool) (txRelay : RelayMethod) (m : TxMeta) (replace : Bool) :
      Checks E p c tvc q → Storing q c txRelay m replace →
      (q.storeTx E c txRelay m now replace).1 = false →
      Outcome E p c now tvc false (q.storeTx E c txRelay m now replace).2
  | stored (q : TxPool) (txRelay : RelayMethod) (m : TxMeta) (replace : Bool) (bytes : UInt64) :
      Checks E p c tvc q → Storing q c txRelay m replace →
      (q.storeTx E c txRelay m now replace).1 = true →
      Outcome E p c now tvc true ((if c.id ∈ q.txpool then (q.storeTx E c txRelay m now replace).2
        else (q.storeTx E c txRelay m now replace).2.addTxpoolWeight c.txWeight).prune E bytes)

variable {c : AddTxCall} {tvc : Tvc} {now : UInt64}

theorem Checks.table (h : Checks E p c tvc p') : p'.txpool = p.txpool := by
  rcases h.pool with ⟨cache, rfl | rfl⟩
  · rfl
  · rfl

/-- The table after a transaction was stored, or not. -/
theorem storeTx_table (p : TxPool) (c : AddTxCall) (txRelay : RelayMethod) (m : TxMeta)
    (now : UInt64) (replace : Bool) :
    (p.storeTx E c txRelay m now replace).2.txpool =
      if (p.storeTx E c txRelay m now replace).1 then p.txpool.insert c.id (m, c.blob)
      else p.txpool := by
  rcases insertKeyImages_eq p c.id txRelay c.tx.vin with ⟨t, ht⟩
  simp only [storeTx, ht]
  split
  · rfl
  · rw [if_pos rfl, addTxToTransientLists_table]
    rfl

/-- A transaction that may not replace an entry is stored only if it is new. -/
theorem not_mem_of_storeTx {txRelay : RelayMethod} {m : TxMeta}
    (h : (p.storeTx E c txRelay m now false).1 = true) : c.id ∉ p.txpool := by
  intro hin
  rcases insertKeyImages_eq p c.id txRelay c.tx.vin with ⟨t, ht⟩
  simp [storeTx, ht, withSpentKeyImages, hin] at h

/-- An entry that is replaced has the relay method it is entered with. -/
theorem relay_of_replaced (h : (p.upgradesRelay c || (p.getMeta c.id).isNone) = true) :
    (if p.upgradesRelay c then p.relayAs c else ((p.getMeta c.id).map TxMeta.relay).getD .none) =
      p.relayAs c := by
  split
  · rfl
  · rename_i hsame
    rw [Bool.not_eq_true] at hsame
    rw [hsame, Bool.false_or, isNone_iff_eq_none] at h
    rw [h]
    -- Only the lowest method is no upgrade from it.
    have hrank : ¬ (0 < (p.relayAs c).rank) := by
      simpa [upgradesRelay, h, RelayMethod.rank] using hsame
    cases hrelay : p.relayAs c with
    | none => rfl
    | loc | forward | stem | fluff | block => simp [hrelay, RelayMethod.rank] at hrank

variable {q : TxPool} {check : InputCheck}

/-- The transaction of a block whose inputs do not check out. -/
theorem enterTx_unverified
    (hq : Checks E p c tvc (q.cacheParsed c.id c.tx)) (hok : check.ok = false)
    (hblock : c.txRelay = .block) :
    Outcome E p c now tvc (q.enterTx E c now check).1 (q.enterTx E c now check).2.2 := by
  simp only [enterTx, hok, hblock, addTxUnverified]
  generalize hm : ({ maxUsedBlockId := nullHash, lastFailedId := nullHash, weight := c.txWeight
                     fee := c.tx.fee, maxUsedBlockHeight := 0, lastFailedHeight := 0
                     receiveTime := now, relay := .block, relayed := c.relayed
                     doubleSpendSeen := q.haveTxKeyimgesAsSpent c.tx c.id
                     pruned := c.tx.pruned } : TxMeta) = m
  have hstoring : Storing (q.cacheParsed c.id c.tx) c .block m false := by
    subst hm
    exact ⟨⟨rfl, rfl, rfl, rfl⟩, Or.inl ⟨hblock.symm, rfl⟩⟩
  cases hs : ((q.cacheParsed c.id c.tx).storeTx E c .block m now false).1 with
  | false => simpa [hs] using Outcome.unstored _ _ _ _ hq hstoring hs
  | true =>
    have hend := fun bytes => Outcome.stored _ _ _ _ bytes hq hstoring hs
    simp only [if_neg (not_mem_of_storeTx hs)] at hend
    simpa [hs] using hend _

/-- A transaction whose inputs check out. -/
theorem enterTx_verified
    (hq : Checks E p c tvc (if c.txRelay = .block then q.cacheParsed c.id c.tx else q))
    (hok : check.ok = true) :
    Outcome E p c now tvc (q.enterTx E c now check).1 (q.enterTx E c now check).2.2 := by
  simp only [enterTx, hok, addTxVerified]
  generalize (if c.txRelay = .block then q.cacheParsed c.id c.tx else q) = q at hq
  have hnone := isNone_getMeta q c.id
  by_cases hreplace : (q.upgradesRelay c || (q.getMeta c.id).isNone) = true
  · simp only [if_pos hreplace]
    have hrelay := relay_of_replaced hreplace
    generalize hm : ({ maxUsedBlockId := _, lastFailedId := _, weight := _, fee := _
                       maxUsedBlockHeight := _, lastFailedHeight := _, receiveTime := _
                       relay := _, relayed := _, doubleSpendSeen := _, pruned := _ } : TxMeta) = m
    have hstoring : Storing q c (q.relayAs c) m true := by
      subst hm
      exact ⟨⟨rfl, rfl, hrelay, rfl⟩, Or.inr ⟨rfl, hreplace⟩⟩
    cases hs : (q.storeTx E c (q.relayAs c) m now true).1 with
    | false => simpa [hs] using Outcome.unstored _ _ _ _ hq hstoring hs
    | true =>
      have hend := fun bytes => Outcome.stored _ _ _ _ bytes hq hstoring hs
      split_ifs at hend with hin
      · simpa [hs, hin, hnone] using hend _
      · simpa [hs, hin, hnone] using hend _
  · rw [Bool.or_eq_true, not_or] at hreplace
    have hin : c.id ∈ q.txpool := by
      by_contra hout
      exact hreplace.2 (hnone.mpr hout)
    simpa [hreplace] using Outcome.known q _ hq hin

/-- The ways `add_tx` can end. -/
theorem addTx_outcome (E : Externals) (v : ChainView) (p : TxPool) (c : AddTxCall) (now : UInt64)
    (tvc : Tvc) : Outcome E p c now tvc (p.addTx E v c now tvc).1 (p.addTx E v c now tvc).2.2 := by
  simp only [addTx]
  split
  · rename_i hrefused
    simp only [addTxRefusal] at hrefused
    split_ifs at hrefused <;> cases hrefused
    all_goals first | exact Outcome.refused | exact Outcome.conflicting
  · rename_i haccepted
    simp only [addTxRefusal] at haccepted
    split_ifs at haccepted with _ hnic _ _ _ hspent
    have hunspent : c.txRelay = .block ∨ p.haveTxKeyimgesAsSpent c.tx c.id = false := by
      by_cases hblock : c.txRelay = .block
      · exact Or.inl hblock
      · exact Or.inr (by simpa [hblock] using hspent)
    split
    · exact Outcome.refused
    · rename_i check p₁ hcheck
      rcases checkTxInputs_eq hcheck with ⟨cache, rfl⟩
      have hchecks : ∀ q, q = { p with inputCache := cache } ∨
          q = { p with inputCache := cache }.cacheParsed c.id c.tx → Checks E p c tvc q :=
        fun q hq => ⟨by simpa using hnic, hunspent, cache, hq⟩
      cases hok : check.ok with
      | true =>
        refine enterTx_verified (hchecks _ ?_) hok
        split
        · exact Or.inr rfl
        · exact Or.inl rfl
      | false =>
        by_cases hblock : c.txRelay = .block
        · exact enterTx_unverified (hchecks _ (Or.inr rfl)) hok hblock
        · simpa [enterTx, hok, hblock] using Outcome.failing _ (hchecks _ (Or.inl rfl))

/-! ## Turns of `validate` -/

/-- The empty object is refused, and nothing changes. -/
theorem addTx_empty (htx : c.tx = {}) (hversion : c.version ≠ c.nicVerifiedHfVersion) (p : TxPool)
    (v : ChainView) (now : UInt64) (tvc : Tvc) :
    (p.addTx E v c now tvc).1 = false ∧ (p.addTx E v c now tvc).2.2 = p := by
  have hrefused : ∀ q, ¬ Checks E p c tvc q := by
    intro q hq
    refine (nicVerified_ok (fun hsame => absurd hsame hversion) hq.passed).1 ?_
    rw [htx]
  have hend := addTx_outcome E v p c now tvc
  generalize p.addTx E v c now tvc = r at hend ⊢
  rcases r with ⟨ok, tvc', p'⟩
  cases hend with
  | refused => exact ⟨rfl, rfl⟩
  | conflicting => exact ⟨rfl, by rw [htx]; rfl⟩
  | failing q hq => exact absurd hq (hrefused _)
  | known q bytes hq => exact absurd hq (hrefused _)
  | unstored q txRelay m replace hq => exact absurd hq (hrefused _)
  | stored q txRelay m replace bytes hq => exact absurd hq (hrefused _)

/-- The call by which `validate` adds back what it has taken out. -/
def readdCall (t : TakenTx) (e : Hash × TxMeta) (version : UInt8) : AddTxCall :=
  { tx := t.tx, id := e.1, blob := t.blob, txWeight := e.2.weight, txRelay := e.2.relay
    relayed := t.relayed, version }

variable {version : UInt8}

/-- The two ways a turn of `validate` goes. When nothing can be taken out the empty object is
    added, which is refused. -/
theorem revalidate_cases (E : Externals) (v : ChainView) (hversion : version ≠ 0) (now : UInt64)
    (p : TxPool) (e : Hash × TxMeta) :
    p.revalidate E v version now e = p ∨ ∃ t p₁, p.takeTx E e.1 = some (t, p₁) ∧ e.1 ∉ p₁.txpool ∧
        p.revalidate E v version now e = if (p₁.addTx E v (readdCall t e version) now {}).1 then
            (p₁.addTx E v (readdCall t e version) now {}).2.2.updateMeta e.1 e.2
          else (p₁.addTx E v (readdCall t e version) now {}).2.2 := by
  unfold revalidate
  cases htake : p.takeTx E e.1 with
  | none =>
    left
    have hrefused := addTx_empty (E := E) (c := readdCall ⟨{}, [], 0, 0, false, false⟩ e version)
      rfl hversion p v now {}
    change (if (p.addTx E v (readdCall ⟨{}, [], 0, 0, false, false⟩ e version) now {}).1 then _
      else (p.addTx E v (readdCall ⟨{}, [], 0, 0, false, false⟩ e version) now {}).2.2) = p
    rw [hrefused.1, hrefused.2]
    rfl
  | some taken =>
    right
    rcases taken with ⟨t, p₁⟩
    rcases takeTx_some htake with ⟨m, -, rfl, -⟩
    refine ⟨t, _, rfl, ?_, rfl⟩
    rw [drop_table, AList.mem_erase]
    exact fun hin => hin.1 rfl

/-! ## Turns of `fill_block_template` -/

/-- Metadata that differ in nothing the indexes depend on. -/
structure Fixed (m m' : TxMeta) : Prop where
  weight : m'.weight = m.weight
  relay : m'.relay = m.relay
  pruned : m'.pruned = m.pruned

theorem Fixed.refl (m : TxMeta) : Fixed m m :=
  ⟨rfl, rfl, rfl⟩

theorem Fixed.trans {m m' m'' : TxMeta} (h : Fixed m m') (h' : Fixed m' m'') : Fixed m m'' :=
  ⟨h'.weight.trans h.weight, h'.relay.trans h.relay, h'.pruned.trans h.pruned⟩

theorem isTransactionReadyToGo_eq {txd : TxMeta} {blob : Blob} {r : Readiness}
    (h : p.isTransactionReadyToGo E v txd id blob = some (r, p')) :
    Fixed txd r.txd ∧ r.txd.fee = txd.fee ∧ ∃ cache, p' = { p with inputCache := cache } := by
  simp only [isTransactionReadyToGo] at h
  split at h
  · cases h
    exact ⟨Fixed.refl txd, rfl, p.inputCache, rfl⟩
  · rcases map_eq_some_iff.mp h with ⟨⟨check, p₁⟩, hcheck, hr⟩
    split at hr
    · cases hr
      exact ⟨⟨rfl, rfl, rfl⟩, rfl, checkTxInputs_eq hcheck⟩
    · cases hr
      exact ⟨⟨rfl, rfl, rfl⟩, rfl, checkTxInputs_eq hcheck⟩

/-- An induction over the turns: an entry is passed over, or it passes the weight rules. -/
theorem fillLoop_rec {P : List Hash → Filling → Prop} {a : TemplateArgs}
    (hskip : ∀ id rest f, P (id :: rest) f → P rest f)
    (hready : ∀ id rest f m blob coinbase, f.pool.txpool.lookup id = some (m, blob) →
      P (id :: rest) f → P rest (fillReady E v f id m blob coinbase))
    {ids : List Hash} {f : Filling} (h : P ids f) : P [] (fillLoop E v a ids f) := by
  have hstop : ∀ ids f, P ids f → P [] f := by
    intro ids
    induction ids with
    | nil => exact fun f hf => hf
    | cons id rest ih => exact fun f hf => ih f (hskip id rest f hf)
  induction ids generalizing f with
  | nil => exact h
  | cons id rest ih =>
    simp only [fillLoop]
    split
    · exact ih (hskip id rest f h)
    · rename_i m blob hlookup
      split
      · exact ih (hskip id rest f h)
      · split
        · exact ih (hskip id rest f h)
        · exact hstop _ f h
        · exact ih (hready id rest f m blob _ hlookup h)

/-- A template changes the cache and some metadata: what these keep, it keeps. -/
theorem fillBlockTemplate_preserves {a : TemplateArgs} {f : Filling}
    (hcache : ∀ p cache, P p → P { p with inputCache := cache })
    (hmeta : ∀ p id m m' blob, P p → p.txpool.lookup id = some (m, blob) → Fixed m m' →
      P (p.updateMeta id m'))
    (h : P p) (hfill : p.fillBlockTemplate E v a = some f) : P f.pool := by
  rcases map_eq_some_iff.mp hfill with ⟨best, -, rfl⟩
  refine fillLoop_rec (P := fun _ f => P f.pool) (fun _ _ _ hf => hf) ?_ h
  intro id rest f m blob coinbase hlookup hf
  simp only [fillReady]
  split
  · exact hf
  · rename_i r pool hready
    rcases isTransactionReadyToGo_eq hready with ⟨hfixed, -, cache, rfl⟩
    have hpool : P (if r.txd = m then { f.pool with inputCache := cache }
        else { f.pool with inputCache := cache }.updateMeta id r.txd) := by
      split
      · exact hcache f.pool cache hf
      · exact hmeta _ id m r.txd blob (hcache f.pool cache hf) hlookup hfixed
    split
    · exact hpool
    · split <;> exact hpool

end TxPool

end CocaineNode
