import CocaineNode.Theory.TxPool

/-!
# Entries of the Pool

What the operations of the pool do to the entries of its table. An entry that
is there after an operation was there before, with the same blob and the same
weight, relay method and pruning, unless it is the one that was just added.
This holds for `validate` too, which takes every transaction out and adds it
back: it restores the metadata it has read before.

## Theorems

* `TxPool.validate_rec`: An induction over the turns of `validate`.
* `TxPool.validate_inherits`: The entries after `validate`.
-/

namespace CocaineNode

open List AList

namespace TxPool

/-- An entry comes from one that was there before. -/
def Inherits (p p' : TxPool) (id : Hash) : Prop :=
  ∀ m' blob, p'.txpool.lookup id = some (m', blob) →
    ∃ m, p.txpool.lookup id = some (m, blob) ∧ Fixed m m'

variable {E : Externals} {v : ChainView} {p p' p'' : TxPool} {x : Hash}

theorem Inherits.of_table (h : p'.txpool = p.txpool) : Inherits p p' x := by
  intro m' blob hlookup
  rw [h] at hlookup
  exact ⟨m', hlookup, Fixed.refl m'⟩

theorem Inherits.refl (p : TxPool) (x : Hash) : Inherits p p x :=
  Inherits.of_table rfl

theorem Inherits.trans (h : Inherits p p' x) (h' : Inherits p' p'' x) : Inherits p p'' x := by
  intro m'' blob hlookup
  rcases h' m'' blob hlookup with ⟨m', hlookup', hfixed'⟩
  rcases h m' blob hlookup' with ⟨m, hbefore, hfixed⟩
  exact ⟨m, hbefore, hfixed.trans hfixed'⟩

variable {id : Hash}

theorem Inherits.of_erase (h : p'.txpool = p.txpool.erase id) : Inherits p p' x := by
  intro m' blob hlookup
  rw [h] at hlookup
  exact ⟨m', lookup_of_erase hlookup, Fixed.refl m'⟩

theorem Inherits.not_mem (h : Inherits p p' x) (hx : x ∉ p.txpool) : x ∉ p'.txpool := by
  intro hin
  rcases Option.isSome_iff_exists.mp (lookup_isSome.mpr hin) with ⟨⟨m', blob⟩, hlookup⟩
  rcases h m' blob hlookup with ⟨m, hbefore, _⟩
  exact hx (lookup_isSome.mp (by rw [hbefore]; rfl))

/-! ## Metadata -/

theorem updateMeta_inherits {m' : TxMeta}
    (hm : ∀ m blob, p.txpool.lookup id = some (m, blob) → Fixed m m') (x : Hash) :
    Inherits p (p.updateMeta id m') x := by
  intro mx blob hx
  rcases lookup_of_updateMeta hx with ⟨rfl, rfl, m, hlookup⟩ | ⟨-, hold⟩
  · exact ⟨m, hlookup, hm m blob hlookup⟩
  · exact ⟨mx, hold, Fixed.refl mx⟩

theorem markDoubleSpend_inherits (p : TxPool) (vin : List TxIn) (x : Hash) :
    Inherits p (p.markDoubleSpend vin) x := by
  refine markDoubleSpend_rec (P := fun q => Inherits p q x) ?_ vin (Inherits.refl p x)
  intro q id m blob hq hlookup
  refine hq.trans (updateMeta_inherits (forall_lookup hlookup ?_) x)
  exact ⟨rfl, rfl, rfl⟩

/-! ## Entries that leave -/

theorem prune_inherits (p : TxPool) (bytes : UInt64) (x : Hash) :
    Inherits p (p.prune E bytes) x := by
  refine prune_rec (P := fun q => Inherits p q x) ?_ ?_ bytes (Inherits.refl p x)
  · intro q id m blob tx hq _ _
    exact hq.trans (Inherits.of_erase (drop_table q id m tx.vin))
  · intro q id m blob _ _ _
    exact Inherits.of_table rfl

/-! ## Entries that come -/

/-- What becomes of the entries when a call adds one, or fails to. -/
structure Entering (p : TxPool) (c : AddTxCall) (txRelay : RelayMethod) (ok : Bool)
    (p' : TxPool) : Prop where
  others : ∀ x, x ≠ c.id → Inherits p p' x
  failed : ok = false → Inherits p p' c.id
  entry : Inherits p p' c.id ∨
    ∀ m blob, p'.txpool.lookup c.id = some (m, blob) → Entered c txRelay m blob

variable {c : AddTxCall} {txRelay : RelayMethod} {ok : Bool}

/-- A call that changes no entry. -/
theorem Entering.of_inherits (h : ∀ x, Inherits p p' x) : Entering p c txRelay ok p' :=
  ⟨fun x _ => h x, fun _ => h c.id, Or.inl (h c.id)⟩

/-- A call is over, and entries only leave or get other metadata. -/
theorem Entering.after (h : Entering p c txRelay ok p') (hp : ∀ x, Inherits p' p'' x) :
    Entering p c txRelay ok p'' := by
  refine ⟨fun x hx => (h.others x hx).trans (hp x), fun hok => (h.failed hok).trans (hp c.id), ?_⟩
  rcases h.entry with hold | hnew
  · exact Or.inl (hold.trans (hp c.id))
  · refine Or.inr fun m'' blob hlookup => ?_
    rcases hp c.id m'' blob hlookup with ⟨m', hlookup', hfixed⟩
    have hentered := hnew m' blob hlookup'
    exact ⟨hentered.blob, hfixed.weight.trans hentered.weight, hfixed.relay.trans hentered.relay,
      hfixed.pruned.trans hentered.pruned⟩

/-- Every entry comes from before, or is the one the call has added. -/
theorem Entering.source (h : Entering p c txRelay ok p') {m : TxMeta} {blob : Blob}
    (hlookup : p'.txpool.lookup x = some (m, blob)) :
    (∃ m₀, p.txpool.lookup x = some (m₀, blob) ∧ Fixed m₀ m) ∨ Entered c txRelay m blob := by
  by_cases hx : x = c.id
  · rw [hx] at hlookup ⊢
    exact h.entry.imp (fun hold => hold m blob hlookup) fun hnew => hnew m blob hlookup
  · exact Or.inl (h.others x hx m blob hlookup)

theorem storeTx_entries {q : TxPool} {m : TxMeta} {now : UInt64} {replace : Bool}
    (htable : q.txpool = p.txpool) (hm : Entered c txRelay m c.blob)
    (hs : (q.storeTx E c txRelay m now replace).1 = true)
    (hp' : p'.txpool = (q.storeTx E c txRelay m now replace).2.txpool) :
    Entering p c txRelay true p' := by
  rw [storeTx_table, if_pos hs, htable] at hp'
  refine ⟨fun x hx m' blob hin => ?_, fun hok => ?_, Or.inr fun m' blob hin => ?_⟩
  · rw [hp', lookup_insert_ne hx] at hin
    exact ⟨m', hin, Fixed.refl m'⟩
  · cases hok
  · rw [hp', lookup_insert, Option.some.injEq, Prod.mk.injEq] at hin
    rcases hin with ⟨rfl, rfl⟩
    exact hm

theorem relayAs_of_not_stem (p : TxPool) (h : c.id ∉ p.txpool) : p.relayAs c = c.txRelay := by
  have hnone : p.getMeta c.id = none := by
    rw [getMeta, lookup_eq_none.mpr h]
    rfl
  rw [relayAs, hnone]
  exact if_neg fun hloop => by cases hloop.2

/-- The entries after `add_tx`. -/
theorem addTx_entries (p : TxPool) (v : ChainView) (c : AddTxCall) (now : UInt64) (tvc : Tvc) :
    ∃ ok : Bool, Entering p c (if ok then p.relayAs c else c.txRelay) (p.addTx E v c now tvc).1
      (p.addTx E v c now tvc).2.2 := by
  have hend := addTx_outcome E v p c now tvc
  generalize p.addTx E v c now tvc = r at hend ⊢
  rcases r with ⟨ok, tvc', p'⟩
  cases hend with
  | refused => exact ⟨true, Entering.of_inherits (Inherits.refl _)⟩
  | conflicting => exact ⟨true, Entering.of_inherits (markDoubleSpend_inherits p c.tx.vin)⟩
  | failing q hq => exact ⟨true, Entering.of_inherits fun x => Inherits.of_table hq.table⟩
  | known q bytes hq =>
    exact ⟨true, Entering.of_inherits fun x =>
      (Inherits.of_table hq.table).trans (prune_inherits q bytes x)⟩
  | unstored q txRelay m replace hq hm hs =>
    refine ⟨true, Entering.of_inherits fun x => Inherits.of_table ?_⟩
    rw [storeTx_table, hs]
    exact hq.table
  | stored q txRelay m replace bytes hq hm hs =>
    have hrelayAs : q.relayAs c = p.relayAs c := by
      unfold relayAs getMeta
      rw [hq.table]
    have hentering : Entering p c txRelay true ((if c.id ∈ q.txpool
        then (q.storeTx E c txRelay m now replace).2
        else (q.storeTx E c txRelay m now replace).2.addTxpoolWeight
          c.txWeight).prune E bytes) := by
      refine Entering.after (storeTx_entries hq.table hm.entered hs ?_) (prune_inherits _ bytes)
      split <;> rfl
    rcases hm.method with ⟨hrelay, -⟩ | ⟨hrelay, -⟩
    · refine ⟨false, ?_⟩
      rw [if_neg Bool.false_ne_true, ← hrelay]
      exact hentering
    · refine ⟨true, ?_⟩
      rw [if_pos rfl, ← hrelayAs, ← hrelay]
      exact hentering

/-- What is there under the id of a call, when nothing was before. -/
theorem addTx_entered (hnew : c.id ∉ p.txpool) (v : ChainView) (now : UInt64) (tvc : Tvc)
    (m : TxMeta) (blob : Blob)
    (h : (p.addTx E v c now tvc).2.2.txpool.lookup c.id = some (m, blob)) :
    (p.addTx E v c now tvc).1 = true ∧ Entered c c.txRelay m blob := by
  rcases addTx_entries (E := E) p v c now tvc with ⟨ok, hentering⟩
  have hin : c.id ∈ (p.addTx E v c now tvc).2.2.txpool :=
    lookup_isSome.mp (by rw [h]; rfl)
  have hrelay : (if ok = true then p.relayAs c else c.txRelay) = c.txRelay := by
    rw [relayAs_of_not_stem p hnew, ite_self]
  rw [hrelay] at hentering
  constructor
  · by_contra hfailed
    exact (hentering.failed (by simpa using hfailed)).not_mem hnew hin
  · rcases hentering.entry with hold | hentered
    · exact absurd hin (hold.not_mem hnew)
    · exact hentered m blob h

/-! ## Entries that are taken out and added back -/

variable {version : UInt8}

/-- One turn of `validate` leaves the entries as they were, if the metadata it restores are those
    of the entry. -/
theorem revalidate_inherits (hversion : version ≠ 0) (now : UInt64) (e : Hash × TxMeta)
    (he : ∀ m blob, p.txpool.lookup e.1 = some (m, blob) → Fixed m e.2) (x : Hash) :
    Inherits p (p.revalidate E v version now e) x := by
  rcases revalidate_cases E v hversion now p e with hsame | ⟨t, p₁, htake, hnew, hturn⟩
  · rw [hsame]
    exact Inherits.refl p x
  · rcases takeTx_some htake with ⟨m, hlookup, rfl, -⟩
    rw [hturn]
    have hadded : ∀ y, y ≠ e.1 → Inherits p
        ((p.drop e.1 m t.tx.vin).addTx E v (readdCall t e version) now {}).2.2 y := by
      intro y hy
      rcases addTx_entries (E := E) (p.drop e.1 m t.tx.vin) v (readdCall t e version) now {} with
        ⟨ok, hentering⟩
      exact (Inherits.of_erase (drop_table p e.1 m t.tx.vin)).trans (hentering.others y hy)
    have hentered := addTx_entered (E := E) (c := readdCall t e version) hnew v now {}
    generalize (p.drop e.1 m t.tx.vin).addTx E v (readdCall t e version) now {} = r
      at hadded hentered ⊢
    intro m' blob hm'
    split at hm'
    · rcases lookup_of_updateMeta hm' with ⟨rfl, rfl, m₁, hlookup₁⟩ | ⟨hx, hold⟩
      · -- The entry itself has the metadata of before.
        rw [(hentered m₁ blob hlookup₁).2.blob]
        exact ⟨m, hlookup, he m t.blob hlookup⟩
      · exact hadded x hx m' blob hold
    · rename_i hfailed
      refine hadded x (fun hx => hfailed ?_) m' blob hm'
      rw [hx] at hm'
      exact (hentered m' blob hm').1

theorem mem_entriesById {e : Hash × TxMeta} (h : e ∈ p.entriesById) :
    ∃ blob, p.txpool.lookup e.1 = some (e.2, blob) := by
  rw [entriesById, mem_insertionSort, mem_map] at h
  rcases h with ⟨⟨id, m, blob⟩, hentry, rfl⟩
  exact ⟨blob, mem_lookup_iff.mpr hentry⟩

theorem nodup_entriesById (p : TxPool) : (p.entriesById.map Prod.fst).Nodup := by
  have hperm : (p.entriesById.map Prod.fst).Perm p.txpool.keys := by
    refine ((perm_insertionSort _ _).map Prod.fst).trans ?_
    rw [map_map]
    exact List.Perm.refl _
  exact hperm.nodup_iff.mpr p.txpool.keys_nodup

variable {P : TxPool → Prop}

/-- What holds before the first turn of `validate` and what a turn keeps holds afterwards. The
    entries are always those of before. -/
theorem validate_rec (p : TxPool) (v : ChainView) (hversion : version ≠ 0) (now : UInt64)
    (hstart : P p.forgetChanges)
    (hturn : ∀ q e, (∀ x, Inherits p q x) → e ∈ p.entriesById → P q →
      P (q.revalidate E v version now e)) :
    P (p.validate E v version now) ∧ ∀ x, Inherits p (p.validate E v version now) x := by
  refine foldlRecOn (motive := fun q => P q ∧ ∀ x, Inherits p q x) _ _
    ⟨hstart, fun x => Inherits.of_table rfl⟩ ?_
  intro q hq e he
  have hlisted : e ∈ p.entriesById := mem_of_mem_filter he
  refine ⟨hturn q e hq.2 hlisted hq.1, fun x => ?_⟩
  refine (hq.2 x).trans (revalidate_inherits hversion now e (fun m blob hlookup => ?_) x)
  -- The metadata were read before the first turn.
  rcases mem_entriesById hlisted with ⟨blob₀, hbefore⟩
  rcases hq.2 e.1 m blob hlookup with ⟨m₀, hlookup₀, hfixed⟩
  have heq := hlookup₀.symm.trans hbefore
  rw [Option.some.injEq, Prod.mk.injEq] at heq
  rw [heq.1] at hfixed
  exact ⟨hfixed.weight.symm, hfixed.relay.symm, hfixed.pruned.symm⟩

/-- The entries after `validate`. -/
theorem validate_inherits (p : TxPool) (v : ChainView) (hversion : version ≠ 0) (now : UInt64)
    (x : Hash) : Inherits p (p.validate E v version now) x :=
  (validate_rec (P := fun _ => True) p v hversion now trivial fun _ _ _ _ _ => trivial).2 x

/-! ## Relayed transactions -/

theorem setRelayed_rec {method : RelayMethod} {now : UInt64}
    (hturn : ∀ q id m blob, P q → q.txpool.lookup id = some (m, blob) →
      P (if m.sensitive && !(relayedMeta m method).sensitive then
        (q.updateMeta id (relayedMeta m method)).addTxToTransientLists id (E.feeRate m.fee m.weight)
          now
      else q.updateMeta id (relayedMeta m method)))
    (hashes : List Hash) (h : P p) : P (p.setRelayed E hashes method now).2 := by
  refine foldlRecOn (motive := fun (s : List Bool × TxPool) => P s.2) _ _ h ?_
  intro s hs hash _
  unfold setRelayedOne
  split
  · exact hs
  · rename_i m hmeta
    rcases Option.map_eq_some_iff.mp hmeta with ⟨⟨m₀, blob⟩, hlookup, rfl⟩
    rw [apply_ite Prod.snd]
    exact hturn s.2 hash m₀ blob hs hlookup

/-! ## Outdated transactions -/

/-- A pool with another table, weight and index of key images. -/
def withIndexes (p : TxPool) (txpool : AList fun _ : Hash => TxMeta × Blob) (txpoolWeight : UInt64)
    (spentKeyImages : AList fun _ : KeyImage => List Hash) : TxPool :=
  { p with txpool, txpoolWeight, spentKeyImages }

/-- A turn of the second loop reads and writes the table, the weight and the key images only. -/
theorem removeStuck_eq (q : TxPool) (e : Hash × UInt64) : ∃ t w k, ∀ q' : TxPool,
    q'.withIndexes q.txpool q.txpoolWeight q.spentKeyImages = q' →
      removeStuck E q' e = q'.withIndexes t w k := by
  cases hlookup : q.txpool.lookup e.1 with
  | none =>
    refine ⟨_, _, _, fun q' hq' => Eq.trans ?_ hq'.symm⟩
    rw [← hq']
    simp only [removeStuck, withIndexes, hlookup]
  | some entry =>
    cases hparse : E.parseTxPrefix entry.2 with
    | none =>
      refine ⟨_, _, _, fun q' hq' => Eq.trans ?_ hq'.symm⟩
      rw [← hq']
      simp only [removeStuck, withIndexes, hlookup, hparse]
    | some tx =>
      rcases removeTransactionKeyimages_eq q.spentKeyImages e.1 tx.vin with ⟨k, hk⟩
      refine ⟨q.txpool.erase e.1,
        ((q.withTable (q.txpool.erase e.1)).reduceTxpoolWeight e.2).txpoolWeight, k,
        fun q' hq' => ?_⟩
      rw [← hq']
      simp only [removeStuck, withIndexes, hlookup, hparse]
      exact hk _ rfl

/-- So a change of the rest may as well come after it. -/
theorem removeStuck_comm {u : TxPool → TxPool}
    (hu : ∀ q t w k, u (q.withIndexes t w k) = (u q).withIndexes t w k) (q : TxPool)
    (e : Hash × UInt64) : removeStuck E (u q) e = u (removeStuck E q e) := by
  rcases removeStuck_eq (E := E) q e with ⟨t, w, k, h⟩
  rw [h q rfl, hu]
  exact h (u q) (hu q _ _ _).symm

/-- The clock is read. -/
def ticked (p : TxPool) : TxPool :=
  { p with clock := p.clock.tick }

/-- An outdated transaction leaves the lists. -/
def unlisted (p : TxPool) (e : Hash × TxMeta) : TxPool :=
  { p.ticked.removeTxFromTransientLists e.1 e.2.sensitive with
    timedOutTransactions := p.timedOutTransactions.insert e.1 }

/-- What the first loop has come to, without the transactions that the second one will remove. -/
def settled (E : Externals) (s : TxPool × List (Hash × UInt64)) : TxPool :=
  s.2.foldl (removeStuck E) s.1

variable {s : TxPool × List (Hash × UInt64)} {e : Hash × TxMeta}

theorem settled_skip (hout : ¬ outdated s.1.clock.now e.2 = true) :
    settled E (unlistStuck s e) = (settled E s).ticked := by
  have hturn : unlistStuck s e = (s.1.ticked, s.2) := if_neg hout
  rw [hturn]
  exact foldl_hom ticked (removeStuck_comm fun _ _ _ _ => rfl)

theorem settled_remove (hout : outdated s.1.clock.now e.2 = true) {blob : Blob} {tx : Transaction}
    (hlookup : (settled E s).txpool.lookup e.1 = some (e.2, blob))
    (htx : E.parseTxPrefix blob = some tx) : ∃ marks, settled E (unlistStuck s e) =
      { (settled E s).ticked.drop e.1 e.2 tx.vin with timedOutTransactions := marks } := by
  have hturn : unlistStuck s e = (s.1.unlisted e, s.2 ++ [(e.1, e.2.weight)]) := if_pos hout
  have hrest : s.2.foldl (removeStuck E) (s.1.unlisted e) = (settled E s).unlisted e :=
    foldl_hom (unlisted · e) (removeStuck_comm fun _ _ _ _ => rfl)
  have hfound : ((settled E s).unlisted e).txpool.lookup e.1 = some (e.2, blob) := hlookup
  rcases removeTransactionKeyimages_eq (settled E s).spentKeyImages e.1 tx.vin with ⟨k, hk⟩
  refine ⟨(settled E s).timedOutTransactions.insert e.1, ?_⟩
  rw [settled, hturn, foldl_append, hrest, foldl_cons, foldl_nil, removeStuck, hfound]
  simp only [htx, drop]
  rw [hk _ (by rfl), hk _ (by rfl)]
  rfl

/-- What a reading of the clock, a mark and the removal of an entry keep,
    `remove_stuck_transactions` keeps. Each transaction that the first loop remembers is removed
    by the second, so the two loops do what one loop does that removes it at once. -/
theorem removeStuckTransactions_rec (htick : ∀ q, P q → P q.ticked)
    (hmark : ∀ q marks, P q → P { q with timedOutTransactions := marks })
    (hread : ∀ q id m blob, P q → q.txpool.lookup id = some (m, blob) →
      (E.parseTxPrefix blob).isSome)
    (hdrop : ∀ q id m blob tx, P q → q.txpool.lookup id = some (m, blob) →
      E.parseTxPrefix blob = some tx → P (q.drop id m tx.vin))
    (h : P p) : P (p.removeStuckTransactions E) := by
  have hloop : ∀ (l : List (Hash × TxMeta)) s, (l.map Prod.fst).Nodup →
      (∀ e ∈ l, ∃ blob, (settled E s).txpool.lookup e.1 = some (e.2, blob)) → P (settled E s) →
      P (settled E (l.foldl unlistStuck s)) := by
    intro l
    induction l with
    | nil => exact fun s _ _ hs => hs
    | cons e rest ih =>
      intro s hnodup hl hs
      rcases nodup_cons.mp hnodup with ⟨hid, hrest⟩
      have hl' := fun e' he' => hl e' (mem_cons_of_mem e he')
      by_cases hout : outdated s.1.clock.now e.2 = true
      · rcases hl e mem_cons_self with ⟨blob, hlookup⟩
        rcases Option.isSome_iff_exists.mp (hread _ e.1 e.2 blob hs hlookup) with ⟨tx, htx⟩
        rcases settled_remove hout hlookup htx with ⟨marks, hturn⟩
        refine ih (unlistStuck s e) hrest (fun e' he' => ?_) ?_
        · have hne : e'.1 ≠ e.1 := fun heq => hid (heq ▸ mem_map_of_mem he')
          rw [hturn]
          rw [drop_table, lookup_erase_ne hne]
          exact hl' e' he'
        · rw [hturn]
          exact hmark _ _ (hdrop _ e.1 e.2 blob tx (htick _ hs) hlookup htx)
      · have hturn := settled_skip (E := E) hout
        exact ih (unlistStuck s e) hrest (hturn ▸ hl') (hturn ▸ htick _ hs)
  exact hloop _ (p, []) (nodup_entriesById p) (fun e he => mem_entriesById he) h

end TxPool

end CocaineNode
