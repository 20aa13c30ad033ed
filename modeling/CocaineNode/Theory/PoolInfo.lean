import CocaineNode.Lib.ChangeLog
import CocaineNode.Theory.PoolRuns
import Mathlib

/-!
# What Clients are Told

A wallet keeps a copy of the ids in the pool. It asks for what has changed since
a time, and the pool answers from two lists: when each transaction was added,
and which ones were removed lately. The lists are forgotten when the pool is
validated or a node starts, and the second one is cut when it gets long or old.

The pool with its lists is a journal in the sense of `ChangeLog`, whatever the
clock says as long as it does not go back. Every operation is a run of changes
of that journal: `storeTx` and `set_relayed` enter a transaction, `drop` lets one
leave, `validate` and `init` forget and then enter again. The two start times of
the pool are no earlier than the times from which the journal is complete, so an
incremental answer is about a time for which it is.

## Theorems

* `TxPool.poolMove_follows`: The lists follow every operation on the pool.
* `TxPool.getPoolInfo_delta`: An incremental answer brings a copy up to date.
-/

namespace CocaineNode

open List Function AList Relation.ReflTransGen

namespace TxPool

open Transition ChangeLog

/-! ## The list of removed transactions -/

/-- The multimap is in the order of the times. -/
def InOrder (l : List RemovedTx) : Prop :=
  l.Pairwise fun e f => e.time ≤ f.time

variable {l : List RemovedTx}

theorem insertRemoved_last {e : RemovedTx} (h : ∀ f ∈ l, f.time ≤ e.time) :
    insertRemoved e l = l ++ [e] := by
  induction l with
  | nil => rfl
  | cons f rest ih =>
    rw [insertRemoved, if_neg (not_lt.mpr (h f mem_cons_self)),
      ih fun g hg => h g (mem_cons_of_mem f hg)]
    rfl

/-- `lower_bound` finds everything from a time on. -/
theorem mem_dropWhile_iff (h : InOrder l) (time : Time) (e : RemovedTx) :
    e ∈ l.dropWhile (fun f => f.time < time) ↔ e ∈ l ∧ time ≤ e.time := by
  induction l with
  | nil => simp
  | cons f rest ih =>
    rcases pairwise_cons.mp h with ⟨hfirst, hrest⟩
    by_cases hlt : f.time < time
    · rw [dropWhile_cons_of_pos (by simpa using hlt), ih hrest, mem_cons]
      refine ⟨fun he => ⟨Or.inr he.1, he.2⟩, fun he => ?_⟩
      rcases he with ⟨rfl | hin, hle⟩
      · exact absurd hlt (not_lt.mpr hle)
      · exact ⟨hin, hle⟩
    · rw [dropWhile_cons_of_neg (by simpa using hlt)]
      refine ⟨fun he => ⟨he, ?_⟩, fun he => he.1⟩
      rcases mem_cons.mp he with rfl | hin
      · exact not_lt.mp hlt
      · exact (not_lt.mp hlt).trans (hfirst e hin)

/-- What is left of a list that is kept short: nothing after the horizon is missing. -/
structure Cut (horizon now : Time) (l : List RemovedTx) (horizon' : Time)
    (r : List RemovedTx × Time) : Prop where
  later : horizon ≤ horizon'
  current : horizon' ≤ now
  start : r.2 = 0 ∨ horizon' ≤ r.2
  kept : r.1.Sublist l
  after : ∀ e ∈ r.1, horizon' ≤ e.time
  dropped : ∀ e ∈ l, e ∈ r.1 ∨ e.time ≤ horizon'

/-- A list that is too long loses its oldest part, up to the first entry that stays. -/
theorem cut_drop {horizon now : Time} {n : Nat} (horder : InOrder l)
    (hbounds : ∀ e ∈ l, horizon ≤ e.time ∧ e.time ≤ now) (hn : n < l.length) :
    ∃ horizon', Cut horizon now l horizon'
      (l.drop n, (((l.drop n).head?).map RemovedTx.time).getD 0) := by
  cases hdrop : l.drop n with
  | nil => exact absurd (drop_eq_nil_iff.mp hdrop) (Nat.not_le.mpr hn)
  | cons first rest =>
    have hsplit : l.take n ++ first :: rest = l := by rw [← hdrop, take_append_drop]
    have hfirst : first ∈ l := by
      rw [← hsplit]
      exact mem_append_right _ mem_cons_self
    have hpairs := horder
    rw [InOrder, ← hsplit, pairwise_append] at hpairs
    refine ⟨first.time, (hbounds first hfirst).1, (hbounds first hfirst).2, Or.inr le_rfl, ?_,
      ?_, ?_⟩
    · rw [← hdrop]
      exact drop_sublist n l
    · exact forall_mem_cons.mpr ⟨le_rfl, (pairwise_cons.mp hpairs.2.1).1⟩
    · intro e he
      rw [← hsplit] at he
      rcases mem_append.mp he with hold | hkept
      · exact Or.inr (hpairs.2.2 e hold first mem_cons_self)
      · exact Or.inl hkept

theorem trimRemoved_cut {horizon now start : Time} (horder : InOrder l)
    (hbounds : ∀ e ∈ l, horizon ≤ e.time ∧ e.time ≤ now) (hnow : horizon ≤ now)
    (hstart : start = 0 ∨ horizon ≤ start) :
    ∃ horizon', Cut horizon now l horizon' (trimRemoved now l start) := by
  unfold trimRemoved
  split
  · rename_i hlong
    exact cut_drop horder hbounds (Nat.lt_of_le_of_lt (by decide) hlong)
  · dsimp only
    split
    · exact ⟨horizon, le_rfl, hnow, hstart, List.Sublist.refl l, fun e he => (hbounds e he).1,
        fun e he => Or.inl he⟩
    · -- Something is older than half an hour, so the horizon moves there.
      rename_i hold
      rcases exists_mem_of_ne_nil _ hold with ⟨e, he⟩
      have hlt : e.time < now - 30 * 60 := by simpa using mem_takeWhile_imp he
      have hle := (hbounds e ((takeWhile_sublist _).subset he)).1
      have hmem := mem_dropWhile_iff horder (now - 30 * 60)
      refine ⟨now - 30 * 60, hle.trans hlt.le, Int.sub_le_self now (by decide), Or.inr le_rfl,
        dropWhile_sublist _, fun f hf => ((hmem f).mp hf).2, fun f hf => ?_⟩
      rcases le_total (now - 30 * 60) f.time with hlate | hearly
      · exact Or.inl ((hmem f).mpr ⟨hf, hlate⟩)
      · exact Or.inr hearly

/-! ## The pool as a journal -/

theorem lookup_insert_eq {α : Type} (t : AList fun _ : Hash => α) (id : Hash) (a : α) :
    (t.insert id a).lookup = update t.lookup id (some a) := by
  ext1 x
  by_cases hx : x = id
  · rw [hx, update_self]
    exact lookup_insert t
  · rw [update_of_ne hx]
    exact lookup_insert_ne hx

theorem lookup_erase_eq {α : Type} (t : AList fun _ : Hash => α) (id : Hash) :
    (t.erase id).lookup = update t.lookup id none := by
  ext1 x
  by_cases hx : x = id
  · rw [hx, update_self]
    exact lookup_erase id t
  · rw [update_of_ne hx]
    exact lookup_erase_ne hx

/-- A removed transaction as an entry of a log. -/
def removalOf (e : RemovedTx) : Removal Hash Time :=
  ⟨e.time, e.txid, e.sensitive⟩

/-- Whether a transaction is in the pool, and if so whether it is one to be kept quiet about. -/
def sensitivity (p : TxPool) (id : Hash) : Option Bool :=
  (p.getMeta id).map TxMeta.sensitive

theorem sensitivity_eq (p : TxPool) :
    p.sensitivity = (fun e : Option (TxMeta × Blob) => (e.map Prod.fst).map TxMeta.sensitive) ∘
      p.txpool.lookup := rfl

/-- The lists a client is told from, with their start times, and the clock. -/
structure Lists where
  added : AList fun _ : Hash => Time
  addedStart : Time
  removed : List RemovedTx
  removedStart : Time
  clock : Clock

/-- The lists of the pool. -/
def lists (p : TxPool) : Lists :=
  ⟨p.addedTxsById, p.addedTxsStartTime, p.removedTxsByTime, p.removedTxsStartTime, p.clock⟩

/-- A journal says what the members and the lists of the pool say. The start times are either not
    set or no earlier than the times from which the journal is complete. -/
structure Mirrors (j : Journal Hash Time) (members : Hash → Option Bool) (l : Lists) : Prop where
  members : j.members = members
  added : j.added = l.added.lookup
  removed : j.removed = l.removed.map removalOf
  since : l.addedStart = 0 ∨ j.since ≤ l.addedStart
  horizon : l.removedStart = 0 ∨ j.horizon ≤ l.removedStart
  inOrder : InOrder l.removed
  bounds : ∀ e ∈ l.removed, j.horizon ≤ e.time ∧ e.time ≤ l.clock.now
  current : j.since ≤ l.clock.now ∧ j.horizon ≤ l.clock.now
  steady : Monotone l.clock.readings

/-- Whatever journal says what the lists of one pool say, it can change to one that says what the
    lists of the other say. -/
def Follows (p p' : TxPool) : Prop :=
  ∀ j, Mirrors j p.sensitivity p.lists → ∃ j', Mirrors j' p'.sensitivity p'.lists ∧
    Run Step (p.lists.clock.now, j) (p'.lists.clock.now, j')

theorem Follows.trans {p p' p'' : TxPool} (h : Follows p p') (h' : Follows p' p'') :
    Follows p p'' := by
  intro j hj
  rcases h j hj with ⟨j', hj', hrun⟩
  rcases h' j' hj' with ⟨j'', hj'', hrun'⟩
  exact ⟨j'', hj'', Relation.ReflTransGen.trans hrun hrun'⟩

section

variable {E : Externals} {v : ChainView} {p p' q q' : TxPool} {id : Hash}

/-- Nothing has happened that a client could see. -/
theorem Follows.of_lists (h : p'.lists = p.lists) (hmembers : p'.sensitivity = p.sensitivity) :
    Follows p p' := by
  intro j hj
  rw [h, hmembers]
  exact ⟨j, hj, .refl⟩

theorem Follows.refl (p : TxPool) : Follows p p :=
  .of_lists rfl rfl

theorem now_le_tick {c : Clock} (h : Monotone c.readings) : c.now ≤ c.tick.now :=
  h (Nat.le_succ c.reads)

theorem lists_addTxToTransientLists (p : TxPool) (id : Hash) (feeRate receiveTime : UInt64) :
    (p.addTxToTransientLists id feeRate receiveTime).lists = { p.lists with
      added := p.lists.added.insert id p.lists.clock.now
      addedStart := if p.lists.addedStart = 0 then p.lists.clock.now else p.lists.addedStart
      clock := p.lists.clock.tick } := by
  rcases addTxToTransientLists_eq p id feeRate receiveTime with ⟨sorted, heq⟩
  rw [heq]
  rfl

/-- A start time that is set now, or was set before. -/
theorem start_of_now {start bound now : Time} (h : start = 0 ∨ bound ≤ start) (hnow : bound ≤ now) :
    (if start = 0 then now else start) = 0 ∨ bound ≤ if start = 0 then now else start := by
  split
  · exact Or.inr hnow
  · exact h

/-- A transaction enters the lists, or is added to them again. -/
theorem enter_follows (hidden : Bool) (h : q'.lists = q.lists)
    (hmembers : q'.sensitivity = update q.sensitivity id (some hidden))
    (hshown : q.sensitivity id = some false → hidden = false) (feeRate receiveTime : UInt64) :
    Follows q (q'.addTxToTransientLists id feeRate receiveTime) := by
  intro j hj
  have hle := now_le_tick hj.steady
  have htable : (q'.addTxToTransientLists id feeRate receiveTime).sensitivity = q'.sensitivity := by
    rw [sensitivity_eq, addTxToTransientLists_table]
    rfl
  rw [lists_addTxToTransientLists, h, htable, hmembers, ← hj.members]
  refine ⟨{ j with
    members := update j.members id (some hidden)
    added := update j.added id (some q.clock.now) }, ?_, ?_⟩
  · refine ⟨rfl, ?_, hj.removed, start_of_now hj.since hj.current.1, hj.horizon, hj.inOrder, ?_,
      ⟨hj.current.1.trans hle, hj.current.2.trans hle⟩, hj.steady⟩
    · rw [hj.added]
      exact (lookup_insert_eq q.addedTxsById id q.clock.now).symm
    · intro e he
      exact ⟨(hj.bounds e he).1, (hj.bounds e he).2.trans hle⟩
  · refine single (Step.change (Change.enter j id hidden ?_) hle)
    rw [hj.members]
    exact hshown

/-- A transaction leaves the pool and the lists. -/
theorem leave_follows (h : q'.lists = q.lists) {hidden : Bool}
    (hin : q.sensitivity id = some hidden)
    (hmembers : q'.sensitivity = update q.sensitivity id none) :
    Follows q (q'.removeTxFromTransientLists id hidden) := by
  intro j hj
  have hle := now_le_tick hj.steady
  -- The removal is the latest entry.
  have hlast : insertRemoved ⟨q.lists.clock.now, id, hidden⟩ q.lists.removed =
      q.lists.removed ++ [⟨q.lists.clock.now, id, hidden⟩] :=
    insertRemoved_last fun f hf => (hj.bounds f hf).2
  have hmem : ∀ e, e ∈ q.lists.removed ++ [⟨q.lists.clock.now, id, hidden⟩] ↔
      e ∈ q.lists.removed ∨ e = ⟨q.lists.clock.now, id, hidden⟩ :=
    fun e => by rw [mem_append, mem_singleton]
  have horder : InOrder (q.lists.removed ++ [⟨q.lists.clock.now, id, hidden⟩]) := by
    refine pairwise_append.mpr ⟨hj.inOrder, pairwise_singleton _ _, fun e he f hf => ?_⟩
    rw [mem_singleton.mp hf]
    exact (hj.bounds e he).2
  have hbounds : ∀ e ∈ q.lists.removed ++ [⟨q.lists.clock.now, id, hidden⟩],
      j.horizon ≤ e.time ∧ e.time ≤ q.lists.clock.now := by
    intro e he
    rcases (hmem e).mp he with hold | rfl
    · exact hj.bounds e hold
    · exact ⟨hj.current.2, le_rfl⟩
  rcases trimRemoved_cut horder hbounds hj.current.2 (start_of_now hj.horizon hj.current.2) with
    ⟨horizon, hcut⟩
  have hlists : (q'.removeTxFromTransientLists id hidden).lists =
      let r := trimRemoved q.lists.clock.now
        (insertRemoved ⟨q.lists.clock.now, id, hidden⟩ q.lists.removed)
        (if q.lists.removedStart = 0 then q.lists.clock.now else q.lists.removedStart)
      ⟨q.lists.added.erase id, q.lists.addedStart, r.1, r.2, q.lists.clock.tick⟩ := by
    rw [← h]
    rfl
  have htable : (q'.removeTxFromTransientLists id hidden).sensitivity = q'.sensitivity := rfl
  rw [hlast] at hlists
  rw [hlists, htable, hmembers, ← hj.members]
  generalize trimRemoved q.lists.clock.now _ _ = r at hcut
  refine ⟨{ j with
    members := update j.members id none
    added := update j.added id none
    removed := r.1.map removalOf
    horizon := horizon }, ?_, ?_⟩
  · refine ⟨rfl, ?_, rfl, hj.since, hcut.start, horder.sublist hcut.kept, ?_,
      ⟨hj.current.1.trans hle, hcut.current.trans hle⟩, hj.steady⟩
    · rw [hj.added]
      exact (lookup_erase_eq q.addedTxsById id).symm
    · intro e he
      exact ⟨hcut.after e he, (hbounds e (hcut.kept.subset he)).2.trans hle⟩
  · refine single (Step.change
      (Change.leave j id hidden _ horizon ?_ ?_ ?_ hcut.later) hle)
    · rw [hj.members]
      exact hin
    · intro e he
      rcases mem_map.mp he with ⟨f, hf, rfl⟩
      rw [hj.removed]
      rcases (hmem f).mp (hcut.kept.subset hf) with hold | rfl
      · exact Or.inr (mem_map_of_mem hold)
      · exact Or.inl rfl
    · intro e he
      have hlogged : ∃ f ∈ q.lists.removed ++ [⟨q.lists.clock.now, id, hidden⟩],
          removalOf f = e := by
        rcases he with rfl | hold
        · exact ⟨_, (hmem _).mpr (Or.inr rfl), rfl⟩
        · rw [hj.removed] at hold
          rcases mem_map.mp hold with ⟨f, hf, heq⟩
          exact ⟨f, (hmem f).mpr (Or.inl hf), heq⟩
      rcases hlogged with ⟨f, hf, rfl⟩
      exact (hcut.dropped f hf).imp_left fun hin => mem_map_of_mem hin

/-- The lists are forgotten. -/
theorem forgetChanges_follows (p : TxPool) : Follows p p.forgetChanges := by
  intro j hj
  refine ⟨{ j with added := fun _ => none, removed := [], since := p.clock.now }, ?_, ?_⟩
  · refine ⟨hj.members, rfl, rfl, Or.inl rfl, Or.inl rfl, List.Pairwise.nil, ?_,
      ⟨le_rfl, hj.current.2⟩, hj.steady⟩
    intro e he
    cases he
  · exact single (Step.change (Change.forget j) le_rfl)

/-! ## Operations -/

theorem sensitivity_insert (p : TxPool) (id : Hash) (m : TxMeta) (blob : Blob) :
    (p.withTable (p.txpool.insert id (m, blob))).sensitivity =
      update p.sensitivity id (some m.sensitive) := by
  rw [sensitivity_eq, withTable, lookup_insert_eq, comp_update]
  rfl

theorem sensitivity_erase (p : TxPool) (id : Hash) :
    (p.withTable (p.txpool.erase id)).sensitivity = update p.sensitivity id none := by
  rw [sensitivity_eq, withTable, lookup_erase_eq, comp_update]
  rfl

variable {m : TxMeta} {blob : Blob}

theorem sensitivity_of_lookup (h : p.txpool.lookup id = some (m, blob)) :
    p.sensitivity id = some m.sensitive := by
  rw [sensitivity, getMeta_eq h]
  rfl

variable {m' : TxMeta}

/-- Metadata that change, but not what a client sees. -/
theorem updateMeta_follows
    (hm : ∀ m blob, p.txpool.lookup id = some (m, blob) → m'.sensitive = m.sensitive) :
    Follows p (p.updateMeta id m') := by
  unfold updateMeta
  split
  · rename_i m blob hlookup
    refine .of_lists rfl ?_
    rw [sensitivity_insert, hm m blob hlookup, ← sensitivity_of_lookup hlookup]
    exact update_eq_self id p.sensitivity
  · exact Follows.refl p

theorem Fixed.sensitive (h : Fixed m m') : m'.sensitive = m.sensitive := by
  rw [TxMeta.sensitive, h.relay]
  rfl

theorem markDoubleSpend_follows (p : TxPool) (vin : List TxIn) :
    Follows p (p.markDoubleSpend vin) := by
  refine markDoubleSpend_rec (P := Follows p) (fun q id m blob hq hlookup => ?_) vin
    (Follows.refl p)
  exact hq.trans (updateMeta_follows (forall_lookup hlookup rfl))

theorem drop_follows (h : p.txpool.lookup id = some (m, blob)) (vin : List TxIn) :
    Follows p (p.drop id m vin) := by
  rcases drop_eq p id m vin with ⟨t, ht⟩
  rw [ht]
  exact leave_follows (by rfl) (sensitivity_of_lookup h) (sensitivity_erase p id)

theorem takeTx_follows {t : TakenTx} (h : p.takeTx E id = some (t, p')) : Follows p p' := by
  rcases takeTx_some h with ⟨m, hlookup, rfl, -⟩
  exact drop_follows hlookup t.tx.vin

/-- A property of all entries: of their blobs, and of whether they are pruned. -/
def Every (Q : Bool → Blob → Prop) (p : TxPool) : Prop :=
  ∀ id m blob, p.txpool.lookup id = some (m, blob) → Q m.pruned blob

variable {Q : Bool → Blob → Prop}

section

variable (h : Every Q p)
include h

theorem Every.inherits (hentries : ∀ x, Inherits p p' x) : Every Q p' := by
  intro x m blob hlookup
  rcases hentries x m blob hlookup with ⟨m₀, hlookup₀, hfixed⟩
  rw [hfixed.pruned]
  exact h x m₀ blob hlookup₀

theorem Every.of_table (htable : p'.txpool = p.txpool) : Every Q p' :=
  h.inherits fun _ => Inherits.of_table htable

theorem Every.erase (htable : p'.txpool = p.txpool.erase id) : Every Q p' :=
  h.inherits fun _ => Inherits.of_erase htable

theorem Every.entering {c : AddTxCall} {txRelay : RelayMethod} {ok : Bool}
    (hc : Q c.tx.pruned c.blob) (hentering : Entering p c txRelay ok p') : Every Q p' := by
  intro x m blob hlookup
  rcases hentering.source hlookup with ⟨m₀, hlookup₀, hfixed⟩ | hentered
  · rw [hfixed.pruned]
    exact h x m₀ blob hlookup₀
  · rw [hentered.pruned, hentered.blob]
    exact hc

theorem Every.updateMeta
    (hm : ∀ m blob, p.txpool.lookup id = some (m, blob) → m'.pruned = m.pruned) :
    Every Q (p.updateMeta id m') := by
  intro x m₁ blob hlookup
  rcases lookup_of_updateMeta hlookup with ⟨rfl, rfl, m, hold⟩ | ⟨-, hold⟩
  · rw [hm m blob hold]
    exact h x m blob hold
  · exact h x m₁ blob hold

end

/-- The prefixes of all blobs can be read. -/
def Readable (E : Externals) : TxPool → Prop :=
  Every fun _ blob => (E.parseTxPrefix blob).isSome

/-- As long as every blob can be read, `prune` has nothing to roll back. -/
theorem prune_follows (h : Readable E p) (bytes : UInt64) : Follows p (p.prune E bytes) := by
  refine (prune_rec (P := fun q => Follows p q ∧ Readable E q) ?_ ?_ bytes ⟨Follows.refl p, h⟩).1
  · intro q id m blob tx hq hlookup _
    exact ⟨hq.1.trans (drop_follows hlookup tx.vin), Every.erase hq.2 (drop_table q id m tx.vin)⟩
  · intro q id m blob hq hlookup hnone
    have hreadable : (E.parseTxPrefix blob).isSome := hq.2 id m blob hlookup
    rw [hnone] at hreadable
    cases hreadable

/-- A method that ranks no lower than one that can be seen can be seen. -/
theorem sensitive_of_rank (h : m.sensitive = false) (hrank : m.relay.rank ≤ m'.relay.rank) :
    m'.sensitive = false := by
  unfold TxMeta.sensitive at *
  cases hm : m.relay <;> cases hm' : m'.relay <;> simp_all [RelayMethod.matches, RelayMethod.rank]

variable {c : AddTxCall} {txRelay : RelayMethod} {now : UInt64} {replace : Bool}

theorem storeTx_follows
    (hshown : (p.storeTx E c txRelay m now replace).1 = true → p.sensitivity c.id = some false →
      m.sensitive = false) :
    Follows p (p.storeTx E c txRelay m now replace).2 := by
  rcases insertKeyImages_eq p c.id txRelay c.tx.vin with ⟨t, ht⟩
  simp only [storeTx, ht] at hshown ⊢
  split
  · exact .of_lists rfl rfl
  · rename_i hstored
    rw [if_neg hstored] at hshown
    refine enter_follows _ ?_ ?_ (hshown rfl) _ _
    · rfl
    · exact sensitivity_insert p c.id m c.blob

/-- An entry is replaced by one of a higher relay method only. -/
theorem sensitive_of_replaced (h : (p.upgradesRelay c || (p.getMeta c.id).isNone) = true)
    (hm : m.relay = p.relayAs c) (hin : p.sensitivity c.id = some false) : m.sensitive = false := by
  rcases Option.map_eq_some_iff.mp hin with ⟨m₀, hmeta, hshown⟩
  have hupgrade : p.upgradesRelay c = true := by
    rw [hmeta] at h
    simpa using h
  refine sensitive_of_rank hshown ?_
  rw [hm]
  simp only [upgradesRelay, hmeta, Option.map_some, Option.getD_some, decide_eq_true_eq] at hupgrade
  exact hupgrade.le

theorem Storing.shown (h : Storing p c txRelay m replace)
    (hs : (p.storeTx E c txRelay m now replace).1 = true) (hin : p.sensitivity c.id = some false) :
    m.sensitive = false := by
  rcases h.method with ⟨-, rfl⟩ | ⟨hrelay, hreplace⟩
  · -- An entry is not replaced here.
    rw [sensitivity, getMeta, lookup_eq_none.mpr (not_mem_of_storeTx hs)] at hin
    cases hin
  · exact sensitive_of_replaced hreplace (h.entered.relay.trans hrelay) hin

theorem Checks.follows {tvc : Tvc} (h : Checks E p c tvc p') : Follows p p' := by
  rcases h.pool with ⟨cache, rfl | rfl⟩
  · exact .of_lists rfl rfl
  · exact .of_lists rfl rfl

theorem addTx_follows (h : Readable E p) (hc : (E.parseTxPrefix c.blob).isSome) (v : ChainView)
    (now : UInt64) (tvc : Tvc) : Follows p (p.addTx E v c now tvc).2.2 := by
  have hend := addTx_outcome E v p c now tvc
  generalize p.addTx E v c now tvc = r at hend ⊢
  rcases r with ⟨ok, tvc', p'⟩
  cases hend with
  | refused => exact Follows.refl _
  | conflicting => exact markDoubleSpend_follows p c.tx.vin
  | failing q hq => exact hq.follows
  | known q bytes hq =>
    have hread : Readable E q := Every.of_table h hq.table
    exact hq.follows.trans (prune_follows hread bytes)
  | unstored q txRelay m replace hq hm hs =>
    exact hq.follows.trans (storeTx_follows fun hstored => by simp [hs] at hstored)
  | stored q txRelay m replace bytes hq hm hs =>
    have hfollows : Follows p (q.storeTx E c txRelay m now replace).2 :=
      hq.follows.trans (storeTx_follows hm.shown)
    have hread : ∀ p', p'.txpool = (q.storeTx E c txRelay m now replace).2.txpool → Readable E p' :=
      fun p' hp' => Every.entering h hc (storeTx_entries hq.table hm.entered hs hp')
    refine Follows.trans ?_ (prune_follows (hread _ ?_) bytes)
    · split
      · exact hfollows
      · exact hfollows.trans (.of_lists rfl rfl)
    · split <;> rfl

theorem revalidate_follows (h : Readable E p) (v : ChainView) {version : UInt8}
    (hversion : version ≠ 0) (now : UInt64) (e : Hash × TxMeta) :
    Follows p (p.revalidate E v version now e) := by
  rcases revalidate_cases E v hversion now p e with hsame | ⟨t, p₁, htake, hnew, hturn⟩
  · rw [hsame]
    exact Follows.refl p
  · have htaken := takeTx_follows htake
    rcases takeTx_some htake with ⟨m, hlookup, rfl, -⟩
    have hadded := addTx_follows (c := readdCall t e version)
      (Every.erase h (drop_table p e.1 m t.tx.vin)) (h e.1 m t.blob hlookup) v now {}
    rw [hturn]
    refine htaken.trans ?_
    split
    · -- The metadata that are restored have the relay method it was added with.
      refine hadded.trans (updateMeta_follows fun m' blob hlookup' => ?_)
      have hentered :=
        (addTx_entered (c := readdCall t e version) hnew v now {} m' blob hlookup').2
      unfold TxMeta.sensitive
      rw [hentered.relay]
      rfl
    · exact hadded

theorem validate_follows (h : Readable E p) (v : ChainView) {version : UInt8}
    (hversion : version ≠ 0) (now : UInt64) : Follows p (p.validate E v version now) := by
  refine (validate_rec p v hversion now (forgetChanges_follows p) ?_).1
  intro q e hentries _ hq
  exact hq.trans (revalidate_follows (Every.inherits h hentries) v hversion now e)

/-- A relayed transaction is added to the lists again when it can be seen from then on. -/
theorem setRelayed_follows (h : Every Q p) (hashes : List Hash) (method : RelayMethod)
    (now : UInt64) : Follows p (p.setRelayed E hashes method now).2 ∧
      Every Q (p.setRelayed E hashes method now).2 := by
  refine setRelayed_rec (P := fun q => Follows p q ∧ Every Q q) (fun q id m blob hq hlookup => ?_)
    hashes ⟨Follows.refl p, h⟩
  have hkept : Every Q (q.updateMeta id (relayedMeta m method)) :=
    hq.2.updateMeta (forall_lookup hlookup rfl)
  have hrank : m.relay.rank ≤ (relayedMeta m method).relay.rank := by
    change _ ≤ (if m.relay.rank < method.rank then method else m.relay).rank
    split
    · rename_i hlt
      exact hlt.le
    · exact le_rfl
  have hshown : m.sensitive = false → (relayedMeta m method).sensitive = false :=
    fun hm => sensitive_of_rank hm hrank
  split
  · have hupdated : q.updateMeta id (relayedMeta m method) =
        q.withTable (q.txpool.insert id (relayedMeta m method, blob)) := by
      rw [updateMeta, hlookup]
    refine ⟨hq.1.trans ?_, hkept.of_table (addTxToTransientLists_table _ id _ _)⟩
    rw [hupdated]
    refine enter_follows _ (by rfl) (sensitivity_insert q id _ blob) (fun hin => ?_) _ _
    rw [sensitivity_of_lookup hlookup, Option.some.injEq] at hin
    exact hshown hin
  · rename_i hquiet
    refine ⟨hq.1.trans (updateMeta_follows (forall_lookup hlookup ?_)), hkept⟩
    cases hm : m.sensitive with
    | false => exact hshown hm
    | true => simpa [hm] using hquiet

/-! ### Outdated transactions -/

theorem ticked_follows (p : TxPool) : Follows p p.ticked := by
  intro j hj
  have hle := now_le_tick hj.steady
  refine ⟨j, ?_, single (Step.wait j hle)⟩
  exact ⟨hj.members, hj.added, hj.removed, hj.since, hj.horizon, hj.inOrder,
    fun e he => ⟨(hj.bounds e he).1, (hj.bounds e he).2.trans hle⟩,
    ⟨hj.current.1.trans hle, hj.current.2.trans hle⟩, hj.steady⟩

/-! ### Starting -/

/-- A transaction of the table enters the lists when the indexes are built. -/
theorem indexEntry_follows (hlookup : p.txpool.lookup id = some (m, blob)) (tx : Transaction) :
    Follows p (p.indexEntry E id m tx).2 ∧ (p.indexEntry E id m tx).2.txpool = p.txpool := by
  rcases insertKeyImages_eq p id m.relay tx.vin with ⟨t, ht⟩
  simp only [indexEntry, ht]
  split
  · exact ⟨.of_lists rfl rfl, rfl⟩
  · have hsame : p.sensitivity = update p.sensitivity id (some m.sensitive) := by
      rw [← sensitivity_of_lookup hlookup]
      exact (update_eq_self id p.sensitivity).symm
    have hlisted : Follows p ((p.withSpentKeyImages t).addTxToTransientLists id
        (E.feeRate m.fee m.weight) m.receiveTime) := by
      refine enter_follows m.sensitive ?_ ?_ (fun hin => ?_) _ _
      · rfl
      · exact hsame
      · rwa [sensitivity_of_lookup hlookup, Option.some.injEq] at hin
    refine ⟨hlisted.trans (.of_lists rfl rfl), ?_⟩
    exact addTxToTransientLists_table (p.withSpentKeyImages t) id _ _

theorem initPass_follows (kept : Bool) (l : List (Hash × TxMeta × Blob))
    (hl : ∀ e ∈ l, p.txpool.lookup e.1 = some e.2) (h : Readable E p) (remove : List Hash) :
    Follows p (initPass E kept l p remove).2.1 ∧
      (initPass E kept l p remove).2.1.txpool = p.txpool ∧
      (initPass E kept l p remove).2.2 = remove := by
  induction l generalizing p with
  | nil => exact ⟨Follows.refl p, rfl, rfl⟩
  | cons e rest ih =>
    rcases e with ⟨id, m, blob⟩
    have hlookup : p.txpool.lookup id = some (m, blob) := hl _ mem_cons_self
    have hl' : ∀ e ∈ rest, p.txpool.lookup e.1 = some e.2 :=
      fun e he => hl e (mem_cons_of_mem _ he)
    rcases Option.isSome_iff_exists.mp (h id m blob hlookup) with ⟨tx, htx⟩
    rcases indexEntry_follows (E := E) hlookup tx with ⟨hentered, htable⟩
    simp only [initPass, htx]
    split
    · exact ih hl' h
    · split
      · exact ⟨hentered, htable, rfl⟩
      · have hrest := ih (p := (p.indexEntry E id m tx).2) (by rw [htable]; exact hl')
          (Every.of_table h htable)
        exact ⟨hentered.trans hrest.1, hrest.2.1.trans htable, hrest.2.2⟩

theorem init_follows {maxTxpoolWeight : UInt64} (h : Readable E p)
    (hstart : Follows q (p.unindexed maxTxpoolWeight)) (mineStemTxes : Bool) :
    Follows q (p.init E maxTxpoolWeight mineStemTxes).2 ∧
      (p.init E maxTxpoolWeight mineStemTxes).2.txpool = p.txpool := by
  have hl : ∀ e ∈ p.blobsById, (p.unindexed maxTxpoolWeight).txpool.lookup e.1 = some e.2 :=
    fun e => lookup_of_blobsById
  rcases initPass_follows (p := p.unindexed maxTxpoolWeight) false p.blobsById hl h [] with
    ⟨hfirst, htable, hnone⟩
  unfold init
  generalize initPass E false p.blobsById (p.unindexed maxTxpoolWeight) [] = r
    at hfirst htable hnone ⊢
  rcases initPass_follows true p.blobsById (by rw [htable]; exact hl) (Every.of_table h htable)
    r.2.2 with ⟨hsecond, htable', hnone'⟩
  dsimp only
  generalize initPass E true p.blobsById r.2.1 r.2.2 = r' at hsecond htable' hnone' ⊢
  split
  · exact ⟨hstart.trans hfirst, htable⟩
  · split
    · exact ⟨(hstart.trans hfirst).trans hsecond, htable'.trans htable⟩
    · -- Nothing has to be removed from the table.
      rw [hnone', hnone]
      refine ⟨((hstart.trans hfirst).trans hsecond).trans ?_, htable'.trans htable⟩
      exact .of_lists rfl rfl

/-! ## Runs -/

/-- A blob can be read, in part and, unless it is pruned, as a whole. -/
structure Legible (E : Externals) (pruned : Bool) (blob : Blob) : Prop where
  readable : (E.parseTxPrefix blob).isSome
  whole : (if pruned then E.parseTxBase blob else E.parseTx blob).isSome

/-- All transactions of the pool can be read. -/
def AllLegible (E : Externals) : TxPool → Prop :=
  Every (Legible E)

theorem AllLegible.readable (h : AllLegible E p) : Readable E p :=
  fun id m blob hlookup => (h id m blob hlookup).readable

/-- What callers of `add_tx` promise to clients. -/
def Publishable (E : Externals) (_ : TxPool) (c : AddTxCall) : Prop :=
  Legible E c.tx.pruned c.blob

variable {s s' : TxPool × ChainView}

/-- The lists follow every operation on the pool. -/
theorem poolMove_follows (h : AllLegible E s.1) (hmove : PoolMove E (Publishable E) s s') :
    Follows s.1 s'.1 ∧ AllLegible E s'.1 := by
  have hread := h.readable
  cases hmove with
  | addTx p v c now tvc hc =>
    rcases addTx_entries (E := E) p v c now tvc with ⟨ok, hentering⟩
    exact ⟨addTx_follows hread hc.readable v now tvc, Every.entering h hc hentering⟩
  | takeTx p p' v id taken htake =>
    have hfollows := takeTx_follows htake
    rcases takeTx_some htake with ⟨m, hlookup, rfl, -⟩
    exact ⟨hfollows, Every.erase h (drop_table p id m taken.tx.vin)⟩
  | prune p v bytes =>
    exact ⟨prune_follows hread bytes, Every.inherits h (prune_inherits p bytes)⟩
  | removeStuckTransactions p v =>
    refine removeStuckTransactions_rec (P := fun q => Follows p q ∧ AllLegible E q) ?_ ?_ ?_ ?_
      ⟨Follows.refl p, h⟩
    · intro q hq
      exact ⟨hq.1.trans (ticked_follows q), Every.of_table hq.2 rfl⟩
    · intro q marks hq
      exact ⟨hq.1.trans (.of_lists rfl rfl), Every.of_table hq.2 rfl⟩
    · intro q id m blob hq hlookup
      exact (hq.2 id m blob hlookup).readable
    · intro q id m blob tx hq hlookup _
      exact ⟨hq.1.trans (drop_follows hlookup tx.vin), Every.erase hq.2 (drop_table q id m tx.vin)⟩
  | validate p v version now hversion =>
    exact ⟨validate_follows hread v hversion now,
      Every.inherits h (validate_inherits p v hversion now)⟩
  | setRelayed p v hashes method now =>
    exact setRelayed_follows h hashes method now
  | init p v maxTxpoolWeight mineStemTxes =>
    have hstart : Follows p (p.unindexed maxTxpoolWeight) :=
      (forgetChanges_follows p).trans (.of_lists rfl rfl)
    rcases init_follows hread hstart mineStemTxes with ⟨hfollows, htable⟩
    exact ⟨hfollows, Every.of_table h htable⟩
  | restart p v maxTxpoolWeight mineStemTxes =>
    have hstart : Follows p (p.reopen.unindexed maxTxpoolWeight) :=
      (forgetChanges_follows p).trans (.of_lists rfl rfl)
    rcases init_follows (p := p.reopen) hread hstart mineStemTxes with ⟨hfollows, htable⟩
    exact ⟨hfollows, Every.of_table h htable⟩
  | block p v v' =>
    exact ⟨.of_lists rfl rfl, Every.of_table h rfl⟩
  | template p v a f hfill =>
    refine fillBlockTemplate_preserves (P := fun q => Follows p q ∧ AllLegible E q) ?_ ?_
      ⟨Follows.refl p, h⟩ hfill
    · intro q cache hq
      exact ⟨hq.1.trans (.of_lists rfl rfl), Every.of_table hq.2 rfl⟩
    · intro q id m m' blob hq hlookup hfixed
      exact ⟨hq.1.trans (updateMeta_follows (forall_lookup hlookup hfixed.sensitive)),
        Every.updateMeta hq.2 (forall_lookup hlookup hfixed.pruned)⟩

theorem poolMove_run_follows (h : AllLegible E s.1) (hrun : Run (PoolMove E (Publishable E)) s s') :
    Follows s.1 s'.1 ∧ AllLegible E s'.1 := by
  have hkept : Preserves (PoolMove E (Publishable E)) fun t =>
      Follows s.1 t.1 ∧ AllLegible E t.1 := by
    intro t t' ht hmove
    rcases poolMove_follows ht.2 hmove with ⟨hfollows, hlegible⟩
    exact ⟨ht.1.trans hfollows, hlegible⟩
  exact hkept.run hrun ⟨Follows.refl s.1, h⟩

/-- A pool with nothing in it has a journal with nothing in it. -/
theorem unused_mirrors (maxWeight : UInt64) (mineStemTxes : Bool) {clock : Clock}
    (h : Monotone clock.readings) :
    Mirrors ⟨fun _ => none, fun _ => none, [], clock.now, clock.now⟩
      { unused maxWeight mineStemTxes with clock }.sensitivity
      { unused maxWeight mineStemTxes with clock }.lists := by
  refine ⟨rfl, rfl, rfl, Or.inl rfl, Or.inl rfl, List.Pairwise.nil, fun e he => ?_,
    ⟨le_rfl, le_rfl⟩, h⟩
  cases he

/-! ## Answers -/

theorem mem_entriesById_iff (p : TxPool) (e : Hash × TxMeta) :
    e ∈ p.entriesById ↔ p.getMeta e.1 = some e.2 := by
  constructor
  · intro he
    rcases mem_entriesById he with ⟨blob, hlookup⟩
    exact getMeta_eq hlookup
  · intro hmeta
    rcases Option.map_eq_some_iff.mp hmeta with ⟨⟨m, blob⟩, hlookup, hm⟩
    rw [entriesById, mem_insertionSort, mem_map]
    exact ⟨⟨e.1, m, blob⟩, mem_lookup_iff.mp hlookup, Prod.ext rfl hm⟩

variable {j : Journal Hash Time} (hj : Mirrors j p.sensitivity p.lists)
include hj

/-- What a client sees of the pool. -/
theorem mem_getTransactionHashes (includeSensitive : Bool) (id : Hash) :
    id ∈ p.getTransactionHashes includeSensitive ↔ Visible includeSensitive j id := by
  unfold getTransactionHashes Visible
  rw [hj.members, mem_map]
  constructor
  · intro h
    rcases h with ⟨e, he, rfl⟩
    rcases mem_filter.mp he with ⟨hin, hshown⟩
    refine ⟨e.2.sensitive, ?_, by simpa using hshown⟩
    rw [sensitivity, (mem_entriesById_iff p e).mp hin]
    rfl
  · intro h
    rcases h with ⟨hidden, hin, hshown⟩
    rcases Option.map_eq_some_iff.mp hin with ⟨m, hmeta, rfl⟩
    refine ⟨(id, m), mem_filter.mpr ⟨(mem_entriesById_iff p (id, m)).mpr hmeta, ?_⟩, rfl⟩
    simpa using hshown

/-- A client is told about every transaction it may see. -/
theorem getTransactionInfo_isSome (h : AllLegible E p) (includeSensitive : Bool) (id : Hash) :
    (p.getTransactionInfo E id includeSensitive).isSome ↔ Visible includeSensitive j id := by
  unfold getTransactionInfo Visible
  rw [hj.members]
  cases hlookup : p.txpool.lookup id with
  | none =>
    refine ⟨fun hsome => ?_, fun hvisible => ?_⟩
    · cases hsome
    · rcases hvisible with ⟨hidden, hin, _⟩
      rw [sensitivity, getMeta, hlookup] at hin
      cases hin
  | some e =>
    rcases e with ⟨m, blob⟩
    have hentry : (p.entryTx E id m blob).isSome := by
      unfold entryTx
      split
      · rfl
      · exact (h id m blob hlookup).whole
    rw [sensitivity_of_lookup hlookup]
    cases includeSensitive <;> cases hm : m.sensitive <;> simp [hm, hentry]

omit hj in
theorem mem_getTransactionsInfo (E : Externals) (p : TxPool) (txids : List Hash)
    (includeSensitive : Bool) (id : Hash) :
    id ∈ (p.getTransactionsInfo E txids includeSensitive).map Prod.fst ↔
      id ∈ txids ∧ (p.getTransactionInfo E id includeSensitive).isSome := by
  rw [mem_map]
  constructor
  · intro h
    rcases h with ⟨e, he, rfl⟩
    rcases mem_filterMap.mp he with ⟨x, hx, hinfo⟩
    rcases Option.map_eq_some_iff.mp hinfo with ⟨d, hd, rfl⟩
    exact ⟨hx, by rw [hd]; rfl⟩
  · intro h
    rcases Option.isSome_iff_exists.mp h.2 with ⟨d, hd⟩
    exact ⟨(id, d), mem_filterMap.mpr ⟨id, h.1, by rw [hd]; rfl⟩, rfl⟩

/-- The removed transactions of an answer are those the journal reports. -/
theorem mem_removed_iff (startTime : Time) (includeSensitive : Bool) (id : Hash) :
    id ∈ (((p.removedTxsByTime.dropWhile fun e => e.time < startTime).filter
        fun e => includeSensitive || !e.sensitive).map RemovedTx.txid) ↔
      Reported includeSensitive startTime j id := by
  unfold Reported
  rw [hj.removed, mem_map]
  constructor
  · intro h
    rcases h with ⟨e, he, rfl⟩
    rcases mem_filter.mp he with ⟨hin, hshown⟩
    rcases (mem_dropWhile_iff hj.inOrder startTime e).mp hin with ⟨hlogged, hlate⟩
    exact ⟨removalOf e, mem_map_of_mem hlogged, rfl, hlate, by simpa [removalOf] using hshown⟩
  · intro h
    rcases h with ⟨_, he, rfl, hlate, hshown⟩
    rcases mem_map.mp he with ⟨e, hlogged, rfl⟩
    refine ⟨e, mem_filter.mpr ⟨?_, by simpa [removalOf] using hshown⟩, rfl⟩
    exact (mem_dropWhile_iff hj.inOrder startTime e).mpr ⟨hlogged, hlate⟩

theorem mem_added_iff (startTime : Time) (id : Hash) :
    id ∈ (p.addedTxsById.entries.filter fun e => startTime ≤ e.2).map Sigma.fst ↔
      ∃ time, j.added id = some time ∧ startTime ≤ time := by
  rw [hj.added, mem_map]
  constructor
  · intro h
    rcases h with ⟨e, he, rfl⟩
    rcases mem_filter.mp he with ⟨hin, hlate⟩
    exact ⟨e.2, mem_lookup_iff.mpr hin, by simpa using hlate⟩
  · intro h
    rcases h with ⟨time, hadded, hlate⟩
    exact ⟨⟨id, time⟩, mem_filter.mpr ⟨mem_lookup_iff.mp hadded, by simpa using hlate⟩, rfl⟩

/-- The lists go back far enough when an answer is incremental. -/
theorem complete_of_incremental {startTime : Time} (h : p.answersIncrementally startTime = true) :
    j.since < startTime ∧ j.horizon < startTime := by
  unfold answersIncrementally at h
  split at h
  · cases h
  · split at h
    · rename_i hset
      simp only [Bool.and_eq_true, decide_eq_true_eq, ne_eq] at hset
      simp only [Bool.not_eq_true', Bool.or_eq_false_iff, decide_eq_false_iff_not, not_le] at h
      exact ⟨(hj.since.resolve_left hset.1).trans_lt h.1,
        (hj.horizon.resolve_left hset.2).trans_lt h.2⟩
    · cases h

end

/-- A client has seen the pool, and asks later what has changed since a time the clock had reached
    by then. If the answer is incremental, the ids the client had without those that were removed
    and with those that were added, remaining ones included, are the ids it may see now. -/
theorem getPoolInfo_delta (E : Externals) (maxWeight : UInt64) (mineStemTxes : Bool) (clock : Clock)
    (hclock : Monotone clock.readings) (p₁ p₂ : TxPool) (v₀ v₁ v₂ : ChainView)
    (hbefore : Run (PoolMove E (Publishable E))
      ({ unused maxWeight mineStemTxes with clock }, v₀) (p₁, v₁))
    (hafter : Run (PoolMove E (Publishable E)) (p₁, v₁) (p₂, v₂)) (startTime : Time)
    (hstart : startTime ≤ p₁.clock.now) (includeSensitive : Bool) (maxTxCount : Nat)
    (hincremental : (p₂.getPoolInfo E startTime includeSensitive maxTxCount).incremental = true)
    (id : Hash) :
    id ∈ p₂.getTransactionHashes includeSensitive ↔ (id ∈ p₁.getTransactionHashes includeSensitive ∧
        id ∉ (p₂.getPoolInfo E startTime includeSensitive maxTxCount).removedTxs) ∨
      id ∈ (p₂.getPoolInfo E startTime includeSensitive maxTxCount).addedTxs.map Prod.fst ∨
      id ∈ (p₂.getPoolInfo E startTime includeSensitive maxTxCount).remainingAddedTxids := by
  have hnone : AllLegible E { unused maxWeight mineStemTxes with clock } :=
    fun id m blob hlookup => by cases hlookup
  rcases poolMove_run_follows (s := ({ unused maxWeight mineStemTxes with clock }, v₀))
    hnone hbefore
    with ⟨hfollows₁, hlegible₁⟩
  rcases hfollows₁ _ (unused_mirrors maxWeight mineStemTxes hclock) with ⟨j₁, hj₁, hrun₁⟩
  rcases poolMove_run_follows (s := (p₁, v₁)) hlegible₁ hafter with ⟨hfollows₂, hlegible₂⟩
  rcases hfollows₂ j₁ hj₁ with ⟨j₂, hj₂, hrun₂⟩
  have hdated : Dated (p₁.clock.now, j₁) := by
    refine dated_step.run hrun₁ ⟨fun e he => ?_, fun e he => ?_⟩
    · cases he
    · cases he
  -- The answer is made from the lists.
  have hanswers : p₂.answersIncrementally startTime = true := by
    by_contra hwhole
    rw [getPoolInfo, if_neg hwhole] at hincremental
    cases hincremental
  rcases complete_of_incremental hj₂ hanswers with ⟨hsince, hhorizon⟩
  have hdelta := visible_iff hdated hrun₂ hstart hsince hhorizon includeSensitive id
  rw [getPoolInfo, if_pos hanswers]
  rw [mem_getTransactionHashes hj₁, mem_getTransactionHashes hj₂, mem_removed_iff hj₂,
    ← mem_append, ← map_append, take_append_drop, mem_getTransactionsInfo,
    getTransactionInfo_isSome hj₂ hlegible₂, mem_added_iff hj₂, and_comm (b := Visible _ j₂ id)]
  exact hdelta

/-! ## A client that follows the pool -/

/-- A clock that is a second later at every reading. -/
def everySecond : Clock :=
  ⟨fun n => n + 1, 0⟩

/-- A sample transaction is added, and another one is taken out. -/
def samplePass (p : TxPool) (blob gone : Blob) : TxPool :=
  let added := (p.addTx .sample shortView (sampleCall blob .fluff) 10 {}).2.2
  ((added.takeTx .sample (sampleCall gone .fluff).id).map Prod.snd).getD added

theorem samplePass_run (p : TxPool) (blob gone : Blob) :
    Run (PoolMove .sample (Publishable .sample)) (p, shortView)
      (p.samplePass blob gone, shortView) := by
  have hadd : PoolMove .sample (Publishable .sample) (p, shortView)
      ((p.addTx .sample shortView (sampleCall blob .fluff) 10 {}).2.2, shortView) :=
    PoolMove.addTx _ _ _ 10 {} ⟨rfl, rfl⟩
  unfold samplePass
  dsimp only
  generalize (p.addTx .sample shortView (sampleCall blob .fluff) 10 {}).2.2 = added at hadd
  cases htake : added.takeTx .sample (sampleCall gone .fluff).id with
  | none => exact single hadd
  | some taken =>
    exact (single hadd).tail
      (PoolMove.takeTx _ _ _ (sampleCall gone .fluff).id taken.1 htake)

/-- The pool as the client has seen it. -/
def seenPool : TxPool :=
  ({ unused 648000000 false with clock := everySecond }.samplePass [7, 1] [7, 1]).samplePass
    [8, 2] [7, 1]

/-- The pool later, when one transaction has left and another one has come. -/
def laterPool : TxPool :=
  seenPool.samplePass [9, 3] [8, 2]

/-- The client is told what has left and what has come. -/
theorem getPoolInfo_delta_laterPool :
    (laterPool.getPoolInfo .sample 4 false 10).removedTxs = [(sampleCall [8, 2] .fluff).id] ∧
      ((sampleCall [9, 3] .fluff).id ∈ laterPool.getTransactionHashes false ↔
        ((sampleCall [9, 3] .fluff).id ∈ seenPool.getTransactionHashes false ∧
          (sampleCall [9, 3] .fluff).id ∉ (laterPool.getPoolInfo .sample 4 false 10).removedTxs) ∨
        (sampleCall [9, 3] .fluff).id ∈
          (laterPool.getPoolInfo .sample 4 false 10).addedTxs.map Prod.fst ∨
        (sampleCall [9, 3] .fluff).id ∈
          (laterPool.getPoolInfo .sample 4 false 10).remainingAddedTxids) := by
  have hclock : Monotone everySecond.readings :=
    fun _ _ hle => Int.add_le_add_right (Int.ofNat_le.mpr hle) 1
  refine ⟨by decide +kernel, ?_⟩
  exact getPoolInfo_delta .sample 648000000 false everySecond hclock seenPool laterPool shortView
    shortView shortView ((samplePass_run _ _ _).trans (samplePass_run _ _ _)) (samplePass_run _ _ _)
    4 (by decide +kernel) false 10 (by decide +kernel) _

end TxPool

end CocaineNode
