import CocaineNode.Core.IncomingBlocks

/-!
# The Contract of the Preparation

When `prepare_handle_incoming_blocks` returns, what the calling thread holds
follows from the value it returns: both locks and an open batch with true, and
what it held before with false. That is `Node.Contract`.

The function has more ways out, all by exceptions that nothing above catches,
so that the batch and both locks stay held. A block is read with its id, which
throws when its miner transaction has version 2 and no inputs. The first pass
over the transactions parses each of them, and reads every input with
`boost::get<txin_to_key>`, which throws on any other kind. A miner transaction
parses like any other, so a peer can have one read there.

`PrepareThrows` says when this happens in terms of what was sent. For the
blocks: those in front of the first that cannot be read (`readable`) follow the
top and are new, as far as the pass asks for it (`GoesOn`). For the
transactions (`StrayTx`): some transaction throws in the parser or has an input
of another kind, while every transaction before it parses, has only inputs to
keys, and has a prefix hash of its own. The second pass reads the same inputs
the same way and never throws, because the first one got through
(`fillEntries_threw`).

## Theorems

* `Node.prepare_throws_iff`: When the whole call does.
* `Node.prepare_contract_iff`: A call that returns keeps the contract.
-/

namespace CocaineNode

open List

/-- One thread, no wait, no cancellation. -/
def oneThread : PrepareEnv where
  threads := 1
  threads_pos := Nat.one_pos

/-- Every input spends an output by its key. -/
def SpendsKeys (tx : Transaction) : Prop :=
  ∀ i ∈ tx.vin, i.isToKey = true

/-- The transaction a blob is read as. -/
def ReadsAs (E : Externals) (t : TxBlobEntry) (tx : Transaction) : Prop :=
  E.parseTxBaseThrows t.blob = false ∧ E.parseTxBase t.blob = some tx

/-- The transactions that blobs are read as. -/
def Reads (E : Externals) : List TxBlobEntry → List Transaction → Prop :=
  List.Forall₂ (ReadsAs E)

/-- The first pass throws at a transaction when these prefix hashes have been seen. -/
def ThrowsAt (E : Externals) (seen : List Hash) (t : TxBlobEntry) : Prop :=
  E.parseTxBaseThrows t.blob = true ∨
    ∃ tx, ReadsAs E t tx ∧ E.txPrefixHash tx ∉ seen ∧ ¬ SpendsKeys tx

variable {E : Externals}

theorem ReadsAs.unique {t : TxBlobEntry} {tx tx' : Transaction} (h : ReadsAs E t tx)
    (h' : ReadsAs E t tx') : tx' = tx := by
  have hsome := h'.2.symm.trans h.2
  rwa [Option.some.injEq] at hsome

variable {ts : List TxBlobEntry}

theorem Reads.unique {txs txs' : List Transaction} (h : Reads E ts txs) (h' : Reads E ts txs') :
    txs' = txs := by
  induction h generalizing txs' with
  | nil =>
    cases h'
    rfl
  | cons hread _ ih =>
    cases h' with
    | cons hread' hrest => rw [hread.unique hread', ih hrest]

/-! ## The first pass -/

/-- One transaction's inputs: read through, or stopped at an input of another kind. -/
theorem inputAmounts_cases (table : ScanTable) (amounts : List UInt64) (vin : List TxIn) :
    ((∀ i ∈ vin, i.isToKey = true) ∧ ∃ a, inputAmounts table ∅ amounts vin = .ok a) ∨
      ((¬ ∀ i ∈ vin, i.isToKey = true) ∧
        inputAmounts table ∅ amounts vin = .error (.threw, table)) := by
  induction vin generalizing amounts with
  | nil => exact .inl ⟨by simp, amounts, rfl⟩
  | cons i rest ih =>
    cases i with
    | toKey amount keyOffsets kImage =>
      -- No key image is in the table yet, so the test for repeats never fires.
      have hstep : inputAmounts table ∅ amounts (.toKey amount keyOffsets kImage :: rest) =
          inputAmounts table ∅ (amounts ++ [amount]) rest := by
        simp [inputAmounts, AList.notMem_empty]
      rw [hstep]
      simpa [TxIn.isToKey] using ih (amounts ++ [amount])
    | gen height => exact .inr ⟨by simp [TxIn.isToKey], rfl⟩
    | toScript prev prevout sigset => exact .inr ⟨by simp [TxIn.isToKey], rfl⟩
    | toScripthash prev prevout keys script sigset => exact .inr ⟨by simp [TxIn.isToKey], rfl⟩

/-- The offsets of inputs to keys are filed. -/
theorem fileOffsets_ok (table : ScanTable) (offsetMap : AList fun _ : UInt64 => List UInt64)
    (vin : List TxIn) (h : ∀ i ∈ vin, i.isToKey = true) :
    ∃ m, fileOffsets table offsetMap vin = .ok m := by
  induction vin, h using TxIn.toKey_induction generalizing offsetMap with
  | nil => exact ⟨offsetMap, rfl⟩
  | cons amount keyOffsets kImage rest _ _ ih =>
    exact ih _

/-- The three ways the first pass over a transaction ends. -/
theorem gatherTx_cases (E : Externals) (g : Gathered) (t : TxBlobEntry) :
    (gatherTx E g t = scanTableQuit ∧ ¬ ThrowsAt E g.table.keys t ∧
        ∀ tx, ReadsAs E t tx → E.txPrefixHash tx ∈ g.table.keys) ∨
      (ThrowsAt E g.table.keys t ∧ ∃ table, gatherTx E g t = .error (.threw, table)) ∨
      ∃ tx g', ReadsAs E t tx ∧ E.txPrefixHash tx ∉ g.table.keys ∧ SpendsKeys tx ∧
        gatherTx E g t = .ok g' ∧ g'.table.keys = E.txPrefixHash tx :: g.table.keys ∧
        g'.txes = g.txes ++ [(tx, E.txPrefixHash tx)] := by
  cases hthrows : E.parseTxBaseThrows t.blob with
  | true => exact .inr (.inl ⟨.inl hthrows, g.table, by simp only [gatherTx, hthrows, if_true]⟩)
  | false =>
    cases hparse : E.parseTxBase t.blob with
    | none =>
      refine .inl ⟨by simp [gatherTx, hthrows, hparse], ?_, ?_⟩
      · rintro (h | ⟨tx, h, -⟩)
        · simp [hthrows] at h
        · simp [h.2] at hparse
      · intro tx h
        simp [h.2] at hparse
    | some tx =>
      have hread : ReadsAs E t tx := ⟨hthrows, hparse⟩
      by_cases hseen : E.txPrefixHash tx ∈ g.table.keys
      · have hmem : E.txPrefixHash tx ∈ g.table := AList.mem_keys.mpr hseen
        refine .inl ⟨by simp [gatherTx, hthrows, hparse, hmem], ?_, ?_⟩
        · rintro (h | ⟨tx', h, hnew, -⟩)
          · simp [hthrows] at h
          · exact hnew (hread.unique h ▸ hseen)
        · intro tx' h
          exact hread.unique h ▸ hseen
      · have hmem : E.txPrefixHash tx ∉ g.table := fun h => hseen (AList.mem_keys.mp h)
        let table := g.table.insert (E.txPrefixHash tx) ∅
        rcases inputAmounts_cases table g.amounts tx.vin with ⟨hkeys, a, ha⟩ | ⟨hforeign, hbad⟩
        · rcases fileOffsets_ok table (emplaceAmounts g.offsetMap (sortUnique a)) tx.vin hkeys
            with ⟨m, hm⟩
          refine .inr (.inr ⟨tx, ⟨table, sortUnique a, m, g.txes ++ [(tx, E.txPrefixHash tx)]⟩,
            hread, hseen, hkeys, ?_, ?_, rfl⟩)
          · simp [gatherTx, hthrows, hparse, hmem, table, ha, hm]
          · rw [AList.keys_insert, erase_of_not_mem hseen]
        · refine .inr (.inl ⟨.inr ⟨tx, hread, hseen, hforeign⟩, table, ?_⟩)
          simp [gatherTx, hthrows, hparse, hmem, table, hbad]

/-- What a first pass that got through has read. -/
theorem gatherTxs_ok {g g' : Gathered} (h : gatherTxs E g ts = .ok g') :
    ∃ txs, Reads E ts txs ∧ (∀ tx ∈ txs, SpendsKeys tx) ∧
      g'.table.keys = (txs.map E.txPrefixHash).reverse ++ g.table.keys ∧
      g'.txes = g.txes ++ txs.map fun tx => (tx, E.txPrefixHash tx) := by
  induction ts generalizing g with
  | nil =>
    simp only [gatherTxs, Except.ok.injEq] at h
    exact ⟨[], .nil, by simp, by simp [h], by simp [h]⟩
  | cons t rest ih =>
    rw [gatherTxs] at h
    rcases gatherTx_cases E g t with ⟨hq, -⟩ | ⟨-, table, hbad⟩ |
      ⟨tx, g₁, hread, hnew, hkeys, hok, htable, htxes⟩
    · simp [hq, scanTableQuit] at h
    · simp [hbad] at h
    · rw [hok] at h
      rcases ih h with ⟨txs, hreads, hall, htable', htxes'⟩
      refine ⟨tx :: txs, .cons hread hreads, by simpa using ⟨hkeys, hall⟩, ?_, ?_⟩
      · rw [htable', htable]
        simp
      · rw [htxes', htxes]
        simp

/-- Transactions that are read, spend keys and have prefix hashes of their own are passed. -/
theorem gatherTxs_of_reads {txs : List Transaction} (hreads : Reads E ts txs) (g : Gathered)
    (hkeys : ∀ tx ∈ txs, SpendsKeys tx) (hnodup : (txs.map E.txPrefixHash).Nodup)
    (hnew : ∀ tx ∈ txs, E.txPrefixHash tx ∉ g.table.keys) : ∃ g', gatherTxs E g ts = .ok g' := by
  induction hreads generalizing g with
  | nil => exact ⟨g, rfl⟩
  | @cons t tx rest txs hread _ ih =>
    rw [map_cons, nodup_cons] at hnodup
    rcases gatherTx_cases E g t with ⟨-, -, hseen⟩ | ⟨hthrows, -⟩ |
      ⟨tx', g₁, hread', -, -, hok, htable, -⟩
    · exact absurd (hseen tx hread) (hnew tx (by simp))
    · rcases hthrows with hthrows | ⟨tx', hread', -, hforeign⟩
      · simp [hread.1] at hthrows
      · exact absurd (hkeys tx (by simp)) (hread.unique hread' ▸ hforeign)
    · rw [gatherTxs, hok]
      refine ih g₁ (fun u hu => hkeys u (by simp [hu])) hnodup.2 fun u hu => ?_
      rw [htable, hread.unique hread', mem_cons]
      rintro (heq | hmem)
      · exact hnodup.1 (heq ▸ mem_map_of_mem hu)
      · exact hnew u (by simp [hu]) hmem

theorem gatherTxs_append (E : Externals) (g : Gathered) (ts us : List TxBlobEntry) :
    gatherTxs E g (ts ++ us) = match gatherTxs E g ts with
      | .error e => .error e
      | .ok g => gatherTxs E g us := by
  induction ts generalizing g with
  | nil => rfl
  | cons t rest ih =>
    simp only [cons_append, gatherTxs]
    cases gatherTx E g t with
    | error e => rfl
    | ok g₁ => exact ih g₁

/-- The first pass comes to a transaction and throws there. -/
def StopsAt (E : Externals) (g : Gathered) (before : List TxBlobEntry) (t : TxBlobEntry) : Prop :=
  ∃ g', gatherTxs E g before = .ok g' ∧ ThrowsAt E g'.table.keys t

/-- The pass over the transactions of one block throws at one of them. -/
theorem gatherTxs_threw_iff (E : Externals) (g : Gathered) (ts : List TxBlobEntry) :
    (∃ table, gatherTxs E g ts = .error (.threw, table)) ↔
      ∃ before t after, ts = before ++ t :: after ∧ StopsAt E g before t := by
  constructor
  · rintro ⟨table, h⟩
    induction ts generalizing g with
    | nil => simp [gatherTxs] at h
    | cons t rest ih =>
      rw [gatherTxs] at h
      rcases gatherTx_cases E g t with ⟨hq, -⟩ | ⟨hthrows, -⟩ | ⟨tx, g₁, -, -, -, hok, -, -⟩
      · simp [hq, scanTableQuit] at h
      · exact ⟨[], t, rest, rfl, g, rfl, hthrows⟩
      · rw [hok] at h
        rcases ih g₁ h with ⟨before, u, after, hts, g', hg', hu⟩
        refine ⟨t :: before, u, after, by rw [hts, cons_append], g', ?_, hu⟩
        rw [gatherTxs, hok]
        exact hg'
  · rintro ⟨before, t, after, rfl, g', hg', hthrows⟩
    rw [gatherTxs_append, hg']
    rcases gatherTx_cases E g' t with ⟨-, hnot, -⟩ | ⟨-, table, hbad⟩ |
      ⟨tx, g₁, hread, -, hkeys, -⟩
    · exact absurd hthrows hnot
    · exact ⟨table, by simp only [gatherTxs, hbad]⟩
    · rcases hthrows with hthrows | ⟨tx', hread', -, hforeign⟩
      · simp [hread.1] at hthrows
      · exact absurd hkeys (hread.unique hread' ▸ hforeign)

/-- The first pass throws at a transaction of some block, with no cancellation up to it. -/
theorem gatherEntries_threw_iff (E : Externals) (env : PrepareEnv) (index : Nat) (g : Gathered)
    (entries : List BlockCompleteEntry) :
    (∃ table, gatherEntries E env index g entries = .error (.threw, table)) ↔
      ∃ pre e post before t after, entries = pre ++ e :: post ∧ e.txs = before ++ t :: after ∧
        (∀ i ≤ pre.length, env.cancel (.gather (index + i)) = false) ∧
        StopsAt E g (pre.flatMap BlockCompleteEntry.txs ++ before) t := by
  constructor
  · rintro ⟨table, h⟩
    induction entries generalizing index g with
    | nil => simp [gatherEntries] at h
    | cons e rest ih =>
      rw [gatherEntries] at h
      by_cases hcancel : env.cancel (.gather index) = true
      · simp [hcancel] at h
      · rw [if_neg hcancel] at h
        cases hg : gatherTxs E g e.txs with
        | error stop =>
          -- It stops in this block.
          rw [hg] at h
          simp only [Except.error.injEq] at h
          rcases (gatherTxs_threw_iff E g e.txs).mp ⟨table, by rw [hg, h]⟩ with
            ⟨before, t, after, htxs, hstop⟩
          refine ⟨[], e, rest, before, t, after, rfl, htxs, ?_, by simpa using hstop⟩
          intro i hi
          have hi0 : i = 0 := by simpa using hi
          simpa [hi0] using hcancel
        | ok g₁ =>
          rw [hg] at h
          rcases ih (index + 1) g₁ h with
            ⟨pre, e', post, before, t, after, hrest, htxs, hgo, g', hg', ht⟩
          refine ⟨e :: pre, e', post, before, t, after, by rw [hrest, cons_append], htxs,
            ?_, g', ?_, ht⟩
          · intro i hi
            cases i with
            | zero => simpa using hcancel
            | succ i =>
              have := hgo i (by simpa using hi)
              rwa [show index + (i + 1) = index + 1 + i by omega]
          · rw [flatMap_cons, append_assoc, gatherTxs_append, hg]
            exact hg'
  · rintro ⟨pre, e, post, before, t, after, rfl, htxs, hgo, hstop⟩
    induction pre generalizing index g with
    | nil =>
      have hcancel : env.cancel (.gather index) = false := hgo 0 (Nat.zero_le _)
      rcases (gatherTxs_threw_iff E g e.txs).mpr ⟨before, t, after, htxs, by simpa using hstop⟩
        with ⟨table, hbad⟩
      exact ⟨table, by simp [gatherEntries, hbad, hcancel]⟩
    | cons d pre ih =>
      have hcancel : env.cancel (.gather index) = false := hgo 0 (Nat.zero_le _)
      rcases hstop with ⟨g', hg', ht⟩
      rw [flatMap_cons, append_assoc, gatherTxs_append] at hg'
      cases hd : gatherTxs E g d.txs with
      | error stop => simp [hd] at hg'
      | ok g₁ =>
        rw [hd] at hg'
        have hrest := ih (index + 1) g₁ (fun i hi => by
          have := hgo (i + 1) (by simpa using hi)
          rwa [show index + (i + 1) = index + 1 + i by omega] at this) ⟨g', hg', ht⟩
        simpa [gatherEntries, hcancel, hd] using hrest

variable {entries : List BlockCompleteEntry}

/-- The first pass over blocks that got through has parsed transactions that spend keys only. -/
theorem gatherEntries_ok {env : PrepareEnv} {index : Nat} {g g' : Gathered}
    (h : gatherEntries E env index g entries = .ok g') (hg : ∀ p ∈ g.txes, SpendsKeys p.1) :
    ∀ p ∈ g'.txes, SpendsKeys p.1 := by
  induction entries generalizing index g with
  | nil =>
    simp only [gatherEntries, Except.ok.injEq] at h
    exact h ▸ hg
  | cons e rest ih =>
    rw [gatherEntries] at h
    split at h
    · cases h
    · cases htxs : gatherTxs E g e.txs with
      | error stop => simp [htxs] at h
      | ok g₁ =>
        rw [htxs] at h
        rcases gatherTxs_ok htxs with ⟨txs, -, hall, -, htxes⟩
        refine ih h fun p hp => ?_
        rw [htxes, mem_append, mem_map] at hp
        rcases hp with hp | ⟨tx, htx, rfl⟩
        · exact hg p hp
        · exact hall tx htx

/-! ## The second pass -/

section Fill

variable (E : Externals) (env : PrepareEnv) (db : BlockchainDB)
  (offsetMap : AList fun _ : UInt64 => List UInt64)

theorem fillInputs_ok (table : ScanTable) (filed : AList fun _ : KeyImage => List OutputData)
    (vin : List TxIn) (h : ∀ i ∈ vin, i.isToKey = true) :
    ∃ filed', fillInputs E db offsetMap table filed vin = .ok filed' := by
  induction vin, h using TxIn.toKey_induction generalizing filed with
  | nil => exact ⟨filed, rfl⟩
  | cons amount keyOffsets kImage rest _ _ ih =>
    exact ih _

/-- The second pass over a block does not throw, and leaves some of the transactions it was given
    for the blocks behind. -/
theorem fillTxs_cases (table : ScanTable) (txes : List (Transaction × Hash)) (n : Nat)
    (h : ∀ p ∈ txes, SpendsKeys p.1) :
    fillTxs E db offsetMap table txes n = scanTableQuit ∨
      ∃ table' rest, fillTxs E db offsetMap table txes n = .ok (table', rest) ∧
        ∀ p ∈ rest, SpendsKeys p.1 := by
  induction n generalizing table txes with
  | zero => exact .inr ⟨table, txes, by simp only [fillTxs], h⟩
  | succ n ih =>
    cases txes with
    | nil => exact .inl (by simp only [fillTxs])
    | cons p txes =>
      rcases p with ⟨tx, prefixHash⟩
      cases hfiled : table.lookup prefixHash with
      | none => exact .inl (by simp only [fillTxs, hfiled])
      | some filed =>
        rcases fillInputs_ok E db offsetMap table filed tx.vin (h (tx, prefixHash) (by simp)) with
          ⟨filed', hfilled⟩
        have hstep : fillTxs E db offsetMap table ((tx, prefixHash) :: txes) (n + 1) =
            fillTxs E db offsetMap (table.insert prefixHash filed') txes n := by
          simp only [fillTxs, hfiled, hfilled]
        rw [hstep]
        exact ih _ txes fun p hp => h p (by simp [hp])

/-- The second pass does not throw on what the first one got through. -/
theorem fillEntries_threw (index : Nat) (table table' : ScanTable)
    (txes : List (Transaction × Hash)) (entries : List BlockCompleteEntry)
    (h : ∀ p ∈ txes, SpendsKeys p.1) :
    fillEntries E env db offsetMap index table txes entries ≠ .error (.threw, table') := by
  induction entries generalizing index table txes with
  | nil => simp [fillEntries]
  | cons e rest ih =>
    rw [fillEntries]
    split
    · simp
    · rcases fillTxs_cases E db offsetMap table txes e.txs.length h with
        hq | ⟨table₁, txes₁, hok, hrest⟩
      · simp [hq, scanTableQuit]
      · simpa only [hok] using ih (index + 1) table₁ txes₁ hrest

end Fill

/-! ## When the call throws -/

/-- The first pass throws at a transaction of the entries, and nothing stops it before: no
    cancellation, and only transactions that are read, spend keys and have prefix hashes of their
    own. -/
def StrayTx (E : Externals) (env : PrepareEnv) (entries : List BlockCompleteEntry) : Prop :=
  ∃ pre e post before t after txs, entries = pre ++ e :: post ∧ e.txs = before ++ t :: after ∧
    (∀ i ≤ pre.length, env.cancel (.gather i) = false) ∧
    Reads E (pre.flatMap BlockCompleteEntry.txs ++ before) txs ∧
    (∀ u ∈ txs, SpendsKeys u) ∧ (txs.map E.txPrefixHash).Nodup ∧
    ThrowsAt E (txs.map E.txPrefixHash) t

/-- What the table has seen is what was read, whatever its order. -/
theorem ThrowsAt.congr {seen seen' : List Hash} {t : TxBlobEntry} (h : ThrowsAt E seen t)
    (hseen : ∀ x, x ∈ seen' → x ∈ seen) : ThrowsAt E seen' t := by
  rcases h with h | ⟨tx, hread, hnew, hforeign⟩
  · exact .inl h
  · exact .inr ⟨tx, hread, fun hmem => hnew (hseen _ hmem), hforeign⟩

/-- From an empty table, the first pass stops at a transaction exactly when those before it are
    passed and it throws after them. -/
theorem stopsAt_iff (E : Externals) (before : List TxBlobEntry) (t : TxBlobEntry) :
    StopsAt E {} before t ↔ ∃ txs, Reads E before txs ∧ (∀ u ∈ txs, SpendsKeys u) ∧
      (txs.map E.txPrefixHash).Nodup ∧ ThrowsAt E (txs.map E.txPrefixHash) t := by
  have hempty : (({} : Gathered).table).keys = [] := rfl
  constructor
  · rintro ⟨g', hg', hthrows⟩
    rcases gatherTxs_ok hg' with ⟨txs, hreads, hall, htable, -⟩
    rw [hempty, append_nil] at htable
    have hnodup : (txs.map E.txPrefixHash).Nodup := by
      rw [← nodup_reverse, ← htable]
      exact g'.table.keys_nodup
    exact ⟨txs, hreads, hall, hnodup, hthrows.congr fun x hx => by rw [htable]; simpa using hx⟩
  · rintro ⟨txs, hreads, hall, hnodup, hthrows⟩
    rcases gatherTxs_of_reads hreads {} hall hnodup (fun u _ => by simp [hempty]) with ⟨g', hg'⟩
    rcases gatherTxs_ok hg' with ⟨txs', hreads', -, htable, -⟩
    rw [hempty, append_nil, hreads.unique hreads'] at htable
    refine ⟨g', hg', hthrows.congr fun x hx => ?_⟩
    rw [htable] at hx
    simpa using hx

/-- The two passes throw exactly where the first one does. -/
theorem scanEntries_threw_iff (E : Externals) (env : PrepareEnv) (db : BlockchainDB)
    (entries : List BlockCompleteEntry) :
    (∃ table, scanEntries E env db entries = .error (.threw, table)) ↔ StrayTx E env entries := by
  have hfirst : (∃ table, scanEntries E env db entries = .error (.threw, table)) ↔
      ∃ table, gatherEntries E env 0 {} entries = .error (.threw, table) := by
    unfold scanEntries
    cases hg : gatherEntries E env 0 {} entries with
    | error stop => simp
    | ok g =>
      -- The first pass got through, so the second does not throw.
      have hkeys : ∀ p ∈ g.txes, SpendsKeys p.1 := gatherEntries_ok hg (by simp)
      cases env.outputsDone with
      | false => simp
      | true =>
        have hsecond := fun table =>
          fillEntries_threw E env db g.offsetMap 0 g.table table g.txes entries hkeys
        simpa using hsecond
  rw [hfirst, gatherEntries_threw_iff]
  simp only [stopsAt_iff, Nat.zero_add]
  constructor
  · rintro ⟨pre, e, post, before, t, after, h, htxs, hgo, txs, hrest⟩
    exact ⟨pre, e, post, before, t, after, txs, h, htxs, hgo, hrest⟩
  · rintro ⟨pre, e, post, before, t, after, txs, h, htxs, hgo, hrest⟩
    exact ⟨pre, e, post, before, t, after, h, htxs, hgo, txs, hrest⟩

/-! ## Reading the blocks -/

/-- The blocks of the entries in front of the first that cannot be read with its id. -/
def readable (E : Externals) : List BlockCompleteEntry → List Block
  | [] => []
  | e :: rest =>
    match E.parseBlock e.block with
    | none => []
    | some b => if b.hashThrows then [] else b :: readable E rest

/-- Reading an entry throws for the id of its block. -/
def IdThrows (E : Externals) (e : BlockCompleteEntry) : Prop :=
  ∃ b, E.parseBlock e.block = some b ∧ b.hashThrows = true

/-- The first entry that cannot be read throws. -/
def ThrowsNext (E : Externals) (entries : List BlockCompleteEntry) : Prop :=
  ∃ e, entries[(readable E entries).length]? = some e ∧ IdThrows E e

/-- Every entry can be read. -/
def AllRead (E : Externals) (entries : List BlockCompleteEntry) : Prop :=
  (readable E entries).length = entries.length

/-- Blocks after which the pass goes on: if the threads get any, the first one follows the top, and
    once the threads have theirs, none of them exists. -/
structure GoesOn (E : Externals) (haveBlock : Hash → Bool) (tophash : Hash) (batched : Nat)
    (blocks : List Block) : Prop where
  follows : 0 < batched → ∀ b ∈ blocks.head?, b.prevId = tophash
  fresh : batched ≤ blocks.length → ∀ b ∈ blocks, haveBlock (E.blockHash b) = false

section Read

variable {e : BlockCompleteEntry} {rest l : List BlockCompleteEntry} {b : Block}

/-- An entry cannot be parsed, throws for its id, or is read. -/
theorem entry_cases (E : Externals) (e : BlockCompleteEntry) (rest : List BlockCompleteEntry) :
    (E.parseBlock e.block = none ∧ ¬ IdThrows E e ∧ readable E (e :: rest) = []) ∨
    (∃ b, E.parseBlock e.block = some b ∧ b.hashThrows = true ∧ IdThrows E e ∧
      readable E (e :: rest) = []) ∨
    ∃ b, E.parseBlock e.block = some b ∧ b.hashThrows = false ∧
      readable E (e :: rest) = b :: readable E rest := by
  rw [readable, IdThrows]
  cases E.parseBlock e.block with
  | none => simp
  | some b => cases hthrows : b.hashThrows <;> simp [hthrows]

/-- How a pass over the blocks ends when nothing but an entry stops it. -/
structure ReadEnd (E : Externals) (haveBlock : Hash → Bool) (l : List BlockCompleteEntry)
    (r : ParseEnd) : Prop where
  threw : r = .threw ↔ ThrowsNext E l
  parsed : AllRead E l →
    r = .parsed (readable E l) ((readable E l).any fun b => haveBlock (E.blockHash b))
  not_parsed : ¬ AllRead E l → ∀ blocks exist, r ≠ .parsed blocks exist

variable {haveBlock : Hash → Bool} {tophash : Hash}

theorem ReadEnd.cons {r : ParseEnd} (h : ReadEnd E haveBlock rest r)
    (hread : readable E (e :: rest) = b :: readable E rest) :
    ReadEnd E haveBlock (e :: rest) (r.before [b] (haveBlock (E.blockHash b))) := by
  have hnext : ThrowsNext E (e :: rest) ↔ ThrowsNext E rest := by
    rw [ThrowsNext, ThrowsNext, hread]
    rfl
  have hall : AllRead E (e :: rest) ↔ AllRead E rest := by
    rw [AllRead, AllRead, hread, length_cons, length_cons, Nat.add_right_cancel_iff]
  refine ⟨?_, fun h' => ?_, fun h' => ?_⟩
  · rw [hnext, ← h.threw]
    cases r <;> simp [ParseEnd.before]
  · rw [h.parsed (hall.mp h'), hread]
    rfl
  · have hnot := h.not_parsed (mt hall.mpr h')
    cases r with
    | parsed blocks exist => exact absurd rfl (hnot blocks exist)
    | _ => exact nofun

/-- An entry that cannot be read stops the pass. -/
theorem readEnd_stopped (hread : readable E (e :: rest) = []) :
    (IdThrows E e → ReadEnd E haveBlock (e :: rest) .threw) ∧
      (¬ IdThrows E e → ReadEnd E haveBlock (e :: rest) .malformed) := by
  have hnext : ThrowsNext E (e :: rest) ↔ IdThrows E e := by
    simp [ThrowsNext, hread]
  have hall : ¬ AllRead E (e :: rest) := by
    simp [AllRead, hread]
  exact ⟨fun h => ⟨iff_of_true rfl (hnext.mpr h), fun h' => absurd h' hall, fun _ => nofun⟩,
    fun h => ⟨iff_of_false nofun (mt hnext.mp h), fun h' => absurd h' hall, fun _ => nofun⟩⟩

theorem readEnd_nil : ReadEnd E haveBlock [] (.parsed [] false) :=
  ⟨by simp [ThrowsNext], fun _ => rfl, fun h => absurd rfl h⟩

variable (haveBlock tophash)

/-- The blocks of the threads: apart from the check of the first one, only an entry stops the pass.
    -/
theorem parseBatches_end (first : Bool) (l : List BlockCompleteEntry) :
    if first = true ∧ ∃ b ∈ (readable E l).head?, b.prevId ≠ tophash then
      parseBatches E haveBlock tophash first l = .detached
    else ReadEnd E haveBlock l (parseBatches E haveBlock tophash first l) := by
  induction l generalizing first with
  | nil => simpa [readable, parseBatches] using readEnd_nil
  | cons e rest ih =>
    rw [parseBatches]
    rcases entry_cases E e rest with ⟨hparse, hid, hread⟩ | ⟨b, hparse, hthrows, hid, hread⟩ |
      ⟨b, hparse, hthrows, hread⟩
    · simpa [hparse, hread] using (readEnd_stopped hread).2 hid
    · simpa [hparse, hthrows, hread] using (readEnd_stopped hread).1 hid
    · have hrest := ih false
      rw [if_neg (by simp)] at hrest
      by_cases hfollows : first = true ∧ b.prevId ≠ tophash
      · simp [hparse, hthrows, hread, hfollows]
      · have hgo : (first && decide (b.prevId ≠ tophash)) = false := by simpa using hfollows
        simp only [hparse, hthrows, hread, hgo, Bool.false_eq_true, if_false]
        rw [if_neg (by simpa using hfollows)]
        exact hrest.cons hread

/-- The blocks that are left: only an entry stops the pass, until a block exists. -/
theorem parseExtra_end (l : List BlockCompleteEntry) :
    if (readable E l).any fun b => haveBlock (E.blockHash b) then
      ∃ blocks, parseExtra E haveBlock false l = .parsed blocks true
    else ReadEnd E haveBlock l (parseExtra E haveBlock false l) := by
  induction l with
  | nil => simpa [readable, parseExtra] using readEnd_nil
  | cons e rest ih =>
    rw [parseExtra]
    rcases entry_cases E e rest with ⟨hparse, hid, hread⟩ | ⟨b, hparse, hthrows, hid, hread⟩ |
      ⟨b, hparse, hthrows, hread⟩
    · simpa [hparse, hread] using (readEnd_stopped hread).2 hid
    · simpa [hparse, hthrows, hread] using (readEnd_stopped hread).1 hid
    · simp only [hparse, hthrows, hread, Bool.false_eq_true, if_false, any_cons]
      cases hhave : haveBlock (E.blockHash b) with
      | true => cases rest <;> simp [parseExtra, ParseEnd.before]
      | false =>
        by_cases hany : ((readable E rest).any fun b => haveBlock (E.blockHash b)) = true
        · rw [if_pos hany] at ih
          rcases ih with ⟨blocks, hblocks⟩
          simp [hany, hblocks, ParseEnd.before]
        · rw [if_neg hany] at ih
          have hcons := ih.cons hread
          rw [hhave] at hcons
          simpa [hany] using hcons

theorem length_readable_le (E : Externals) (l : List BlockCompleteEntry) :
    (readable E l).length ≤ l.length := by
  induction l with
  | nil => exact le_rfl
  | cons e rest ih =>
    rcases entry_cases E e rest with ⟨-, -, hread⟩ | ⟨_, -, -, -, hread⟩ | ⟨_, -, -, hread⟩ <;>
      simp [hread, ih]

/-- More entries are come to when all before them are read. -/
theorem readable_append (E : Externals) (l l' : List BlockCompleteEntry) :
    readable E (l ++ l') = readable E l ++
      if (readable E l).length = l.length then readable E l' else [] := by
  induction l with
  | nil => simp [readable]
  | cons e l ih =>
    rw [cons_append, readable, readable, ih]
    cases E.parseBlock e.block with
    | none => simp
    | some b => cases hthrows : b.hashThrows <;> simp [hthrows]

/-- The whole pass. Past the blocks of the threads it goes on as long as no block exists. -/
theorem parseEntries_iff (threads : Nat) (entries : List BlockCompleteEntry) :
    (parseEntries E haveBlock tophash threads entries = .threw ↔
      GoesOn E haveBlock tophash (threads * (entries.length / threads)) (readable E entries) ∧
        ThrowsNext E entries) ∧
      ((∃ blocks, parseEntries E haveBlock tophash threads entries = .parsed blocks false) ↔
        GoesOn E haveBlock tophash (threads * (entries.length / threads)) (readable E entries) ∧
          AllRead E entries) := by
  have hle : threads * (entries.length / threads) ≤ entries.length := Nat.mul_div_le _ _
  simp only [parseEntries]
  generalize threads * (entries.length / threads) = batched at hle
  have hlen : (entries.take batched).length = batched := length_take_of_le hle
  have hsplit := readable_append E (entries.take batched) (entries.drop batched)
  rw [take_append_drop, hlen] at hsplit
  have hbatches := parseBatches_end (E := E) haveBlock tophash true (entries.take batched)
  have hextra := parseExtra_end (E := E) haveBlock (entries.drop batched)
  have hfollows : (∃ b ∈ (readable E (entries.take batched)).head?, b.prevId ≠ tophash) ↔
      ¬ (0 < batched → ∀ b ∈ (readable E entries).head?, b.prevId = tophash) := by
    rw [hsplit]
    cases hA : readable E (entries.take batched) with
    | nil => cases batched <;> simp
    | cons a A =>
      have hpos : 0 < batched := by
        have := length_readable_le E (entries.take batched)
        rw [hA, hlen, length_cons] at this
        omega
      simp [hpos]
  simp only [true_and, hfollows] at hbatches
  by_cases hgo : 0 < batched → ∀ b ∈ (readable E entries).head?, b.prevId = tophash
  · rw [if_neg (not_not.mpr hgo)] at hbatches
    -- The entries left over are read only if the batches were.
    by_cases hall : (readable E (entries.take batched)).length = batched
    · rw [if_pos hall] at hsplit
      rw [hbatches.parsed (hall.trans hlen.symm)]
      have hgoes : GoesOn E haveBlock tophash batched (readable E entries) ↔
          ((readable E (entries.take batched)).any fun b => haveBlock (E.blockHash b)) = false ∧
          ((readable E (entries.drop batched)).any fun b => haveBlock (E.blockHash b)) = false := by
        simp only [any_eq_false, Bool.not_eq_true]
        rw [← forall_mem_append, ← hsplit]
        exact ⟨fun h => h.fresh (by rw [hsplit, length_append]; omega), fun h => ⟨hgo, fun _ => h⟩⟩
      have hnext : ThrowsNext E (entries.drop batched) ↔ ThrowsNext E entries := by
        rw [ThrowsNext, ThrowsNext, hsplit, length_append, hall, getElem?_drop]
      have hread : AllRead E (entries.drop batched) ↔ AllRead E entries := by
        rw [AllRead, AllRead, hsplit, length_append, hall, length_drop]
        omega
      rw [hgoes, ← hnext, ← hread]
      cases (readable E (entries.take batched)).any fun b => haveBlock (E.blockHash b) with
      | true => cases entries.drop batched <;> simp [parseExtra, ParseEnd.before]
      | false =>
        cases hany : (readable E (entries.drop batched)).any fun b => haveBlock (E.blockHash b) with
        | true =>
          rw [if_pos hany] at hextra
          rcases hextra with ⟨blocks, hblocks⟩
          simp [hblocks, ParseEnd.before]
        | false =>
          rw [if_neg (by simp [hany])] at hextra
          dsimp only
          by_cases hrest : AllRead E (entries.drop batched)
          · have hthrew := hextra.threw
            rw [hextra.parsed hrest] at hthrew ⊢
            simp [ParseEnd.before, hrest, ← hthrew, hany]
          · have hthrew := hextra.threw
            have hnot := hextra.not_parsed hrest
            generalize parseExtra E haveBlock false (entries.drop batched) = r at hthrew hnot
            cases r with
            | parsed blocks exist => exact absurd rfl (hnot blocks exist)
            | _ => simp [ParseEnd.before, hrest, ← hthrew]
    · rw [if_neg hall, append_nil] at hsplit
      have hlt := lt_of_le_of_ne ((length_readable_le E _).trans hlen.le) hall
      have hgoes : GoesOn E haveBlock tophash batched (readable E entries) :=
        ⟨hgo, fun hge => by rw [hsplit] at hge; omega⟩
      have hnext : ThrowsNext E (entries.take batched) ↔ ThrowsNext E entries := by
        rw [ThrowsNext, ThrowsNext, hsplit, getElem?_take_of_lt hlt]
      have hnot : ¬ AllRead E entries := by
        rw [AllRead, hsplit]
        omega
      have hthrew := hbatches.threw.trans hnext
      have hunread := hbatches.not_parsed (by rw [AllRead, hlen]; exact hall)
      generalize parseBatches E haveBlock tophash true (entries.take batched) = r at hthrew hunread
      cases r with
      | parsed blocks exist => exact absurd rfl (hunread blocks exist)
      | _ => simp [hgoes, hnot, ← hthrew]
  · rw [if_pos hgo] at hbatches
    have hnot : ¬ GoesOn E haveBlock tophash batched (readable E entries) := fun h => hgo h.follows
    simp [hbatches, hnot]

end Read

/-- The chain the preparation works on: what was found after the last wait for the batch. -/
def PrepareEnv.chainFound (env : PrepareEnv) (chain : Blockchain) : Blockchain :=
  env.waits.getLastD chain

/-- The preparation throws: the blocks are past the compiled-in hashes, the pass over them goes on,
    and either the first that cannot be read throws for its id, or all are read, the workers end
    well, nothing is cancelled, and the first pass over the transactions throws. -/
structure PrepareThrows (E : Externals) (env : PrepareEnv) (chain : Blockchain)
    (entries : List BlockCompleteEntry) : Prop where
  nonempty : entries ≠ []
  past : chain.blocksHashCheck.length ≤ chain.height + entries.length
  goesOn : GoesOn E chain.haveBlock chain.db.topBlockHash
    (env.threads * (entries.length / env.threads)) (readable E entries)
  reached : ThrowsNext E entries ∨ AllRead E entries ∧ env.longhashesDone = true ∧
    (env.cancel .afterLonghashes = false ∧ env.cancel .beforeScan = false) ∧ StrayTx E env entries

/-- Only a flag of the chain is set before the blocks are looked at. -/
theorem prepareThrows_startBatch (E : Externals) (env : PrepareEnv) (chain : Blockchain)
    (entries : List BlockCompleteEntry) :
    PrepareThrows E env chain.startBatch entries ↔ PrepareThrows E env chain entries :=
  ⟨fun h => ⟨h.nonempty, h.past, h.goesOn, h.reached⟩,
    fun h => ⟨h.nonempty, h.past, h.goesOn, h.reached⟩⟩

namespace Node

theorem waitForBatch_chain (waits : List Blockchain) (n : Node) :
    (waitForBatch waits n).chain = waits.getLastD n.chain := by
  induction waits generalizing n with
  | nil => rfl
  | cons chain rest ih =>
    rw [waitForBatch, ih]
    cases rest <;> rfl

variable (E : Externals) (env : PrepareEnv) (n : Node) (entries : List BlockCompleteEntry)

/-- The transactions are looked at by the last part alone. -/
theorem prepareScan_throws_iff :
    (prepareScan E env n entries).1 = .throws ↔ StrayTx E env entries := by
  rw [← scanEntries_threw_iff E env n.chain.db entries, prepareScan]
  rcases scanEntries E env n.chain.db entries with ⟨why, table⟩ | table
  · cases why <;> simp
  · simp

theorem prepareLonghashes_throws_iff (blocks : List Block) :
    (prepareLonghashes E env n entries blocks).1 = .throws ↔ env.longhashesDone = true ∧
        (env.cancel .afterLonghashes = false ∧ env.cancel .beforeScan = false) ∧
          StrayTx E env entries := by
  simp only [prepareLonghashes]
  cases hdone : env.longhashesDone <;> cases hafter : env.cancel .afterLonghashes <;>
    cases hbefore : env.cancel .beforeScan <;> simp [prepareScan_throws_iff]

theorem prepareBlocks_throws_iff (hne : entries ≠ []) :
    (prepareBlocks E env n entries).1 = .throws ↔ PrepareThrows E env n.chain entries := by
  unfold prepareBlocks
  split_ifs with hpast
  · refine iff_of_false (by simp) fun h => ?_
    have := h.past
    omega
  · -- Only a pass that throws, or that comes to its end with new blocks, gets to an exception.
    have hiff : PrepareThrows E env n.chain entries ↔ _ ∧ _ :=
      ⟨fun h => ⟨h.goesOn, h.reached⟩, fun h => ⟨hne, by omega, h.1, h.2⟩⟩
    rcases parseEntries_iff (E := E) n.chain.haveBlock n.chain.db.topBlockHash env.threads entries
      with ⟨hthrew, hparsed⟩
    rw [hiff, and_or_left, ← hthrew, ← and_assoc, ← hparsed]
    cases hparse : parseEntries E n.chain.haveBlock n.chain.db.topBlockHash env.threads entries with
    | malformed | threw | detached => simp
    | parsed blocks exist =>
      cases exist with
      | true => simp
      | false => simp [prepareLonghashes_throws_iff]

/-- When the whole call throws. -/
theorem prepare_throws_iff : (n.prepareHandleIncomingBlocks E env entries).1 = .throws ↔
      PrepareThrows E env (env.chainFound n.chain) entries := by
  have hcore : (n.prepareHandleIncomingBlocks E env entries).1 = .throws ↔
      (n.lockIncomingTx.chainPrepareHandleIncomingBlocks E env entries).1 = .throws := by
    simp only [prepareHandleIncomingBlocks]
    split
    · next h => simp [h]
    · rfl
  rw [hcore, chainPrepareHandleIncomingBlocks]
  split_ifs with hne
  · exact iff_of_false (by simp) fun h => h.nonempty hne
  · simp only [prepareBlocks_throws_iff E env _ entries hne]
    rw [PrepareEnv.chainFound, withChain, prepareThrows_startBatch, waitForBatch_chain]
    rfl

/-! ## What is held -/

/-- The locks and the batch of a node. -/
def SameHold (n m : Node) : Prop :=
  m.locks = n.locks ∧ m.batch = n.batch

theorem prepareScan_eq :
    ∃ scanTable, (prepareScan E env n entries).2 = n.withScanTable scanTable := by
  unfold prepareScan
  rcases scanEntries E env n.chain.db entries with ⟨why, table⟩ | table
  · cases why <;> exact ⟨table, rfl⟩
  · exact ⟨table, rfl⟩

/-- Preparing blocks fills tables, and leaves everything else alone. -/
theorem prepareBlocks_eq :
    ∃ height hashes table scanTable, (prepareBlocks E env n entries).2.2 =
      (n.withChain ((n.chain.withLonghashes table).withPrepared height hashes)).withScanTable
        scanTable := by
  unfold prepareBlocks
  split
  · exact ⟨_, _, _, _, rfl⟩
  · split
    · exact ⟨_, _, _, _, rfl⟩
    · exact ⟨_, _, _, _, rfl⟩
    · exact ⟨_, _, _, _, rfl⟩
    · exact ⟨_, _, _, _, rfl⟩
    · simp only [prepareLonghashes]
      split
      · split <;> exact ⟨_, _, _, _, rfl⟩
      · split
        · split <;> exact ⟨_, _, _, _, rfl⟩
        · rcases prepareScan_eq E env (n.withChain _) entries with ⟨scanTable, hscan⟩
          rw [hscan]
          split <;> exact ⟨_, _, _, scanTable, rfl⟩

theorem prepareBlocks_sameHold : n.SameHold (prepareBlocks E env n entries).2.2 := by
  rcases prepareBlocks_eq E env n entries with ⟨_, _, _, _, heq⟩
  rw [heq]
  exact ⟨rfl, rfl⟩

/-- While it waits the thread gives both locks up once, and has them again afterwards. -/
theorem waitForBatch_hold (waits : List Blockchain) (n : Node) (hpool : 0 < n.locks.txPool)
    (hchain : 0 < n.locks.blockchain) :
    (waitForBatch waits n).locks = n.locks ∧ (waitForBatch waits n).batch.isSome := by
  induction waits generalizing n with
  | nil => exact ⟨rfl, rfl⟩
  | cons chain rest ih =>
    have hback : ((n.unlockBlockchain.unlockTxPool.withChain chain).lockTxPool.lockBlockchain).locks
        = n.locks := by
      simp only [lockBlockchain, lockTxPool, withChain, unlockTxPool, unlockBlockchain,
        Nat.sub_add_cancel hpool, Nat.sub_add_cancel hchain]
    have hrest := ih _ (by rwa [hback]) (by rwa [hback])
    rwa [hback] at hrest

/-- The batch is closed whatever happened, and no lock is touched. -/
theorem closeBatch_hold : n.closeBatch.2.locks = n.locks ∧ n.closeBatch.2.batch = none := by
  unfold closeBatch
  cases hbatch : n.batch with
  | none => exact ⟨rfl, hbatch⟩
  | some before =>
    by_cases hok : n.chain.batchSuccess = true
    · simp only [hok, if_true]
      split <;> exact ⟨rfl, rfl⟩
    · simp only [hok]
      exact ⟨rfl, rfl⟩

/-- What the calling thread holds between the two calls. -/
def heldLocks (l : Locks) : Locks :=
  { l with incomingTx := l.incomingTx + 1, txPool := l.txPool + 1 }

/-- The cleanup gives back one of each lock and leaves no batch. -/
theorem cleanup_hold (l : Locks) (h : n.locks = heldLocks l) :
    n.cleanupHandleIncomingBlocks.2.locks = l ∧ n.cleanupHandleIncomingBlocks.2.batch = none := by
  have hclose := n.lockBlockchain.closeBatch_hold
  constructor
  · simp only [cleanupHandleIncomingBlocks, chainCleanupHandleIncomingBlocks, unlockIncomingTx,
      unlockTxPool, unlockBlockchain, withScanTable, withChain]
    rw [hclose.1]
    simp only [lockBlockchain, h, heldLocks, Nat.add_sub_cancel]
  · exact hclose.2

/-- After the chain's own preparation both locks are held, whatever it returns, and the batch is
    open unless there was nothing to prepare. -/
theorem chainPrepare_hold :
    (n.lockIncomingTx.chainPrepareHandleIncomingBlocks E env entries).2.2.locks =
        heldLocks n.locks ∧
      (entries ≠ [] →
        (n.lockIncomingTx.chainPrepareHandleIncomingBlocks E env entries).2.2.batch.isSome) := by
  unfold chainPrepareHandleIncomingBlocks
  by_cases hne : entries = []
  · rw [if_pos hne]
    refine ⟨?_, absurd hne⟩
    simp only [unlockBlockchain, lockBlockchain, lockTxPool, lockIncomingTx, heldLocks,
      Nat.add_sub_cancel]
  · simp only [if_neg hne]
    have hwait := waitForBatch_hold env.waits n.lockIncomingTx.lockTxPool.lockBlockchain
      (Nat.succ_pos _) (Nat.succ_pos _)
    have hsame := prepareBlocks_sameHold E env
      ((waitForBatch env.waits n.lockIncomingTx.lockTxPool.lockBlockchain).withChain
        (waitForBatch env.waits n.lockIncomingTx.lockTxPool.lockBlockchain).chain.startBatch)
          entries
    refine ⟨?_, fun _ => ?_⟩
    · rw [unlockBlockchain, hsame.1, withChain, hwait.1]
      simp only [lockBlockchain, lockTxPool, lockIncomingTx, heldLocks, Nat.add_sub_cancel]
    · rw [unlockBlockchain, hsame.2]
      exact hwait.2

/-- What the two callers rely on: with true both locks are held and the batch is open, with false
    everything is as before and no batch is open, and there is no other way out. -/
def Contract (before : Node) (r : CallEnd × List Block × Node) : Prop :=
  match r.1 with
  | .returns true => r.2.2.locks = heldLocks before.locks ∧ r.2.2.batch.isSome
  | .returns false => r.2.2.locks = before.locks ∧ r.2.2.batch = none
  | .throws => False

/-- A call that returns keeps the contract. -/
theorem prepare_contract_iff :
    n.Contract (n.prepareHandleIncomingBlocks E env entries) ↔
      (n.prepareHandleIncomingBlocks E env entries).1 ≠ .throws := by
  have hhold := chainPrepare_hold E env n entries
  -- With nothing to prepare the call returns false, so true comes with a batch.
  have hempty : entries = [] →
      (n.lockIncomingTx.chainPrepareHandleIncomingBlocks E env entries).1 = .returns false := by
    intro hne
    rw [chainPrepareHandleIncomingBlocks, if_pos hne]
  simp only [prepareHandleIncomingBlocks]
  generalize n.lockIncomingTx.chainPrepareHandleIncomingBlocks E env entries = r at hhold hempty ⊢
  rcases r with ⟨callEnd, blocks, m⟩
  cases callEnd with
  | throws => simp [Contract]
  | returns value =>
    cases value with
    | false => simpa [Contract] using cleanup_hold m n.locks hhold.1
    | true =>
      have hne : entries ≠ [] := fun h => by simpa using hempty h
      simpa [Contract] using ⟨hhold.1, hhold.2 hne⟩

end Node

end CocaineNode
