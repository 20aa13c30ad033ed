import CocaineNode.Core.Outputs
import CocaineNode.Lib.WordSum

/-!
# Ring Members and Their Heights

`check_tx_inputs_ring_members_diff` is there so that a ring names distinct
outputs: it asks that no distance between neighbours is zero. The distances are
added up in 64-bit words, though, and a sum that wraps comes back to lower
indices, or to the same ones. A ring is increasing exactly when its distances
also sum to less than `2^64` as integers (`ringMembers_increasing_iff`).

The order matters for more than distinctness. `scan_outputkeys_for_indexes`
takes the height of the youngest member from the last one alone. Outputs are
filed in the order of their blocks, so in an increasing ring the last member is
the youngest; after a wrap it need not be.

## Theorems

* `scanOutputkeysForIndexes_related`: The scan reports the last member.
* `ringMembers_increasing_iff`: When the rule does what it is for.
-/

namespace CocaineNode

open List BlockchainDB

open WordSum

/-! ## The indices of a ring -/

theorem raise_eq (previous : UInt64) (offsets : List UInt64) :
    relativeOutputOffsetsToAbsolute.raise previous offsets = runningSums previous offsets := by
  induction offsets generalizing previous with
  | nil => rfl
  | cons offset rest ih =>
    rw [relativeOutputOffsetsToAbsolute.raise, runningSums, ih, UInt64.add_comm]

theorem relativeOutputOffsetsToAbsolute_eq (offsets : List UInt64) :
    relativeOutputOffsetsToAbsolute offsets = runningSums 0 offsets := by
  cases offsets with
  | nil => rfl
  | cons first rest =>
    rw [relativeOutputOffsetsToAbsolute, runningSums, raise_eq, UInt64.zero_add]

/-- A ring that was accepted at version 12 has no zero distance. -/
theorem offsets_ne_zero {tx : Transaction} {amount : UInt64} {keyOffsets : List UInt64}
    {kImage : KeyImage} (haccepted : tx.checkTxInputsRingMembersDiff 12 = true)
    (hin : TxIn.toKey amount keyOffsets kImage ∈ tx.vin) : ∀ a ∈ keyOffsets.tail, a ≠ 0 := by
  rw [Transaction.checkTxInputsRingMembersDiff, if_pos (by decide), all_eq_true] at haccepted
  have hone := all_eq_true.mp (haccepted _ hin)
  intro a ha
  simpa using hone a ha

/-! ## Outputs in the order of their blocks -/

namespace BlockchainDB

variable {E : Externals} {amount : UInt64}

theorem outputs_height {b : StoredBlock} {height : Nat} {o : OutputData}
    (h : o ∈ b.outputs E height amount) : o.height = height := by
  rcases mem_filterMap.mp h with ⟨e, he, hamount⟩
  rcases mem_flatMap.mp he with ⟨tx, -, hstored⟩
  have ho : e.2 = o := by
    split at hamount
    · exact Option.some.inj hamount
    · cases hamount
  rcases mem_mapIdx.mp hstored with ⟨i, hi, hentry⟩
  rw [← ho, ← hentry]

theorem outputsFrom_height_le {blocks : List StoredBlock} {height : Nat} {o : OutputData}
    (h : o ∈ outputsFrom E amount height blocks) : height ≤ o.height := by
  induction blocks generalizing height with
  | nil => cases h
  | cons b rest ih =>
    rcases mem_append.mp h with hfirst | hrest
    · exact (outputs_height hfirst).ge
    · exact Nat.le_of_succ_le (ih hrest)

theorem outputsFrom_pairwise (E : Externals) (amount : UInt64) (blocks : List StoredBlock)
    (height : Nat) :
    (outputsFrom E amount height blocks).Pairwise fun a b => a.height ≤ b.height := by
  induction blocks generalizing height with
  | nil => exact List.Pairwise.nil
  | cons b rest ih =>
    refine pairwise_append.mpr ⟨?_, ih (height + 1), ?_⟩
    · refine pairwise_iff_forall_sublist.mpr fun {o o'} hsub => ?_
      have ho := outputs_height (hsub.subset (mem_cons_self ..))
      have ho' := outputs_height (hsub.subset (mem_cons_of_mem _ (mem_cons_self ..)))
      omega
    · intro o ho o' ho'
      have hheight := outputs_height ho
      have hle := outputsFrom_height_le ho'
      omega

theorem height_le_of_lt {db : BlockchainDB} {i j : UInt64} {a b : OutputData}
    (ha : db.getOutputKey E amount i = some a) (hb : db.getOutputKey E amount j = some b)
    (hlt : i < j) : a.height ≤ b.height := by
  rcases List.getElem?_eq_some_iff.mp ha with ⟨hi, rfl⟩
  rcases List.getElem?_eq_some_iff.mp hb with ⟨hj, rfl⟩
  exact pairwise_iff_getElem.mp (outputsFrom_pairwise E amount db.blocks 0) _ _ hi hj
    (UInt64.lt_iff_toNat_lt.mp hlt)

/-! ## Looking up a ring -/

variable {E : Externals} {db : BlockchainDB} {amount : UInt64} {indices : List UInt64}

theorem mem_getOutputKeys {o : OutputData} (h : o ∈ db.getOutputKeys E amount indices) :
    ∃ i ∈ indices, db.getOutputKey E amount i = some o := by
  induction indices with
  | nil => cases h
  | cons i rest ih =>
    simp only [getOutputKeys] at h
    split at h
    · cases h
    · rename_i o' hfound
      rcases mem_cons.mp h with rfl | h
      · exact ⟨i, mem_cons_self .., hfound⟩
      · rcases ih h with ⟨j, hj, hfound'⟩
        exact ⟨j, mem_cons_of_mem _ hj, hfound'⟩

/-- The members of an increasing ring are in the order of their blocks. -/
theorem getOutputKeys_pairwise (h : indices.Pairwise (· < ·)) :
    (db.getOutputKeys E amount indices).Pairwise fun a b => a.height ≤ b.height := by
  induction indices with
  | nil => exact List.Pairwise.nil
  | cons i rest ih =>
    rcases pairwise_cons.mp h with ⟨hfirst, hrest⟩
    simp only [getOutputKeys]
    split
    · exact List.Pairwise.nil
    · rename_i o hfound
      refine pairwise_cons.mpr ⟨fun o' ho' => ?_, ih hrest⟩
      rcases mem_getOutputKeys ho' with ⟨j, hj, hfound'⟩
      exact height_le_of_lt hfound hfound' (hfirst j hj)

theorem getOutputKeys_getElem? {k : Nat} (hk : k < (db.getOutputKeys E amount indices).length) :
    (db.getOutputKeys E amount indices)[k]? = (indices[k]?).bind (db.getOutputKey E amount) := by
  induction indices generalizing k with
  | nil => cases hk
  | cons i rest ih =>
    simp only [getOutputKeys] at hk ⊢
    split at hk
    · cases hk
    · rename_i o hfound
      cases k with
      | zero => simp [hfound]
      | succ k => simpa using ih (by simpa using hk)

end BlockchainDB

/-! ## The scan -/

/-- The table of outputs holds what the database does for the first members of a ring. -/
def Coherent (E : Externals) (db : BlockchainDB) (table : ScanTable) (txPrefixHash : Hash)
    (input : TxInToKey) : Prop :=
  ∀ outputs, ((table.lookup txPrefixHash).bind fun t => t.lookup input.kImage) = some outputs →
    outputs <+: db.getOutputKeys E input.amount (relativeOutputOffsetsToAbsolute input.keyOffsets)

/-- The heights of the members of a ring, in its order. -/
def ringHeights (E : Externals) (db : BlockchainDB) (input : TxInToKey) : List Nat :=
  (db.getOutputKeys E input.amount (relativeOutputOffsetsToAbsolute input.keyOffsets)).map
    OutputData.height

section Scan

variable {σ : Type} {E : Externals} {db : BlockchainDB} {table : ScanTable} {txPrefixHash : Hash}
  {input : TxInToKey}

/-- The outputs the scan starts from are those of the database. -/
theorem scannedOutputs_getElem?
    {outputs : List OutputData} (hcoherent : Coherent E db table txPrefixHash input)
    (h : scannedOutputs E db table txPrefixHash input
      (relativeOutputOffsetsToAbsolute input.keyOffsets) = some outputs) (k : Nat)
    (hk : k < outputs.length) :
    outputs[k]? = ((relativeOutputOffsetsToAbsolute input.keyOffsets)[k]?).bind
      (db.getOutputKey E input.amount) := by
  simp only [scannedOutputs] at h
  split at h
  · split at h
    · cases h
    · cases h
      exact getOutputKeys_getElem? hk
  · rename_i known hknown
    rcases hcoherent known hknown with ⟨others, hall⟩
    have hfirst : ∀ k, k < known.length →
        known[k]? = ((relativeOutputOffsetsToAbsolute input.keyOffsets)[k]?).bind
          (db.getOutputKey E input.amount) := by
      intro k hk
      rw [← getOutputKeys_getElem? (by rw [← hall, length_append]; omega), ← hall,
        getElem?_append_left hk]
    split at h
    · split at h
      · cases h
      · cases h
        -- The rest of the ring was looked up behind what the table had.
        by_cases hkk : k < known.length
        · rw [getElem?_append_left hkk]
          exact hfirst k hkk
        · rw [length_append] at hk
          rw [getElem?_append_right (by omega), getOutputKeys_getElem? (by omega), getElem?_drop]
          congr 2
          omega
    · cases h
      exact hfirst k hk

/-- A scan that succeeds found every member, and reports the last one. -/
theorem scanLoop_related {vis : Visitor σ} {amount : UInt64} {outputs : List OutputData}
    {ring indices : List UInt64} {count m : Nat} {state state' : σ} {related : Option Nat}
    (hring : ring.drop count = indices)
    (houtputs : ∀ k < outputs.length, outputs[k]? = (ring[k]?).bind (db.getOutputKey E amount))
    (h : scanLoop E db vis amount outputs ring.length indices count state (some m) =
      (true, state', related)) :
    (db.getOutputKeys E amount indices).length = indices.length ∧
      related = some (((db.getOutputKeys E amount indices).getLast?.map
        fun o => max o.height m).getD m) := by
  induction indices generalizing count state with
  | nil =>
    cases h
    exact ⟨rfl, rfl⟩
  | cons i rest ih =>
    have hget : ring[count]? = some i := by
      have hzero := congrArg (fun l : List UInt64 => l[0]?) hring
      simpa using hzero
    have hrest : ring.drop (count + 1) = rest := by
      have htail := congrArg tail hring
      simpa using htail
    have hlength : ring.length = count + 1 + rest.length := by
      have hlen := congrArg length hring
      simp only [length_drop, length_cons] at hlen
      omega
    -- Whatever source the member comes from, it is the one of the database.
    have hmember : (if count < outputs.length then outputs[count]?
        else db.getOutputKey E amount i) = db.getOutputKey E amount i := by
      split
      · rename_i hlt
        rw [houtputs count hlt, hget]
        rfl
      · rfl
    simp only [scanLoop, hmember] at h
    simp only [getOutputKeys]
    split at h
    · cases h
    · rename_i o hfound
      split at h
      · cases h
      · cases rest with
        | nil =>
          rw [if_pos (by simpa using hlength.symm)] at h
          cases h
          exact ⟨rfl, rfl⟩
        | cons j rest =>
          rw [if_neg (by simp only [length_cons] at hlength; omega)] at h
          rcases ih hrest h with ⟨hfoundAll, hrelated⟩
          refine ⟨by simp only [length_cons] at hfoundAll ⊢; omega, ?_⟩
          rw [hrelated]
          have hne : db.getOutputKeys E amount (j :: rest) ≠ [] := by
            intro hnil
            rw [hnil] at hfoundAll
            cases hfoundAll
          rcases exists_cons_of_ne_nil hne with ⟨o', l, hl⟩
          simp only [hl, getLast?_cons_cons]

theorem scanOutputkeysForIndexes_related {vis : Visitor σ} {state state' : σ} {m : Nat}
    {related : Option Nat}
    (hcoherent : Coherent E db table txPrefixHash input)
    (h : scanOutputkeysForIndexes E db table txPrefixHash input vis state (some m) =
      (true, state', related)) :
    related = some (((ringHeights E db input).getLast?.map fun height => max height m).getD m) := by
  simp only [scanOutputkeysForIndexes] at h
  split at h
  · cases h
  · split at h
    · cases h
    · rename_i outputs hscanned
      have hrelated := (scanLoop_related drop_zero
        (scannedOutputs_getElem? hcoherent hscanned) h).2
      rw [hrelated, ringHeights, getLast?_map, Option.map_map]
      rfl

end Scan

/-- The last of a list in order is its maximum. -/
theorem foldr_max_eq_getLast {l : List Nat} (h : l.Pairwise (· ≤ ·)) (m : Nat) :
    l.foldr max m = (l.getLast?.map fun height => max height m).getD m := by
  induction l with
  | nil => rfl
  | cons a rest ih =>
    rcases pairwise_cons.mp h with ⟨hfirst, hrest⟩
    rw [foldr_cons, ih hrest]
    cases rest with
    | nil => rfl
    | cons b rest =>
      rw [getLast?_cons_cons]
      have hlast := getLast?_eq_some_getLast (cons_ne_nil b rest)
      have hle := hfirst _ (getLast_mem (cons_ne_nil b rest))
      rw [hlast]
      simp only [Option.map_some, Option.getD_some]
      omega

/-- Every scan of a ring that succeeds reports the height of its youngest member, when that is
    above the one it was given. -/
def ReportsMax (E : Externals) (input : TxInToKey) : Prop :=
  ∀ (σ : Type) (db : BlockchainDB) (table : ScanTable) (txPrefixHash : Hash) (vis : Visitor σ)
    (state state' : σ) (m : Nat) (related : Option Nat), Coherent E db table txPrefixHash input →
    scanOutputkeysForIndexes E db table txPrefixHash input vis state (some m) =
      (true, state', related) → related = some ((ringHeights E db input).foldr max m)

/-- In a transaction that `check_tx_inputs_ring_members_diff` accepts at version 12, the members of
    a ring increase, and the scan reports the youngest, exactly when the offsets do not add up to
    a full word. -/
theorem ringMembers_increasing_iff (E : Externals) (tx : Transaction) (input : TxInToKey)
    (haccepted : tx.checkTxInputsRingMembersDiff 12 = true)
    (hin : TxIn.toKey input.amount input.keyOffsets input.kImage ∈ tx.vin) :
    ((relativeOutputOffsetsToAbsolute input.keyOffsets).IsChain (· < ·) ∧ ReportsMax E input) ↔
      (input.keyOffsets.map UInt64.toNat).sum < 2 ^ 64 := by
  have hne := offsets_ne_zero haccepted hin
  have hchain := runningSums_isChain_lt_iff input.keyOffsets
  rw [← relativeOutputOffsetsToAbsolute_eq] at hchain
  constructor
  · intro h
    exact (hchain.mp h.1).2
  · intro hsum
    have hincreasing := hchain.mpr ⟨hne, hsum⟩
    refine ⟨hincreasing, ?_⟩
    intro σ db table txPrefixHash vis state state' m related hcoherent hscan
    have hheights : (ringHeights E db input).Pairwise (· ≤ ·) :=
      pairwise_map.mpr (getOutputKeys_pairwise
        (isChain_iff_pairwise.mp hincreasing))
    rw [foldr_max_eq_getLast hheights]
    exact scanOutputkeysForIndexes_related hcoherent hscan

/-! ## A ring that wraps -/

/-- A transaction with one input on the ring, which spends the key image 7. -/
def ringTx (keyOffsets : List UInt64) : Transaction :=
  { version := 2, vin := [.toKey 0 keyOffsets 7] }

/-- A ring of two neighbours is increasing, and its youngest member is reported. -/
theorem ringMembers_increasing_neighbours :
    (relativeOutputOffsetsToAbsolute [0, 1]).IsChain (· < ·) ∧ ReportsMax .sample ⟨0, [0, 1], 7⟩ :=
  (ringMembers_increasing_iff .sample (ringTx [0, 1]) ⟨0, [0, 1], 7⟩ (by decide) (by decide)).mpr
    (by decide)

/-- A block whose miner transaction has one output. -/
def oneOutputBlock (hash prevId : Hash) : StoredBlock where
  block := { majorVersion := 12, minorVersion := 12, timestamp := 0, prevId, nonce := 0
             txHashes := []
             minerTx := { version := 2, vin := [.gen 0], vout := [⟨5, .toKey 1⟩] } }
  hash := hash
  minerTxHash := hash
  txs := []
  weight := 0
  longTermWeight := 0
  cumulativeDifficulty := 1
  coins := 0

/-- Two blocks with an output each. -/
def twoOutputs : BlockchainDB where
  blocks := [oneOutputBlock 1 0, oneOutputBlock 2 1]
  hfVersions := fun _ => none
  altBlocks := ∅
  ids_nodup := by decide
  linked := List.isChain_pair.mpr rfl

/-- The offsets `1, -1, 1, -1` are accepted. They name two outputs twice each, and the height that
    is reported is that of the older one. -/
theorem ringMembers_wrap_repeats :
    ∃ (E : Externals) (tx : Transaction) (input : TxInToKey) (db : BlockchainDB)
      (vis : Visitor Unit), tx.checkTxInputsRingMembersDiff 12 = true ∧
        TxIn.toKey input.amount input.keyOffsets input.kImage ∈ tx.vin ∧
        ¬(relativeOutputOffsetsToAbsolute input.keyOffsets).Nodup ∧
        ¬(relativeOutputOffsetsToAbsolute input.keyOffsets).IsChain (· < ·) ∧
        Coherent E db ∅ nullHash input ∧
        scanOutputkeysForIndexes E db ∅ nullHash input vis () (some 0) = (true, (), some 0) ∧
        1 ∈ ringHeights E db input := by
  refine ⟨.sample, ringTx [1, -1, 1, -1], ⟨0, [1, -1, 1, -1], 7⟩, twoOutputs,
    fun _ _ _ _ => (true, ()), by decide, by decide, by decide, by decide, ?_, by decide +kernel,
    by decide +kernel⟩
  intro outputs h
  cases h

end CocaineNode
