import CocaineNode.Theory.HardFork

/-!
# The Votes in Memory

The hard fork state keeps a window of votes, a counter for each version, and
the index of the fork in force. `init` computes all of them from the database:
the votes of the last `window_size` blocks, their counts, and the fork that the
version recorded for the top block and one round of votes give. A state is
`Synced` with a database when this is the state it is in. Every block that is
accepted keeps it so.

## Theorems

* `HardFork.add_synced`: An accepted block keeps the state in step with the database.
* `HardFork.synced_eq_iff`: When the states of two databases are the same.
-/

namespace CocaineNode

open List Function BlockchainDB

namespace HardFork

/-! ## Counters -/

/-- How often each version occurs, in 32 bits. -/
def tally (votes : List UInt8) : UInt8 → UInt32 :=
  fun v => UInt32.ofNat (votes.count v)

variable (l : List UInt8) (v : UInt8)

theorem tally_concat : tally (l ++ [v]) = Function.update (tally l) v (tally l v + 1) := by
  funext w
  by_cases hw : w = v
  · rw [hw, update_self, tally, tally, count_append, count_singleton_self, UInt32.ofNat_add]
    rfl
  · have hnone : [v].count w = 0 := count_eq_zero_of_not_mem (by simpa using hw)
    rw [update_of_ne hw, tally, tally, count_append, hnone, Nat.add_zero]

theorem tally_tail : Function.update (tally (v :: l)) v (tally (v :: l) v - 1) = tally l := by
  funext w
  by_cases hw : w = v
  · rw [hw, update_self, tally, tally, count_cons_self, UInt32.ofNat_add]
    exact UInt32.add_sub_cancel _ _
  · rw [update_of_ne hw, tally, tally, count_cons_of_ne (Ne.symm hw)]

/-- The counters count the window. -/
def Counted (hf : HardFork) : Prop :=
  hf.lastVersions = tally hf.versions

theorem Counted.clearVotes (hf : HardFork) : hf.clearVotes.Counted :=
  rfl

variable {hf : HardFork}

section

variable (h : hf.Counted)
include h

theorem Counted.pushVote (v : UInt8) : (hf.pushVote v).Counted := by
  change update hf.lastVersions v (hf.lastVersions v + 1) = tally (hf.versions ++ [v])
  rw [tally_concat, h]

theorem Counted.popVote : hf.popVote.Counted := by
  unfold HardFork.popVote
  split
  · exact h
  · rename_i old rest hversions
    change update hf.lastVersions old (hf.lastVersions old - 1) = tally rest
    rw [h, hversions, tally_tail]

theorem Counted.trimWindow (n : Nat) : (hf.trimWindow n).Counted := by
  induction n generalizing hf with
  | zero => exact h
  | succ n ih =>
    unfold trimWindow
    split
    · exact ih h.popVote
    · exact h

theorem Counted.countVotes (blocks : List StoredBlock) : (hf.countVotes blocks).Counted := by
  induction blocks generalizing hf with
  | nil => exact h
  | cons b rest ih => exact ih (h.pushVote _)

end

/-! ## The window -/

variable {a b : HardFork}

theorem SameTable.symm (h : SameTable a b) : SameTable b a :=
  ⟨h.1.symm, h.2.symm, h.3.symm, h.4.symm⟩

/-- A state is its table, its votes with their counts, and the index of its fork. -/
theorem eq_of_votes (htable : SameTable a b) (ha : a.Counted) (hb : b.Counted)
    (hversions : b.versions = a.versions) (hindex : b.currentForkIndex = a.currentForkIndex) :
    b = a := by
  have hcounts : b.lastVersions = a.lastVersions := by rw [ha, hb, hversions]
  rcases htable with ⟨horiginal, hwindow, hpercent, hheights⟩
  cases a
  cases b
  subst horiginal hwindow hpercent hheights hversions hindex hcounts
  rfl

theorem versions_advance (hf : HardFork) (h : Nat) : (hf.advance h).versions = hf.versions := by
  simp only [advance]
  split <;> rfl

theorem Counted.advance (hc : hf.Counted) (h : Nat) : (hf.advance h).Counted := by
  simp only [HardFork.advance]
  split <;> exact hc

theorem sameTable_counted (hf : HardFork) (blocks : List StoredBlock) :
    SameTable hf (hf.clearVotes.countVotes blocks) :=
  SameTable.trans (b := hf.clearVotes) ⟨rfl, rfl, rfl, rfl⟩ (votesOnly_countVotes _ _).toSameTable

/-- The votes of a list of blocks. -/
def votes (hf : HardFork) (blocks : List StoredBlock) : List UInt8 :=
  blocks.map fun b => hf.getEffectiveVersion b.block.vote

/-- The votes of the last blocks of a chain, at most as many as the window holds. -/
def voteWindow (hf : HardFork) (db : BlockchainDB) : List UInt8 :=
  (hf.votes db.blocks).drop (db.height - hf.windowSize)

theorem votes_congr (hf hf' : HardFork) (h : hf'.heights = hf.heights) (blocks : List StoredBlock) :
    hf'.votes blocks = hf.votes blocks := by
  simp only [votes, getEffectiveVersion, h]

variable {hf' : HardFork}

theorem voteWindow_congr (h : SameTable hf hf') (db : BlockchainDB) :
    hf'.voteWindow db = hf.voteWindow db := by
  rw [voteWindow, voteWindow, votes_congr hf hf' h.heights, h.windowSize]

variable (hf)

theorem length_voteWindow (db : BlockchainDB) :
    (hf.voteWindow db).length = min db.height hf.windowSize := by
  rw [voteWindow, votes, length_drop, length_map]
  change db.height - (db.height - hf.windowSize) = _
  omega

theorem versions_countVotes (blocks : List StoredBlock) :
    (hf.countVotes blocks).versions = hf.versions ++ hf.votes blocks := by
  induction blocks generalizing hf with
  | nil => exact (append_nil _).symm
  | cons b rest ih =>
    change ((hf.pushVote (hf.getEffectiveVersion b.block.vote)).countVotes rest).versions = _
    rw [ih, votes_congr hf (hf.pushVote _) rfl]
    simp [pushVote, votes]

/-- The loop drops votes until there is room for one more. -/
theorem versions_trimWindow (n : Nat) (hn : hf.versions.length + 1 - hf.windowSize ≤ n) :
    (hf.trimWindow n).versions = hf.versions.drop (hf.versions.length + 1 - hf.windowSize) := by
  have hpos := hf.window_pos
  induction n generalizing hf with
  | zero => rw [trimWindow, Nat.le_zero.mp hn, drop_zero]
  | succ n ih =>
    unfold trimWindow
    split_ifs with hfull
    · cases hversions : hf.versions with
      | nil =>
        rw [hversions, length_nil] at hfull
        omega
      | cons old rest =>
        have hrest : hf.popVote.versions = rest := by
          unfold popVote
          rw [hversions]
        have hsize : hf.popVote.windowSize = hf.windowSize := (votesOnly_popVote hf).windowSize
        rw [hversions, length_cons] at hn hfull
        have hdrop := ih hf.popVote (by rw [hrest, hsize]; omega) hf.popVote.window_pos
        rw [hrest, hsize] at hdrop
        rw [hdrop, length_cons,
          show rest.length + 1 + 1 - hf.windowSize = rest.length + 1 - hf.windowSize + 1 by omega,
          drop_succ_cons]
    · rw [show hf.versions.length + 1 - hf.windowSize = 0 by omega, drop_zero]

variable {db db' : BlockchainDB}

/-- The window with the vote of one more block. -/
theorem voteWindow_concat {b : StoredBlock} (hblocks : db'.blocks = db.blocks ++ [b]) :
    hf.voteWindow db' = (hf.voteWindow db).drop ((hf.voteWindow db).length + 1 - hf.windowSize) ++
        [hf.getEffectiveVersion b.block.vote] := by
  have hpos := hf.window_pos
  have hlen : (hf.votes db.blocks).length = db.height := length_map _
  have hheight : db'.height = db.height + 1 := by
    rw [height, hblocks, length_append]
    rfl
  have hvotes : hf.votes db'.blocks =
      hf.votes db.blocks ++ [hf.getEffectiveVersion b.block.vote] := by
    rw [votes, hblocks, map_append]
    rfl
  rw [length_voteWindow, voteWindow, voteWindow, hvotes, hheight, drop_drop,
    drop_append_of_le_length (by omega)]
  congr 2
  omega

/-! ## The fork in force -/

theorem indexOfVersion_lt (v : UInt8) (l : List HardforkT) (hl : l ≠ []) :
    indexOfVersion v l < l.length := by
  induction l with
  | nil => exact absurd rfl hl
  | cons f rest ih =>
    cases rest with
    | nil => exact Nat.one_pos
    | cons g rest =>
      have hrest := ih (cons_ne_nil _ _)
      rw [indexOfVersion]
      split
      · exact Nat.succ_pos _
      · rw [length_cons]
        omega

theorem votedForkIndexLoop_lt (h n : Nat) (votes : UInt32) :
    ∀ k ∈ hf.votedForkIndexLoop h n votes, k < n := by
  induction n generalizing votes with
  | zero =>
    intro k hk
    cases hk
  | succ n ih =>
    intro k hk
    simp only [votedForkIndexLoop] at hk
    split at hk
    · rw [Option.mem_some_iff] at hk
      omega
    · exact Nat.lt_succ_of_lt (ih _ k hk)

/-- A round of votes stays within the table. -/
theorem advance_lt (h : Nat) (hlt : hf.currentForkIndex < hf.heights.length) :
    (hf.advance h).currentForkIndex < hf.heights.length := by
  have hvoted : hf.getVotedForkIndex h < hf.heights.length := by
    unfold getVotedForkIndex
    cases hloop : hf.votedForkIndexLoop h hf.heights.length 0 with
    | none => exact hlt
    | some k => exact votedForkIndexLoop_lt hf h _ 0 k hloop
  simp only [advance]
  split
  · exact (Nat.mod_le _ _).trans_lt hvoted
  · exact hlt

/-! ## The state that `init` computes -/

/-- The votes of a chain counted from nothing, at the fork recorded for its top block. -/
def recount (hf : HardFork) (db : BlockchainDB) : HardFork :=
  let counted := hf.clearVotes.countVotes (db.blocks.drop (db.height - hf.windowSize))
  { counted with
    currentForkIndex := indexOfVersion (db.getHardForkVersion (db.height - 1)) counted.heights }

variable (db)

theorem sameTable_recount : SameTable hf (hf.recount db) := by
  exact (sameTable_counted hf _).trans ⟨rfl, rfl, rfl, rfl⟩

theorem index_recount : (hf.recount db).currentForkIndex =
      indexOfVersion (db.getHardForkVersion (db.height - 1)) hf.heights := by
  change indexOfVersion _ (hf.clearVotes.countVotes _).heights = _
  rw [(votesOnly_countVotes _ _).heights]
  rfl

theorem versions_recount : (hf.recount db).versions = hf.voteWindow db := by
  change (hf.clearVotes.countVotes _).versions = _
  rw [versions_countVotes, votes_congr hf hf.clearVotes rfl, voteWindow, votes, votes, map_drop]
  rfl

theorem Counted.recount : (hf.recount db).Counted :=
  (Counted.clearVotes hf).countVotes _

variable {db}

theorem recount_congr {hf hf' : HardFork} (h : SameTable hf hf') (db : BlockchainDB) :
    hf'.recount db = hf.recount db := by
  have htable := ((sameTable_recount hf db).symm.trans h).trans (sameTable_recount hf' db)
  refine eq_of_votes htable (Counted.recount hf db) (Counted.recount hf' db) ?_ ?_
  · rw [versions_recount, versions_recount, voteWindow_congr h]
  · rw [index_recount, index_recount, h.heights]

/-- On an empty database everything is cleared. -/
theorem init_empty (hne : hf.heights ≠ []) (hempty : db.height = 0) :
    hf.init db = { hf.clearVotes with currentForkIndex := 0 } := by
  simp [init, withPlaceholder_of_ne hne, rescanFromChainHeight, rescanFromBlockHeight, hempty]

/-- Otherwise the votes are counted and one round is held. -/
theorem init_eq (hne : hf.heights ≠ []) (hpos : 0 < db.height) :
    hf.init db = (hf.recount db).advance db.height := by
  have hwindow := hf.window_pos
  simp only [init, withPlaceholder_of_ne hne, rescanFromChainHeight]
  set cleared : HardFork := { hf.clearVotes with currentForkIndex := 0 } with hcleared
  have hsame : SameTable hf cleared := ⟨rfl, rfl, rfl, rfl⟩
  have hsize : hf.clearVotes.windowSize = hf.windowSize := rfl
  have hrescan : cleared.rescanFromBlockHeight db (db.height - hf.windowSize) =
      (hf.recount db).advance db.height := by
    unfold rescanFromBlockHeight
    rw [if_neg (by omega), ← recount_congr hsame]
    rfl
  -- Both ways of choosing where to start come to the same block.
  by_cases hlong : db.height > hf.windowSize
  · rw [hsize, if_pos hlong, if_neg (by omega),
      show db.height - (hf.windowSize - 1) - 1 = db.height - hf.windowSize by omega]
    exact hrescan
  · rw [hsize, if_neg hlong, if_neg Nat.one_ne_zero,
      show 1 - 1 = db.height - hf.windowSize by omega]
    exact hrescan

/-- The state is the one `init` computes from the database. -/
def Synced (hf : HardFork) (db : BlockchainDB) : Prop :=
  hf.init db = hf

theorem sameTable_rescan (db : BlockchainDB) (height : Nat) :
    SameTable hf (hf.rescanFromChainHeight db height) := by
  unfold rescanFromChainHeight
  split
  · exact ⟨rfl, rfl, rfl, rfl⟩
  · unfold rescanFromBlockHeight
    split
    · exact ⟨rfl, rfl, rfl, rfl⟩
    · refine ((sameTable_counted hf (db.blocks.drop (height - 1))).trans ?_).trans
        (sameTable_advance _ _)
      exact ⟨rfl, rfl, rfl, rfl⟩

theorem init_heights_ne (db : BlockchainDB) : (hf.init db).heights ≠ [] := by
  unfold init
  rw [(sameTable_rescan _ _ _).heights]
  exact hf.withPlaceholder_ne

namespace Synced

variable {hf : HardFork} {db : BlockchainDB} (h : hf.Synced db)
include h

theorem heights_ne : hf.heights ≠ [] := by
  rw [← h]
  exact init_heights_ne hf db

theorem versions_eq : hf.versions = hf.voteWindow db := by
  by_cases hempty : db.height = 0
  · have hnone : hf.voteWindow db = [] := by
      rw [← length_eq_zero_iff, length_voteWindow, hempty, Nat.zero_min]
    rw [hnone, ← h, init_empty hf h.heights_ne hempty]
    rfl
  · have hinit := init_eq hf h.heights_ne (Nat.pos_of_ne_zero hempty)
    rw [← versions_recount, ← versions_advance (hf.recount db) db.height, ← hinit, h]

theorem counted : hf.Counted := by
  rw [← h]
  by_cases hempty : db.height = 0
  · rw [init_empty hf h.heights_ne hempty]
    exact Counted.clearVotes hf
  · rw [init_eq hf h.heights_ne (Nat.pos_of_ne_zero hempty)]
    exact (Counted.recount hf db).advance _

theorem index_lt : hf.currentForkIndex < hf.heights.length := by
  have hlen : 0 < hf.heights.length := length_pos_iff.mpr h.heights_ne
  by_cases hempty : db.height = 0
  · rw [← h, init_empty hf h.heights_ne hempty]
    exact hlen
  · have hinit := init_eq hf h.heights_ne (Nat.pos_of_ne_zero hempty)
    have hstart : (hf.recount db).currentForkIndex < (hf.recount db).heights.length := by
      rw [(sameTable_recount hf db).heights]
      rw [index_recount]
      exact indexOfVersion_lt _ _ h.heights_ne
    have hlt := advance_lt _ db.height hstart
    rw [← hinit, h, (sameTable_recount hf db).heights] at hlt
    exact hlt

end Synced

variable {hf}

theorem Synced.of_eq (h : hf.Synced db) (hblocks : db'.blocks = db.blocks)
    (hversions : db'.hfVersions = db.hfVersions) : hf.Synced db' := by
  have hheight : db'.height = db.height := by rw [height, hblocks]; rfl
  have hne := h.heights_ne
  unfold Synced at h ⊢
  by_cases hempty : db.height = 0
  · rw [init_empty hf hne hempty] at h
    rw [init_empty hf hne (hheight.trans hempty)]
    exact h
  · have hpos := Nat.pos_of_ne_zero hempty
    rw [init_eq hf hne hpos] at h
    rw [init_eq hf hne (hheight ▸ hpos), recount, hheight, hblocks, getHardForkVersion, hversions]
    exact h

/-- A block that was stored and is accepted keeps the state in step with the database. -/
theorem add_synced {db₁ : BlockchainDB} {b : StoredBlock} (h : hf.Synced db)
    (hblocks : db₁.blocks = db.blocks ++ [b]) (hcheck : hf.check b.block = true) :
    (hf.add db₁ b.block db.height).2.1.Synced (hf.add db₁ b.block db.height).2.2 := by
  have hlt := h.index_lt
  simp only [add, hcheck, Bool.not_true, Bool.false_eq_true, if_false]
  set v := hf.getEffectiveVersion b.block.vote with hv
  set counted := (hf.trimWindow hf.versions.length).pushVote v
  set db₂ := db₁.setHardForkVersion db.height (hf.entry hf.currentForkIndex).version
  have hheight : db₂.height = db.height + 1 := by
    change db₁.blocks.length = _
    rw [hblocks, length_append]
    rfl
  have htable : SameTable hf counted :=
    ((votesOnly_trimWindow hf _).trans (votesOnly_pushVote _ _)).toSameTable
  -- The window has moved on by the vote of the block.
  have hversions : counted.versions = hf.voteWindow db₂ := by
    have hadded : db₂.blocks = db.blocks ++ [b] := hblocks
    rw [voteWindow_concat hf hadded, ← h.versions_eq]
    change (hf.trimWindow hf.versions.length).versions ++ [v] = _
    rw [versions_trimWindow hf _ (by have hpos := hf.window_pos; omega)]
  have hindex : indexOfVersion (db₂.getHardForkVersion (db₂.height - 1)) hf.heights =
      hf.currentForkIndex := by
    have hrecorded : db₂.getHardForkVersion (db₂.height - 1) =
        (hf.entry hf.currentForkIndex).version := by
      rw [hheight, Nat.add_sub_cancel, getHardForkVersion]
      change ((update db₁.hfVersions db.height _) db.height).getD 0 = _
      rw [update_self]
      rfl
    rw [hrecorded, entry_eq_getElem hf hlt]
    exact indexOfVersion_getElem _ hf.heights_sorted _ hlt
  have hrecount : hf.recount db₂ = counted := by
    refine eq_of_votes (htable.symm.trans (sameTable_recount hf db₂))
      ((h.counted.trimWindow _).pushVote _) (Counted.recount hf db₂) ?_ ?_
    · rw [versions_recount, hversions]
    · rw [index_recount, hindex]
      exact (votesOnly_trimWindow hf _).currentForkIndex.symm
  unfold Synced
  have hmoved : SameTable hf (counted.advance (db.height + 1)) :=
    htable.trans (sameTable_advance _ _)
  rw [init_eq _ (by rw [hmoved.heights]; exact h.heights_ne) (by omega), recount_congr hmoved,
    hrecount, hheight]

/-- The placeholder is there from the first start on. -/
theorem init_withPlaceholder (hf : HardFork) (db : BlockchainDB) :
    hf.withPlaceholder.init db = hf.init db := by
  rw [init, withPlaceholder_of_ne hf.withPlaceholder_ne, init]

/-- A state that was just computed. -/
theorem init_synced (hf : HardFork) (db : BlockchainDB) : (hf.init db).Synced db := by
  have hne := hf.withPlaceholder_ne
  rw [← init_withPlaceholder]
  set hf := hf.withPlaceholder
  unfold Synced
  by_cases hempty : db.height = 0
  · rw [init_empty _ (init_heights_ne hf db) hempty, init_empty hf hne hempty]
    rfl
  · have hpos := Nat.pos_of_ne_zero hempty
    have hmoved : SameTable hf (hf.init db) := by
      rw [init_eq hf hne hpos]
      exact (sameTable_recount hf db).trans (sameTable_advance _ _)
    rw [init_eq _ (init_heights_ne hf db) hpos, recount_congr hmoved, ← init_eq hf hne hpos]

/-- The states of two databases are the same when the last blocks voted alike and the same fork is
    in force. -/
theorem synced_eq_iff (h : hf.Synced db) (h' : hf'.Synced db') (htable : SameTable hf hf') :
    hf' = hf ↔ hf.voteWindow db' = hf.voteWindow db ∧
      hf'.currentForkIndex = hf.currentForkIndex := by
  constructor
  · intro heq
    rw [← h.versions_eq, ← voteWindow_congr htable, ← h'.versions_eq, heq]
    exact ⟨rfl, rfl⟩
  · rintro ⟨hwindow, hindex⟩
    refine eq_of_votes htable h.counted h'.counted ?_ hindex
    rw [h'.versions_eq, h.versions_eq, voteWindow_congr htable, hwindow]

/-! ## What keeps the table -/

variable (hf) (db)

theorem sameTable_refl : SameTable hf hf :=
  ⟨rfl, rfl, rfl, rfl⟩

theorem sameTable_add (b : Block) (height : Nat) : SameTable hf (hf.add db b height).2.1 := by
  unfold add
  split
  · exact sameTable_refl hf
  · have hpushed : SameTable hf ((hf.trimWindow hf.versions.length).pushVote
        (hf.getEffectiveVersion b.vote)) :=
          ((votesOnly_trimWindow hf _).trans (votesOnly_pushVote _ _)).toSameTable
    exact hpushed.trans (sameTable_advance _ _)

theorem sameTable_addAll (blocks : List StoredBlock) (h : Nat) :
    SameTable hf (hf.addAll db blocks h).1 := by
  induction blocks generalizing hf db h with
  | nil => exact sameTable_refl hf
  | cons b rest ih => exact (sameTable_add hf db b.block h).trans (ih _ _ _)

theorem sameTable_reorganize (height : Nat) :
    SameTable hf (hf.reorganizeFromChainHeight db height).2.1 := by
  unfold reorganizeFromChainHeight
  split
  · exact sameTable_refl hf
  · unfold reorganizeFromBlockHeight
    split
    · exact sameTable_refl hf
    · have hmoved : ∀ index, SameTable hf { hf.clearVotes with currentForkIndex := index } :=
        fun _ => ⟨rfl, rfl, rfl, rfl⟩
      exact (hmoved _).trans
        (((votesOnly_countVotes _ _).toSameTable.trans (sameTable_advance _ _)).trans
        (sameTable_addAll _ _ _ _))

theorem sameTable_onBlockPopped (nblocks : Nat) : SameTable hf (hf.onBlockPopped db nblocks) :=
  (votesOnly_unpopVotes hf db _ (range nblocks)).toSameTable.trans ⟨rfl, rfl, rfl, rfl⟩

theorem sameTable_init (hne : hf.heights ≠ []) : SameTable hf (hf.init db) := by
  simp only [init, withPlaceholder_of_ne hne]
  have hcleared : SameTable hf { hf.clearVotes with currentForkIndex := 0 } := ⟨rfl, rfl, rfl, rfl⟩
  exact hcleared.trans (sameTable_rescan _ _ _)

end HardFork

end CocaineNode
