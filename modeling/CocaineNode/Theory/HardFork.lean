import CocaineNode.Core.HardFork
import CocaineNode.Lib.Schedule
import CocaineNode.Lib.Transition

/-!
# Ideal and Enforced Fork Versions

Two loops answer which version a height has. The state machine moves
`current_fork_index` as blocks are added, and records the version each block
was checked against; side chains, block templates and difficulty targets ask
`get_ideal_version` instead.

When no fork needs votes, both read the same schedule: the fork table, with
entry `n` in force from its height until the next one (`activeIndex`). The
state machine follows that schedule at every height (`Follows`, kept by every
step of a chain). `get_ideal_version` follows it above index 0 only. Its loop
stops before the first entry and returns `original_version`, so the two agree
exactly when that is the version of the first entry, or when the second entry
has already started.

## Theorems

* `HardFork.chainStep_follows`: A step keeps the state machine on the schedule.
* `HardFork.getIdealVersion_eq_get_iff`: When the two answers agree.
-/

namespace CocaineNode

namespace HardFork

open Transition List BlockchainDB Nat

/-! ## The table as a schedule -/

/-- The entry of the table in force at a height when no votes are needed. -/
def activeIndex (hf : HardFork) (h : Nat) : Nat :=
  Schedule.active (fun n => (hf.entry n).height) (hf.heights.length - 1) h

/-- Every fork of the table passes with no votes. -/
def ZeroThresholds (hf : HardFork) : Prop :=
  ∀ f ∈ hf.heights, f.threshold = 0

variable (hf : HardFork)

theorem entry_eq_getElem {n : Nat} (hn : n < hf.heights.length) : hf.entry n = hf.heights[n] := by
  simp [entry, hn]

/-- Entries in range are ordered as `add_fork` requires. -/
theorem entry_before (i j : Nat) (hij : i < j) (hj : j < hf.heights.length) :
    HardforkT.Before (hf.entry i) (hf.entry j) := by
  rw [entry_eq_getElem hf (hij.trans hj), entry_eq_getElem hf hj]
  exact pairwise_iff_getElem.mp hf.heights_sorted i j (hij.trans hj) hj hij

theorem starts_increasing (i j : Nat) (hij : i < j)
    (hj : j ≤ hf.heights.length - 1) : (hf.entry i).height < (hf.entry j).height :=
  (hf.entry_before i j hij (by omega)).2

/-- Versions are distinct bytes, so an index into the table fits in one byte. -/
theorem heights_length_le : hf.heights.length ≤ 256 := by
  have hnodup : (hf.heights.map fun f => f.version.toFin).Nodup := by
    refine pairwise_map.mpr (hf.heights_sorted.imp ?_)
    intro a b hab heq
    have hv : a.version = b.version := UInt8.toFin_inj.mp heq
    exact absurd hab.1 (hv ▸ UInt8.lt_irrefl _)
  have hcard := hnodup.length_le_card
  rwa [length_map, Fintype.card_fin] at hcard

theorem activeIndex_lt (hne : hf.heights ≠ []) (h : Nat) :
    hf.activeIndex h < hf.heights.length := by
  have hle : hf.activeIndex h ≤ hf.heights.length - 1 := Schedule.active_le
  have hpos := length_pos_iff.mpr hne
  omega

/-- The index and the entries depend on the table only. -/
theorem activeIndex_congr {hf hf' : HardFork} (hh : hf.heights = hf'.heights) :
    hf.entry = hf'.entry ∧ hf.activeIndex = hf'.activeIndex := by
  have he : hf.entry = hf'.entry := by
    funext n
    rw [entry, entry, hh]
  refine ⟨he, ?_⟩
  funext h
  rw [activeIndex, activeIndex, he, hh]

/-! ## Votes with no threshold -/

section

variable (hz : hf.ZeroThresholds)
include hz

theorem thresholdOf_entry (n : Nat) : hf.thresholdOf (hf.entry n) = 0 := by
  have ht : (hf.entry n).threshold = 0 := by
    by_cases hn : n < hf.heights.length
    · rw [entry_eq_getElem hf hn]
      exact hz _ (getElem_mem hn)
    · rw [entry, getD_eq_getElem?_getD, getElem?_eq_none (not_lt.mp hn)]
      rfl
  simp [thresholdOf, ht]

/-- With no thresholds the downward loop stops at the last entry that has started. -/
theorem votedForkIndexLoop_cases (h n : Nat) (votes : UInt32) :
    (hf.votedForkIndexLoop h n votes = none ∧ ∀ j < n, h < (hf.entry j).height) ∨
      ∃ k < n, hf.votedForkIndexLoop h n votes = some k ∧ (hf.entry k).height ≤ h ∧
        ∀ j, k < j → j < n → h < (hf.entry j).height := by
  induction n generalizing votes with
  | zero => exact Or.inl ⟨rfl, fun j hj => absurd hj (not_lt_zero j)⟩
  | succ n ih =>
    rw [votedForkIndexLoop, thresholdOf_entry hf hz]
    by_cases hn : (hf.entry n).height ≤ h
    · refine Or.inr ⟨n, lt_succ_self n, ?_, hn, fun j hj hj' => by omega⟩
      exact if_pos ⟨hn, UInt32.le_iff_toNat_le.mpr (zero_le _)⟩
    · rw [if_neg (fun hc => hn hc.1)]
      have hlt : h < (hf.entry n).height := not_le.mp hn
      rcases ih (votes + hf.lastVersions (hf.entry n).version) with ⟨hnone, hall⟩ | hsome
      · refine Or.inl ⟨hnone, fun j hj => ?_⟩
        rcases Nat.lt_succ_iff_lt_or_eq.mp hj with hj | rfl
        · exact hall j hj
        · exact hlt
      · obtain ⟨k, hk, hval, hstart, hafter⟩ := hsome
        refine Or.inr ⟨k, hk.trans (lt_succ_self n), hval, hstart, fun j hkj hj => ?_⟩
        rcases Nat.lt_succ_iff_lt_or_eq.mp hj with hj | rfl
        · exact hafter j hkj hj
        · exact hlt

/-- A vote round moves the fork index to the scheduled entry. -/
theorem advance_index (h : Nat) (hcur : hf.currentForkIndex ≤ hf.activeIndex h) :
    (hf.advance h).currentForkIndex = hf.activeIndex h := by
  rcases hf.votedForkIndexLoop_cases hz h hf.heights.length 0 with ⟨hnone, hall⟩ | hsome
  · -- Nothing has started, so the schedule is at entry 0 and the loop keeps the index.
    have hact : hf.activeIndex h = 0 :=
      Schedule.active_eq (zero_le _) (absurd rfl)
        (fun j _ hj => hall j (by omega))
    have hzero : hf.currentForkIndex = 0 := by omega
    simp [advance, getVotedForkIndex, hnone, hact, hzero]
  · obtain ⟨k, hk, hval, hstart, hafter⟩ := hsome
    have hact : hf.activeIndex h = k :=
      Schedule.active_eq (by omega) (fun _ => hstart) (fun j hkj hj => hafter j hkj (by omega))
    have hbyte : k % 256 = k := mod_eq_of_lt (lt_of_lt_of_le hk hf.heights_length_le)
    simp only [advance, getVotedForkIndex, hval, Option.getD_some, hbyte]
    rw [hact] at hcur ⊢
    split_ifs with hlt
    · rfl
    · omega

end

/-- The downward loop of `get_ideal_version` returns the scheduled entry above index 0, and
    the original version at it. -/
theorem getIdealVersion_eq (h : Nat) : hf.getIdealVersion h =
      if hf.activeIndex h = 0 then hf.originalVersion
      else (hf.entry (hf.activeIndex h)).version := by
  unfold getIdealVersion activeIndex Schedule.active
  induction hf.heights.length - 1 with
  | zero => rfl
  | succ n ih =>
    rw [idealVersionLoop, findGreatest_succ]
    by_cases hn : (hf.entry (n + 1)).height ≤ h
    · rw [if_pos hn, if_pos hn, if_neg (succ_ne_zero n)]
    · rw [if_neg hn, if_neg hn, ih]

/-! ## What the vote counters leave alone -/

/-- The same table of forks, and the same rules for votes. -/
structure SameTable (hf hf' : HardFork) : Prop where
  originalVersion : hf'.originalVersion = hf.originalVersion
  windowSize : hf'.windowSize = hf.windowSize
  percent : hf'.defaultThresholdPercent = hf.defaultThresholdPercent
  heights : hf'.heights = hf.heights

theorem SameTable.trans {a b c : HardFork} (hab : SameTable a b) (hbc : SameTable b c) :
    SameTable a c :=
  ⟨hbc.1.trans hab.1, hbc.2.trans hab.2, hbc.3.trans hab.3, hbc.4.trans hab.4⟩

theorem sameTable_advance (h : Nat) : SameTable hf (hf.advance h) := by
  simp only [advance]
  split <;> exact ⟨rfl, rfl, rfl, rfl⟩

/-- Same table, same original version, same fork index: the votes may differ. -/
structure SameFork (hf hf' : HardFork) : Prop where
  heights : hf'.heights = hf.heights
  originalVersion : hf'.originalVersion = hf.originalVersion
  currentForkIndex : hf'.currentForkIndex = hf.currentForkIndex

/-- Nothing but the votes differs. -/
structure VotesOnly (hf hf' : HardFork) : Prop extends SameTable hf hf', SameFork hf hf'

theorem VotesOnly.refl : VotesOnly hf hf :=
  ⟨⟨rfl, rfl, rfl, rfl⟩, rfl⟩

theorem VotesOnly.trans {a b c : HardFork} (hab : VotesOnly a b) (hbc : VotesOnly b c) :
    VotesOnly a c :=
  ⟨hab.toSameTable.trans hbc.toSameTable, hbc.currentForkIndex.trans hab.currentForkIndex⟩

theorem votesOnly_pushVote (v : UInt8) : VotesOnly hf (hf.pushVote v) :=
  ⟨⟨rfl, rfl, rfl, rfl⟩, rfl⟩

theorem votesOnly_popVote : VotesOnly hf hf.popVote := by
  unfold popVote
  split <;> exact ⟨⟨rfl, rfl, rfl, rfl⟩, rfl⟩

theorem votesOnly_trimWindow (n : Nat) : VotesOnly hf (hf.trimWindow n) := by
  induction n generalizing hf with
  | zero => exact .refl hf
  | succ n ih =>
    unfold trimWindow
    split
    · exact (votesOnly_popVote hf).trans (ih hf.popVote)
    · exact .refl hf

theorem votesOnly_countVotes (blocks : List StoredBlock) : VotesOnly hf (hf.countVotes blocks) := by
  induction blocks generalizing hf with
  | nil => exact .refl hf
  | cons b rest ih => exact (votesOnly_pushVote hf _).trans (ih _)

variable {hf hf' : HardFork}

/-! ## Chains -/

/-- One step of a chain: a block that the database and the state machine both accept, or a
    restart, which rebuilds the state from the database. -/
inductive ChainStep : HardFork × BlockchainDB → HardFork × BlockchainDB → Prop
  | add (hf hf' : HardFork) (db db₁ db₂ : BlockchainDB) (b : StoredBlock)
      (hdb : db.addBlock b = .ok db₁) (hadd : hf.add db₁ b.block db.height = (true, hf', db₂)) :
      ChainStep (hf, db) (hf', db₂)
  | restart (hf : HardFork) (db : BlockchainDB) : ChainStep (hf, db) (hf.init db, db)

/-- The state machine is at the entry the schedule of `base` gives for the chain height, and
    below it every height has the scheduled version on record. -/
structure Follows (base hf : HardFork) (db : BlockchainDB) : Prop where
  heights : hf.heights = base.heights
  originalVersion : hf.originalVersion = base.originalVersion
  current : hf.currentForkIndex = base.activeIndex db.height
  recorded : ∀ h < db.height,
    db.getHardForkVersion h = (base.entry (base.activeIndex h)).version

/-- The table has an entry, and none of them needs votes. -/
structure VoteFree (base : HardFork) : Prop where
  nonempty : base.heights ≠ []
  zero : base.ZeroThresholds

/-- Looking for a version of the table finds its index, since versions are distinct. -/
theorem indexOfVersion_getElem (l : List HardforkT) (hl : l.Pairwise HardforkT.Before) (k : Nat)
    (hk : k < l.length) : indexOfVersion l[k].version l = k := by
  induction l generalizing k with
  | nil => exact absurd hk (not_lt_zero k)
  | cons f rest ih =>
    cases rest with
    | nil =>
      have h0 : k = 0 := by simpa using hk
      subst h0
      rfl
    | cons g rest =>
      cases k with
      | zero => simp [indexOfVersion]
      | succ k =>
        have hk' : k < (g :: rest).length := lt_of_succ_lt_succ hk
        have hne : f.version ≠ (g :: rest)[k].version := by
          intro heq
          have hlt := ((pairwise_cons.mp hl).1 _ (getElem_mem hk')).1
          exact UInt8.lt_irrefl _ (heq ▸ hlt)
        rw [getElem_cons_succ, indexOfVersion, if_neg hne, ih (pairwise_cons.mp hl).2 k hk']

variable {base : HardFork} {h : Nat}

/-- A vote round from a fork index the schedule has passed puts the state on the schedule. -/
theorem advance_current (hb : base.VoteFree) (hh : hf.heights = base.heights)
    (hcur : hf.currentForkIndex ≤ base.activeIndex h) :
    (hf.advance h).currentForkIndex = base.activeIndex h := by
  have hz : hf.ZeroThresholds := fun f hf' => hb.zero f (hh ▸ hf')
  have hact := (activeIndex_congr hh).2
  rw [← hact] at hcur ⊢
  exact advance_index hf hz h hcur

variable {db : BlockchainDB}

/-- An accepted block keeps the state machine on the schedule. -/
theorem add_follows (hb : base.VoteFree) {db₁ db₂ : BlockchainDB} {b : StoredBlock}
    (hf₀ : Follows base hf db) (hdb : db.addBlock b = .ok db₁)
    (hadd : hf.add db₁ b.block db.height = (true, hf', db₂)) : Follows base hf' db₂ := by
  obtain ⟨-, -, hblocks, hvers, -⟩ := addBlock_ok hdb
  unfold add at hadd
  split at hadd
  · cases hadd
  · simp only [Prod.mk.injEq, true_and] at hadd
    obtain ⟨rfl, rfl⟩ := hadd
    set counted := (hf.trimWindow hf.versions.length).pushVote (hf.getEffectiveVersion b.block.vote)
    have hsame : VotesOnly hf counted :=
      (votesOnly_trimWindow hf _).trans (votesOnly_pushVote _ _)
    have hlen : (db₁.setHardForkVersion db.height
        (hf.entry hf.currentForkIndex).version).height = db.height + 1 := by
      simp [height, setHardForkVersion, hblocks]
    have hcur : counted.currentForkIndex ≤ base.activeIndex (db.height + 1) := by
      rw [hsame.currentForkIndex, hf₀.current]
      exact Schedule.active_mono (le_succ _)
    have htable := hsame.toSameTable.trans (sameTable_advance counted (db.height + 1))
    refine ⟨htable.heights.trans hf₀.heights, htable.originalVersion.trans hf₀.originalVersion,
      ?_, ?_⟩
    · rw [hlen]
      exact advance_current hb (hsame.heights.trans hf₀.heights) hcur
    · intro h hh
      simp only [getHardForkVersion, setHardForkVersion, hvers]
      by_cases htop : h = db.height
      · -- The new height gets the version the block was checked against.
        subst htop
        rw [Function.update_self, Option.getD_some, (activeIndex_congr hf₀.heights).1, hf₀.current]
      · rw [Function.update_of_ne htop]
        exact hf₀.recorded h (by omega)

/-- A rescan that is not refused puts the state on the schedule: it starts from the version
    recorded for the top block and takes one vote round. -/
theorem rescanFromBlockHeight_follows (hb : base.VoteFree) (hh : hf.heights = base.heights)
    (ho : hf.originalVersion = base.originalVersion)
    (hrec : ∀ h < db.height, db.getHardForkVersion h = (base.entry (base.activeIndex h)).version)
    {height : Nat} (hlt : height < db.height) :
    Follows base (hf.rescanFromBlockHeight db height) db := by
  have hsame : VotesOnly hf.clearVotes (hf.clearVotes.countVotes (db.blocks.drop height)) :=
    votesOnly_countVotes _ _
  simp only [rescanFromBlockHeight, if_neg (not_le.mpr hlt)]
  set counted := hf.clearVotes.countVotes (db.blocks.drop height)
  have hcounted : counted.heights = base.heights := hsame.heights.trans hh
  have hidx : indexOfVersion (db.getHardForkVersion (db.height - 1)) counted.heights
      = base.activeIndex (db.height - 1) := by
    have hin := base.activeIndex_lt hb.nonempty (db.height - 1)
    rw [hrec _ (by omega), hcounted, entry_eq_getElem base hin]
    exact indexOfVersion_getElem _ base.heights_sorted _ hin
  refine ⟨(sameTable_advance _ _).heights.trans hcounted,
    (sameTable_advance _ _).originalVersion.trans (hsame.originalVersion.trans ho),
    advance_current hb hcounted ?_, hrec⟩
  rw [hidx]
  exact Schedule.active_mono (sub_le _ _)

/-- Rebuilding the state from the database puts it on the schedule, whatever it was. -/
theorem init_follows (hb : base.VoteFree) (hh : hf.withPlaceholder.heights = base.heights)
    (ho : hf.withPlaceholder.originalVersion = base.originalVersion)
    (hrec : ∀ h < db.height, db.getHardForkVersion h = (base.entry (base.activeIndex h)).version) :
    Follows base (hf.init db) db := by
  by_cases hempty : db.height = 0
  · -- An empty database: the rescan is refused and the index stays 0.
    have hzero : base.activeIndex 0 = 0 := Schedule.active_zero base.starts_increasing
    have hinit : hf.init db = { hf.withPlaceholder.clearVotes with currentForkIndex := 0 } := by
      simp [init, rescanFromChainHeight, rescanFromBlockHeight, hempty]
    rw [hinit]
    exact ⟨hh, ho, by rw [hempty, hzero], hrec⟩
  · simp only [init, rescanFromChainHeight]
    set cleared : HardFork := { hf.withPlaceholder.clearVotes with currentForkIndex := 0 }
    have hrescan : ∀ height < db.height,
      Follows base (cleared.rescanFromBlockHeight db height) db :=
      fun height hlt => rescanFromBlockHeight_follows hb
        (show cleared.heights = base.heights from hh) ho hrec hlt
    -- Either way the rescan starts at a height the database has.
    by_cases hlong : db.height > hf.withPlaceholder.clearVotes.windowSize
    · rw [if_pos hlong, if_neg (by omega)]
      exact hrescan _ (by omega)
    · rw [if_neg hlong, if_neg one_ne_zero]
      exact hrescan _ (by omega)

theorem withPlaceholder_of_ne (hne : hf.heights ≠ []) : hf.withPlaceholder = hf := by
  simp [withPlaceholder, hne]

theorem withPlaceholder_ne (hf : HardFork) : hf.withPlaceholder.heights ≠ [] := by
  unfold withPlaceholder
  split
  · exact cons_ne_nil _ _
  · assumption

/-- Every step keeps the state machine on the schedule. -/
theorem chainStep_follows (hb : base.VoteFree) :
    Preserves ChainStep fun s => Follows base s.1 s.2 := by
  intro s t hs hstep
  cases hstep with
  | add hf hf' db db₁ db₂ b hdb hadd => exact add_follows hb hs hdb hadd
  | restart hf db =>
    have hsame : hf.withPlaceholder = hf := withPlaceholder_of_ne (hs.heights ▸ hb.nonempty)
    refine init_follows hb ?_ ?_ hs.recorded
    · rw [hsame]
      exact hs.heights
    · rw [hsame]
      exact hs.originalVersion

/-- On the schedule, both answers for a height are read off the entry in force. -/
theorem Follows.get_eq (hs : Follows base hf db) (hh : h ≤ db.height) :
    hf.get db h = (base.entry (base.activeIndex h)).version := by
  rw [get, if_neg (not_lt.mpr hh)]
  split_ifs with htop
  · rw [getCurrentVersion, hs.current, (activeIndex_congr hs.heights).1, htop]
  · exact hs.recorded h (lt_of_le_of_ne hh htop)

theorem Follows.getIdealVersion_eq_get_iff_entry (hs : Follows base hf db) (hh : h ≤ db.height) :
    hf.getIdealVersion h = hf.get db h ↔ (base.entry 0).version = base.originalVersion ∨
        0 < base.heights.length - 1 ∧ (base.entry 1).height ≤ h := by
  rw [hs.get_eq hh, getIdealVersion_eq, hs.originalVersion, (activeIndex_congr hs.heights).1,
    (activeIndex_congr hs.heights).2, ← Schedule.active_pos_iff base.starts_increasing]
  change _ ↔ _ ∨ 0 < base.activeIndex h
  split_ifs with hzero
  · rw [hzero]
    simp [eq_comm]
  · simp [Nat.pos_of_ne_zero hzero]

/-! ## A table with one fork -/

theorem votesOnly_unpopVote (hf : HardFork) (db : BlockchainDB) (height : Nat) :
    VotesOnly hf (hf.unpopVote db height) := by
  unfold unpopVote
  split <;> exact ⟨⟨rfl, rfl, rfl, rfl⟩, rfl⟩

theorem votesOnly_unpopVotes (hf : HardFork) (db : BlockchainDB) (height : Nat → Nat)
    (l : List Nat) : VotesOnly hf (l.foldl (fun hf i => hf.unpopVote db (height i)) hf) := by
  induction l generalizing hf with
  | nil => exact .refl hf
  | cons i rest ih => exact (votesOnly_unpopVote hf db (height i)).trans (ih _)

/-- A state at the only fork of its table. -/
structure OneFork (f : HardforkT) (originalVersion : UInt8) (hf : HardFork) : Prop where
  heights : hf.heights = [f]
  originalVersion : hf.originalVersion = originalVersion
  currentForkIndex : hf.currentForkIndex = 0

/-! A table with a single fork never leaves it, whatever happens to the chain. -/

namespace OneFork

variable {f : HardforkT} {originalVersion : UInt8} {hf hf' : HardFork}
  (hone : OneFork f originalVersion hf)
include hone

theorem same (h : VotesOnly hf hf') : OneFork f originalVersion hf' :=
  ⟨h.heights.trans hone.heights, h.originalVersion.trans hone.originalVersion,
    h.currentForkIndex.trans hone.currentForkIndex⟩

theorem advance (h : Nat) : OneFork f originalVersion (hf.advance h) := by
  have hvoted : hf.getVotedForkIndex h = 0 := by
    rw [getVotedForkIndex, hone.heights, hone.currentForkIndex]
    simp only [length_singleton, votedForkIndexLoop]
    split <;> rfl
  simp only [HardFork.advance, hvoted]
  rw [if_neg (by omega)]
  exact hone

section

variable (db : BlockchainDB)

theorem add (b : Block) (height : Nat) : OneFork f originalVersion (hf.add db b height).2.1 := by
  unfold HardFork.add
  split
  · exact hone
  · exact (hone.same ((votesOnly_trimWindow hf _).trans (votesOnly_pushVote _ _))).advance _

theorem addAll (blocks : List StoredBlock) (h : Nat) :
    OneFork f originalVersion (hf.addAll db blocks h).1 := by
  induction blocks generalizing hf db h with
  | nil => exact hone
  | cons b rest ih => exact ih (hone.add db b.block h) _ _

theorem reorganizeFromChainHeight (height : Nat) :
    OneFork f originalVersion (hf.reorganizeFromChainHeight db height).2.1 := by
  unfold HardFork.reorganizeFromChainHeight
  split
  · exact hone
  · unfold reorganizeFromBlockHeight
    split
    · exact hone
    · -- The index is walked down from 0, and the votes are counted afresh.
      refine addAll (advance (same ?_ (votesOnly_countVotes _ _)) _) _ _ _
      refine ⟨hone.heights, hone.originalVersion, ?_⟩
      simp only [hone.currentForkIndex, indexDownTo]

theorem rescanFromChainHeight (height : Nat) :
    OneFork f originalVersion (hf.rescanFromChainHeight db height) := by
  unfold HardFork.rescanFromChainHeight
  split
  · exact hone
  · unfold rescanFromBlockHeight
    split
    · exact hone
    · -- The only entry is found whatever version was recorded last.
      have hcleared : OneFork f originalVersion hf.clearVotes :=
        ⟨hone.heights, hone.originalVersion, hone.currentForkIndex⟩
      have hcounted := hcleared.same (votesOnly_countVotes _ (db.blocks.drop (height - 1)))
      set counted := hf.clearVotes.countVotes (db.blocks.drop (height - 1))
      have hmoved : OneFork f originalVersion { counted with
          currentForkIndex := indexOfVersion (db.getHardForkVersion (db.height - 1))
            counted.heights } := by
        refine ⟨hcounted.heights, hcounted.originalVersion, ?_⟩
        simp only [hcounted.heights]
        rfl
      exact hmoved.advance db.height

theorem init : OneFork f originalVersion (hf.init db) := by
  have hplaceholder : hf.withPlaceholder = hf :=
    withPlaceholder_of_ne (by rw [hone.heights]; exact cons_ne_nil _ _)
  have hcleared : OneFork f originalVersion { hf.clearVotes with currentForkIndex := 0 } :=
    ⟨hone.heights, hone.originalVersion, rfl⟩
  simp only [HardFork.init, hplaceholder]
  exact hcleared.rescanFromChainHeight db _

theorem onBlockPopped (nblocks : Nat) :
    OneFork f originalVersion (hf.onBlockPopped db nblocks) := by
  have hunpop := hone.same (votesOnly_unpopVotes hf db (fun i => db.height + nblocks - 1 - i)
    (range nblocks))
  simp only [HardFork.onBlockPopped]
  refine ⟨hunpop.heights, hunpop.originalVersion, ?_⟩
  simp only [hunpop.heights, length_singleton]
  rfl

end

theorem getCurrentVersion : hf.getCurrentVersion = f.version := by
  rw [HardFork.getCurrentVersion, hone.currentForkIndex, entry, hone.heights]
  rfl

theorem getIdealVersion (h : Nat) : hf.getIdealVersion h = originalVersion := by
  rw [HardFork.getIdealVersion, hone.heights]
  exact hone.originalVersion

end OneFork

/-! ## Tables from accepted forks -/

theorem addFork_heights {version threshold : UInt8} {height : Nat} {time : Int}
    (h : hf.addFork version height threshold time = some hf') :
    hf'.heights = hf.heights ++ [⟨version, height, threshold, time⟩] ∧
      hf'.originalVersion = hf.originalVersion ∧ hf'.windowSize = hf.windowSize := by
  unfold addFork at h
  split_ifs at h
  cases h
  exact ⟨rfl, rfl, rfl⟩

theorem addForks_heights {rows : List HardforkT} (h : hf.addForks rows = some hf') :
    hf'.heights = hf.heights ++ rows ∧ hf'.originalVersion = hf.originalVersion ∧
      hf'.windowSize = hf.windowSize := by
  induction rows generalizing hf with
  | nil =>
    cases h
    exact ⟨(append_nil _).symm, rfl, rfl⟩
  | cons f rest ih =>
    obtain ⟨mid, hmid, hrest⟩ := Option.bind_eq_some_iff.mp h
    obtain ⟨hh, ho, hw⟩ := addFork_heights hmid
    obtain ⟨hh', ho', hw'⟩ := ih hrest
    exact ⟨by rw [hh', hh, append_assoc]; rfl, ho'.trans ho, hw'.trans hw⟩

theorem create_heights {originalVersion percent : UInt8} {windowSize : Nat}
    (h : create originalVersion windowSize percent = some hf) :
    hf.heights = [] ∧ hf.originalVersion = originalVersion ∧ hf.windowSize = windowSize := by
  unfold create at h
  split_ifs at h
  cases h
  exact ⟨rfl, rfl, rfl⟩

/-- The state machine and `get_ideal_version` agree on a height of the chain exactly when the
    first fork of the table has the original version (or there is none), or the second fork
    has started by that height. The downward loop never looks at the first entry. -/
theorem getIdealVersion_eq_get_iff (originalVersion percent : UInt8) (windowSize : Nat)
    (hf₀ hf₁ hf : HardFork) (rows : List HardforkT) (db : BlockchainDB) (h : Nat)
    (hcreate : create originalVersion windowSize percent = some hf₀)
    (htable : hf₀.addForks rows = some hf₁) (hzero : ∀ f ∈ rows, f.threshold = 0)
    (hrun : Run ChainStep (hf₁.init .empty, .empty) (hf, db)) (hh : h ≤ db.height) :
    hf.getIdealVersion h = hf.get db h ↔
      (∀ f ∈ rows.head?, f.version = originalVersion) ∨ ∃ f ∈ rows[1]?, f.height ≤ h := by
  obtain ⟨hnil, ho₀, -⟩ := create_heights hcreate
  obtain ⟨hrows, ho₁, -⟩ := addForks_heights htable
  rw [hnil, nil_append] at hrows
  set base := hf₁.withPlaceholder with hbase
  have ho : base.originalVersion = originalVersion := by
    rw [hbase, withPlaceholder]
    split <;> exact ho₁.trans ho₀
  have hheights : base.heights = if rows = [] then [⟨originalVersion, 0, 0, 0⟩] else rows := by
    rw [hbase, withPlaceholder, hrows]
    split
    · rw [← ho₀, ← ho₁]
    · exact hrows
  have hfree : base.VoteFree := by
    refine ⟨withPlaceholder_ne hf₁, fun f hf => ?_⟩
    rw [hheights] at hf
    split at hf
    · rw [mem_singleton.mp hf]
    · exact hzero f hf
  have hstart : Follows base (hf₁.init .empty) .empty :=
    init_follows hfree rfl rfl (fun h hlt => absurd hlt (not_lt_zero h))
  have hend : Follows base hf db := (chainStep_follows hfree).run hrun hstart
  rw [hend.getIdealVersion_eq_get_iff_entry hh, ho]
  unfold entry
  rw [hheights]
  rcases rows with _ | ⟨f, _ | ⟨g, rest⟩⟩ <;> simp

/-- The first block of mainnet, as it is stored. -/
def mainnetGenesis : StoredBlock where
  block := ⟨12, 12, 0, 0, 70707070, {}, []⟩
  hash := 1
  minerTxHash := 2
  txs := []
  weight := 80
  longTermWeight := 80
  cumulativeDifficulty := 1
  coins := 0

/-- Mainnet with its first block. -/
def mainnetFirst : HardFork × BlockchainDB :=
  ((mainnet.init .empty).add (empty.append mainnetGenesis (by decide) (by decide))
    mainnetGenesis.block 0).2

theorem mainnetFirst_run : Run ChainStep (mainnet.init .empty, .empty) mainnetFirst :=
  Relation.ReflTransGen.single (ChainStep.add _ _ _ _ _ mainnetGenesis rfl rfl)

/-- Mainnet with its first block: the chain enforces version 12 throughout, and the loop that
    skips the only entry of the table answers 1. -/
theorem mainnet_getIdealVersion_ne : ∃ (hf : HardFork) (db : BlockchainDB),
      Run ChainStep (mainnet.init .empty, .empty) (hf, db) ∧ db.height = 1 ∧
        hf.getIdealVersion 0 = 1 ∧ hf.get db 0 = 12 ∧
        hf.getIdealVersion 1 = 1 ∧ hf.get db 1 = 12 :=
  ⟨_, _, mainnetFirst_run, by decide +kernel⟩

/-- The same block, at height 1. -/
theorem mainnet_getIdealVersion_iff :
    mainnetFirst.1.getIdealVersion 1 = mainnetFirst.1.get mainnetFirst.2 1 ↔
      (∀ f ∈ mainnetHardForks.head?, f.version = 1) ∨ ∃ f ∈ mainnetHardForks[1]?, f.height ≤ 1 :=
  getIdealVersion_eq_get_iff 1 80 10080 _ mainnet _ mainnetHardForks _ 1 rfl rfl
    (by decide) mainnetFirst_run (by decide +kernel)

end HardFork

end CocaineNode
