import CocaineNode.Core.Recalculation
import CocaineNode.Theory.DifficultyPaths

/-!
# Recalculated Difficulties

Up to the first drift the locals of `recalculate_difficulties` are those of the
stored chain: the window and the work of the blocks below the height the loop is
at. So the window is rebuilt as it should be, wherever the loop starts.

The target is not. On mainnet the fork table has one entry, the ideal version of
every height is that of the constructor, 1, and the loop works with 60 seconds,
while the chain was built with 120. It finds no drift exactly when no window on
the way tells the two apart.

## Theorems

* `recalculateLoop_iff`: When the loop finds no drift.
* `recalculateDifficulties_zero_iff`: When nothing is corrected.
-/

namespace CocaineNode

open List Option Nat

open Transition Blockchain

/-! ## The window -/

variable {E : Externals} {s : Blockchain} {log : List Block}

/-- What is read downwards from a height. -/
theorem readWindow_down (db : BlockchainDB) (n height : Nat) (acc : List (UInt64 × Difficulty))
    (hheight : height < db.blocks.length) :
    readWindow db n height acc.unzip =
      some (((db.blocks.map StoredBlock.work).take (height + 1)).drop (max 1 (height + 1 - n)) ++
        acc).unzip := by
  induction n generalizing height acc with
  | zero =>
    rw [readWindow, drop_of_length_le (by rw [length_take]; omega), nil_append]
  | succ n ih =>
    simp only [readWindow]
    by_cases hzero : height = 0
    · rw [if_pos hzero, hzero, drop_of_length_le (by rw [length_take]; omega), nil_append]
    · have hnext := ih (height - 1) (db.blocks[height].work :: acc) (by omega)
      rw [if_neg hzero, getElem?_eq_getElem hheight]
      refine hnext.trans (congrArg (fun l => some (unzip l)) ?_)
      rw [show height - 1 + 1 = height by omega, show max 1 (height + 1 - (n + 1)) =
        max 1 (height - n) by omega, take_add_one, getElem?_map,
        getElem?_eq_getElem hheight, map_some, toList_some,
        drop_append_of_le_length
          (by rw [length_take, length_map]; omega), append_assoc]
      rfl

/-- The window below the start is that of the chain up to there. -/
theorem readWindow_eq (db : BlockchainDB) (start : Nat) (hstart : 1 < start)
    (hle : start ≤ db.blocks.length) :
    readWindow db difficultyBlocksCount (start - 1) ([], []) =
      some (windowBlocks ((db.blocks.map StoredBlock.work).take start)).unzip := by
  have hdown := readWindow_down db difficultyBlocksCount (start - 1) [] (by omega)
  rw [show start - 1 + 1 = start by omega, append_nil] at hdown
  rw [windowBlocks_eq, length_take, length_map, min_eq_left hle]
  exact hdown

/-! ## The loop -/

/-- The locals when the loop is at a height and has found no drift. -/
def Blockchain.Recalculation.at (work : List (UInt64 × Difficulty)) (height : Nat) :
    Recalculation where
  timestamps := (windowBlocks (work.take height)).map Prod.fst
  difficulties := (windowBlocks (work.take height)).map Prod.snd
  lastCumDiff := lastWork (work.take height)

/-- No drift is found at a height: its window does not tell the targets apart, and the work does
    not overflow. -/
def Blockchain.Undrifted (s : Blockchain) (height : Nat) : Prop :=
  let below := (s.db.blocks.map StoredBlock.work).take height
  TargetFree below ∧ (nextWork difficultyTargetV2 below).toNat + (lastWork below).toNat < 2 ^ 128

/-- The loop has found a drift. -/
def Blockchain.Recalculation.Drifted (r : Recalculation) : Prop :=
  0 < r.driftStartHeight ∧ r.newCumulativeDifficulties ≠ []

theorem map_pushAbove {α β : Type} (f : α → β) (height : Nat) (values : List α) (x : α) :
    (pushAbove height values x).map f = pushAbove height (values.map f) (f x) := by
  unfold pushAbove
  split
  · rw [map_append, map_singleton]
  · rfl

section Turn

variable {height : Nat} {r r' : Recalculation}

/-- What a turn does when it does not throw. -/
theorem recalculateBlock_inv (h : s.recalculateBlock height r = some r') :
    ∃ b, s.db.blocks[height]? = some b ∧
      (s.recalculatedDiff height r).toNat + r.lastCumDiff.toNat < 2 ^ 128 ∧
      r'.lastCumDiff = s.recalculatedDiff height r + r.lastCumDiff ∧
      r'.driftStartHeight = (if r.driftStartHeight = 0 ∧ r'.lastCumDiff ≠ b.cumulativeDifficulty
        then height else r.driftStartHeight) ∧
      r'.newCumulativeDifficulties =
        pushAbove r'.driftStartHeight r.newCumulativeDifficulties r'.lastCumDiff ∧
      let pushed := pushAbove height r.timestamps b.block.timestamp
      r'.timestamps = pushed.drop (pushed.length - difficultyBlocksCount) ∧
      r'.difficulties = (pushAbove height r.difficulties r'.lastCumDiff).drop
        (pushed.length - difficultyBlocksCount) := by
  unfold recalculateBlock at h
  simp only at h
  split at h
  · cases h
  · rename_i hfits
    split at h
    · cases h
    · rename_i b hb
      refine ⟨b, hb, by omega, ?_⟩
      split at h
      · split at h
        · cases h
        · rename_i hone
          rw [not_not] at hone
          cases h
          refine ⟨rfl, rfl, rfl, ?_⟩
          simp only [hone, Nat.add_sub_cancel_left, drop_one, and_self]
      · rename_i hfew
        cases h
        refine ⟨rfl, rfl, rfl, ?_⟩
        simp only [Nat.sub_eq_zero_of_le (Nat.not_lt.mp hfew), drop_zero, and_self]

/-- A turn throws for a block that is not there, and on an overflow. -/
theorem recalculateBlock_isSome {b : StoredBlock} (hb : s.db.blocks[height]? = some b)
    (hfits : (s.recalculatedDiff height r).toNat + r.lastCumDiff.toNat < 2 ^ 128)
    (hlen : r.timestamps.length ≤ difficultyBlocksCount) :
    ∃ r', s.recalculateBlock height r = some r' := by
  have hone : (pushAbove height r.timestamps b.block.timestamp).length ≤
      difficultyBlocksCount + 1 := by
    rw [pushAbove]
    split
    · rw [length_append]
      exact Nat.add_le_add_right hlen 1
    · exact le_succ_of_le hlen
  unfold recalculateBlock
  simp only [hb]
  rw [if_neg (by omega)]
  split
  · rename_i hfull
    rw [if_neg (not_not.mpr (by omega))]
    exact ⟨_, rfl⟩
  · exact ⟨_, rfl⟩

theorem recalculateBlock_drifted (hr : r.Drifted) (h : s.recalculateBlock height r = some r') :
    r'.Drifted := by
  rcases recalculateBlock_inv h with ⟨b, -, -, -, hdrift, hvalues, -⟩
  rw [if_neg fun hzero => ne_of_gt hr.1 hzero.1] at hdrift
  refine ⟨hdrift ▸ hr.1, ?_⟩
  rw [hvalues, pushAbove, if_pos (hdrift ▸ hr.1)]
  exact append_ne_nil_of_left_ne_nil hr.2 _

end Turn

/-- A drift is never forgotten. -/
theorem recalculateLoop_drifted {n height : Nat} {r r' : Recalculation} (hr : r.Drifted)
    (h : s.recalculateLoop n height r = some r') : r'.Drifted := by
  induction n generalizing height r with
  | zero =>
    rw [recalculateLoop, some.injEq] at h
    exact h ▸ hr
  | succ n ih =>
    rw [recalculateLoop] at h
    split at h
    · cases h
    · rename_i r1 hblock
      exact ih (recalculateBlock_drifted hr hblock) h

namespace MainnetNode

/-- The stored work of a block, from the blocks below it. -/
theorem stored_work (h : MainnetNode E s log) {height : Nat} {b : StoredBlock}
    (hb : s.db.blocks[height]? = some b) :
    b.cumulativeDifficulty =
      nextWork difficultyTargetV2 ((s.db.blocks.map StoredBlock.work).take height) +
        lastWork ((s.db.blocks.map StoredBlock.work).take height) := by
  rcases h.kept with ⟨records, -, hkept⟩
  have hrule := hkept.chain.recorded.rule hb
  rw [WorkRule, map_take] at hrule
  exact hrule

/-- The window moves on with the height. -/
theorem windowBlocks_next {height : Nat} {b : StoredBlock} (hb : s.db.blocks[height]? = some b) :
    let window := windowBlocks ((s.db.blocks.map StoredBlock.work).take height)
    windowBlocks ((s.db.blocks.map StoredBlock.work).take (height + 1)) =
      (pushAbove height window b.work).drop
        ((pushAbove height window b.work).length - difficultyBlocksCount) := by
  have hlt := (List.getElem?_eq_some_iff.mp hb).1
  have htake : (s.db.blocks.map StoredBlock.work).take (height + 1) =
      (s.db.blocks.map StoredBlock.work).take height ++ [b.work] := by
    rw [take_add_one, List.getElem?_map, hb]
    rfl
  rw [htake]
  rcases Nat.eq_zero_or_pos height with rfl | hpos
  · simp [windowBlocks, pushAbove, show difficultyBlocksCount = 735 from rfl]
  · simp only [pushAbove, if_pos hpos]
    refine windowBlocks_concat _ _ (ne_nil_of_length_pos ?_)
    rw [List.length_take, length_map]
    omega

/-- Nothing drifts at the genesis block. -/
theorem undrifted_zero : s.Undrifted 0 := by
  refine ⟨Or.inl ?_, ?_⟩
  · simp [windowBlocks]
  · rw [take_zero]
    decide

variable (h : MainnetNode E s log)
include h

/-- One turn while nothing has drifted. -/
theorem recalculateBlock_at {height : Nat} (hlt : height < s.db.blocks.length) :
    let work := s.db.blocks.map StoredBlock.work
    (s.Undrifted height →
        s.recalculateBlock height (.at work height) = some (.at work (height + 1))) ∧
      (¬s.Undrifted height →
        ∀ r, s.recalculateBlock height (.at work height) = some r → r.Drifted) := by
  intro work
  obtain ⟨b, hb⟩ : ∃ b, s.db.blocks[height]? = some b := ⟨_, getElem?_eq_getElem hlt⟩
  have hstored := h.stored_work hb
  have hdiff : s.recalculatedDiff height (.at work height) =
      nextWork difficultyTargetV1 (work.take height) := by
    unfold recalculatedDiff
    rw [h.fork.getIdealVersion]
    rfl
  have hsame : nextWork difficultyTargetV1 (work.take height) + lastWork (work.take height) =
      b.cumulativeDifficulty ↔ TargetFree (work.take height) := by
    rw [hstored, BitVec.add_left_inj, nextWork_eq_iff]
  constructor
  · intro hu
    have hagree := (nextWork_eq_iff _).mpr hu.1
    have hlen : (Recalculation.at work height).timestamps.length ≤ difficultyBlocksCount := by
      rw [Recalculation.at, length_map, length_windowBlocks]
      exact Nat.min_le_right _ _
    obtain ⟨r, hr⟩ := recalculateBlock_isSome hb (by rw [hdiff, hagree]; exact hu.2) hlen
    rcases recalculateBlock_inv hr with ⟨b', hb', -, hlast, hdrift, hvalues, htimes, hdiffs⟩
    rw [hb, some.injEq] at hb'
    subst hb'
    rw [hdiff] at hlast
    have hcum : r.lastCumDiff = b.cumulativeDifficulty := hlast.trans (hsame.mpr hu.1)
    rw [if_neg fun hne => hne.2 hcum] at hdrift
    rw [hdrift] at hvalues
    rw [hcum] at hdiffs
    have hlastWork : lastWork (work.take (height + 1)) = b.cumulativeDifficulty := by
      rw [lastWork, take_add_one, getElem?_map, hb, map_some, toList_some, getLast?_concat]
      rfl
    have hlength : (pushAbove height ((windowBlocks (work.take height)).map Prod.fst)
        b.work.1).length = (pushAbove height (windowBlocks (work.take height)) b.work).length := by
      rw [← map_pushAbove, length_map]
    replace htimes : r.timestamps = (windowBlocks (work.take (height + 1))).map Prod.fst := by
      rw [windowBlocks_next hb, map_drop, map_pushAbove, ← hlength]
      exact htimes
    replace hdiffs : r.difficulties = (windowBlocks (work.take (height + 1))).map Prod.snd := by
      rw [windowBlocks_next hb, map_drop, map_pushAbove, ← hlength]
      exact hdiffs
    rcases r with ⟨ts, ds, last, drift, values⟩
    simp only at htimes hdiffs hcum hdrift hvalues
    rw [hr, htimes, hdiffs, hcum, hdrift, hvalues, ← hlastWork]
    rfl
  · intro hu r hr
    rcases recalculateBlock_inv hr with ⟨b', hb', hfits, hlast, hdrift, hvalues, -⟩
    rw [hb, some.injEq] at hb'
    subst hb'
    rw [hdiff] at hlast hfits
    have hpos : 0 < height := by
      refine Nat.pos_of_ne_zero fun hzero => hu ?_
      rw [hzero]
      exact undrifted_zero
    have hne : r.lastCumDiff ≠ b.cumulativeDifficulty := by
      intro heq
      have hfree := hsame.mp (hlast ▸ heq)
      refine hu ⟨hfree, ?_⟩
      rw [← (nextWork_eq_iff _).mpr hfree]
      exact hfits
    rw [if_pos ⟨rfl, hne⟩] at hdrift
    refine ⟨hdrift ▸ hpos, ?_⟩
    rw [hvalues, hdrift, pushAbove, if_pos hpos]
    exact append_ne_nil_of_right_ne_nil _ (cons_ne_nil _ _)

/-- The loop finds no drift exactly when there is none at any height it visits. -/
theorem recalculateLoop_iff (n height : Nat) (hend : height + n = s.db.blocks.length) :
    let work := s.db.blocks.map StoredBlock.work
    ((∀ i, height ≤ i → i < s.db.blocks.length → s.Undrifted i) →
        s.recalculateLoop n height (.at work height) = some (.at work s.db.blocks.length)) ∧
      (∀ r, s.recalculateLoop n height (.at work height) = some r → ¬r.Drifted →
        ∀ i, height ≤ i → i < s.db.blocks.length → s.Undrifted i) := by
  intro work
  induction n generalizing height with
  | zero =>
    rw [add_zero] at hend
    refine ⟨fun _ => by rw [recalculateLoop, hend], fun _ _ _ i hge hi => ?_⟩
    omega
  | succ n ih =>
    have hturn := h.recalculateBlock_at (show height < s.db.blocks.length by omega)
    have hnext := ih (height + 1) (by omega)
    constructor
    · intro hall
      rw [recalculateLoop, hturn.1 (hall height (le_refl _) (by omega))]
      exact hnext.1 fun i hge hi => hall i (by omega) hi
    · intro r hr hclean i hge hi
      rw [recalculateLoop] at hr
      split at hr
      · cases hr
      · rename_i r1 hblock
        by_cases hu : s.Undrifted height
        · rcases eq_or_lt_of_le hge with rfl | hgt
          · exact hu
          · rw [hturn.1 hu, some.injEq] at hblock
            exact hnext.2 r (hblock ▸ hr) hclean i hgt hi
        · exact absurd (recalculateLoop_drifted (hturn.2 hu r1 hblock) hr) hclean

/-- The locals the loop starts with, from a height the chain reaches. -/
theorem recalculation_start (start : Nat) (hpos : 0 < s.db.blocks.length)
    (hle : start ≤ s.db.blocks.length) :
    ∃ w, windowBelow s.db start = some w ∧
      (⟨w.1, w.2, if start ≤ 1 then BitVec.ofNat 128 start else w.2.getLastD 0, 0, []⟩ :
        Recalculation) = .at (s.db.blocks.map StoredBlock.work) start := by
  set work := s.db.blocks.map StoredBlock.work with hwork
  rcases lt_or_ge 1 start with hlarge | hsmall
  · have hlen : (work.take start).length = start := by
      rw [length_take, hwork, length_map, min_eq_left hle]
    refine ⟨_, (if_pos hlarge).trans (readWindow_eq s.db start hlarge hle), ?_⟩
    have hlast : (windowBlocks (work.take start)).getLast? = (work.take start).getLast? := by
      rw [windowBlocks_eq, getLast?_drop, if_neg (by omega)]
    rw [if_neg (not_le.mpr hlarge), unzip_eq_map, getLastD_eq_getLast?, getLast?_map, hlast]
    rfl
  · refine ⟨([], []), if_neg (not_lt.mpr hsmall), ?_⟩
    have hwindow : windowBlocks (work.take start) = [] := by
      rw [windowBlocks_eq, drop_of_length_le (by rw [length_take]; omega)]
    have hlast : lastWork (work.take start) = BitVec.ofNat 128 start := by
      rcases Nat.eq_zero_or_pos start with rfl | hone
      · rfl
      · have hget := getElem?_eq_getElem hpos
        rw [show start = 1 by omega, take_one, hwork, head?_map, head?_eq_getElem?, hget]
        exact h.stored_work hget
    rw [if_pos hsmall, Recalculation.at, hwindow, hlast]
    rfl

end MainnetNode

/-- The recalculation reads the block below the start, or the start itself. -/
theorem start_le_of_read {start n : Nat} {w : List UInt64 × List Difficulty} {r r' : Recalculation}
    (hread : windowBelow s.db start = some w)
    (hloop : s.recalculateLoop n start r = some r')
    (hn : s.db.blocks.length = 0 → start ≤ 1 → 0 < n) :
    0 < s.db.blocks.length ∧ start ≤ s.db.blocks.length := by
  have hcount : difficultyBlocksCount = 734 + 1 := rfl
  rcases lt_or_ge 1 start with hlarge | hsmall
  · rw [windowBelow, if_pos hlarge, hcount, readWindow, if_neg (by omega)] at hread
    split at hread
    · cases hread
    · rename_i b hb
      have hlt := (List.getElem?_eq_some_iff.mp hb).1
      omega
  · suffices hpos : 0 < s.db.blocks.length from ⟨hpos, le_trans hsmall hpos⟩
    refine Nat.pos_of_ne_zero fun hzero => ?_
    rcases Nat.exists_eq_succ_of_ne_zero (Nat.ne_of_gt (hn hzero hsmall)) with ⟨m, rfl⟩
    rw [recalculateLoop] at hloop
    split at hloop
    · cases hloop
    · rename_i r1 hblock
      rcases recalculateBlock_inv hblock with ⟨b, hb, -⟩
      have hlt := (List.getElem?_eq_some_iff.mp hb).1
      omega

/-- `recalculate_difficulties` on a mainnet node, from a given height or from the last difficulty
    checkpoint that passes: it returns 0 and leaves the database as it is exactly when the chain
    reaches the height and no window from there on tells 60 seconds from 120. -/
theorem recalculateDifficulties_zero_iff (E : Externals) (s : Blockchain) (log : List Block)
    (points : Checkpoints) (startHeightOpt : Option Nat)
    (hrun : Run (Move E) (mainnetStart, []) (s, log)) (hfree : CollisionFree E log) :
    (∃ s', s.recalculateDifficulties points startHeightOpt = some (0, s') ∧ s'.db = s.db) ↔
      let start := startHeightOpt.getD (s.checkDifficultyCheckpoints points).2
      0 < s.height ∧ start ≤ s.height ∧
        ∀ height, start ≤ height → height < s.height → s.Undrifted height := by
  have hs := mainnetNode_run hrun hfree
  have hlen : s.height = s.db.blocks.length := rfl
  unfold recalculateDifficulties
  rw [if_neg (not_not.mpr hs.fixed)]
  set start := startHeightOpt.getD (s.checkDifficultyCheckpoints points).2
  simp only [bind_eq_bind, hlen]
  constructor
  · rintro ⟨s', h, -⟩
    rw [bind_eq_some_iff] at h
    rcases h with ⟨w, hread, h⟩
    rw [bind_eq_some_iff] at h
    rcases h with ⟨r, hloop, hret⟩
    have hclean : ¬r.Drifted := by
      intro hd
      refine hd.2 (length_eq_zero_iff.mp ?_)
      split at hret <;> exact congrArg Prod.fst (some.inj hret)
    rcases start_le_of_read hread hloop (fun hzero hsmall => by rw [if_pos hzero]; omega)
      with ⟨hpos, hle⟩
    refine ⟨hpos, hle, ?_⟩
    rcases hs.recalculation_start start hpos hle with ⟨w', hread', hat⟩
    rw [hread', some.injEq] at hread
    rw [← hread, hat, if_neg (Nat.ne_of_gt hpos), Nat.sub_add_cancel hpos] at hloop
    exact (hs.recalculateLoop_iff _ start (Nat.add_sub_cancel' hle)).2 r hloop hclean
  · rintro ⟨hpos, hle, hall⟩
    rcases hs.recalculation_start start hpos hle with ⟨w, hread, hat⟩
    have hloop := (hs.recalculateLoop_iff _ start (Nat.add_sub_cancel' hle)).1 hall
    rw [hread, bind_some, hat, if_neg (Nat.ne_of_gt hpos), Nat.sub_add_cancel hpos, hloop]
    exact ⟨s, rfl, rfl⟩

/-- On two blocks nothing is corrected. -/
theorem recalculateDifficulties_zero_two :
    ∃ s', (quickNode (quickChain.take 2)).recalculateDifficulties .empty none = some (0, s') ∧
      s'.db = (quickNode (quickChain.take 2)).db := by
  refine (recalculateDifficulties_zero_iff .sample (quickNode (quickChain.take 2))
    ((quickChain.take 2).reverse ++ []) .empty none
    (connectAll_run .sample 2000 mainnetStart (quickChain.take 2) [] (by decide +kernel))
    ⟨by decide +kernel, by decide +kernel⟩).mpr ⟨by decide +kernel, by decide +kernel, ?_⟩
  intro height _ hlt
  have htwo : (quickNode (quickChain.take 2)).height = 2 := by decide +kernel
  rcases (by omega : height = 0 ∨ height = 1) with rfl | rfl
  · exact ⟨.inl (by decide +kernel), by decide +kernel⟩
  · exact ⟨.inl (by decide +kernel), by decide +kernel⟩

/-- A chain whose third and fourth block follow after ten seconds: the work of the last block, 15,
    becomes 9. -/
theorem recalculateDifficulties_drift : let blocks := quickChain ++ [quickBlock 3 1020]
    let s := quickNode blocks
    ∃ log, Run (Move .sample) (mainnetStart, []) (s, log) ∧ CollisionFree .sample log ∧
      s.db.blocks.map StoredBlock.cumulativeDifficulty = [1, 2, 3, 15] ∧
      (s.recalculateDifficulties .empty (some 0)).map (fun p =>
        (p.1, p.2.db.blocks.map StoredBlock.cumulativeDifficulty)) = some (1, [1, 2, 3, 9]) :=
  ⟨_, connectAll_run .sample 2000 mainnetStart (quickChain ++ [quickBlock 3 1020]) []
      (by decide +kernel),
    ⟨by decide +kernel, by decide +kernel⟩, by decide +kernel, by decide +kernel⟩

end CocaineNode
