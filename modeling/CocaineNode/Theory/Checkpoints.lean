import CocaineNode.Core.Checkpoints
import CocaineNode.Theory.LongHash
import CocaineNode.Theory.Moves

/-!
# Enforcing Checkpoints

When a checkpoint fails, `check_against_checkpoints` rolls the chain back to two
blocks below it, and goes on with the next checkpoint. Three things go wrong
there. The height of the chain is read once, before the loop, so a checkpoint
above the one that failed is looked up in a chain that no longer has it, and
the database throws. The height two below wraps for checkpoints at 0 and 1,
and the rollback takes that for a height above the chain and does nothing. And
below a checkpoint at 2 it would have to pop the genesis block, which throws.

`checkAgainstCheckpoints_iff` says when none of this matters: no checkpoint
fails, or only the highest one that the chain has reached, and that one is at
least 3. The exception is a failing checkpoint at 1, which a rollback from 3
takes off the chain.

## Theorems

* `Blockchain.checkpointsLoop_bad`: The loop from a checkpoint that fails.
* `Blockchain.checkAgainstCheckpoints_iff`: When the checkpoints hold afterwards.
-/

namespace CocaineNode

open List BlockchainDB Nat

namespace Blockchain

/-! ## Rolling back -/

theorem popBlockFromBlockchain_isSome (E : Externals) (s : Blockchain) (now : UInt64)
    (hheight : 1 < s.height) : ∃ b s', s.popBlockFromBlockchain E now = some (b, s') := by
  have hne : s.db.blocks ≠ [] := by
    intro hnil
    have hzero : s.height = 0 := congrArg length hnil
    omega
  unfold popBlockFromBlockchain
  rw [if_neg (by omega), popBlock, getLast?_eq_getLast_of_ne_nil hne]
  exact ⟨_, _, rfl⟩

variable {s s' : Blockchain}

theorem Popped.blocks {b : Block} (h : Popped s b s') :
    s'.db.blocks = s.db.blocks.take (s.height - 1) ∧ s'.height = s.height - 1 := by
  have hblocks : s'.db.blocks = s.db.blocks.take (s.height - 1) := by
    rw [h.db]
    rfl
  refine ⟨hblocks, ?_⟩
  change s'.db.blocks.length = _
  rw [hblocks, length_take]
  exact min_eq_left (sub_le _ _)

variable (E : Externals) (now : UInt64)

/-- Blocks are popped down to any height but 0. -/
theorem popToHeight_blocks {height n : Nat} {s : Blockchain} (hpos : 0 < height)
    (hle : height ≤ s.height) (hn : s.height - height < n) :
    ∃ s', popToHeight E height now n s = some s' ∧ s'.db.blocks = s.db.blocks.take height := by
  induction n generalizing s with
  | zero => exact absurd hn (not_lt_zero _)
  | succ n ih =>
    unfold popToHeight
    split_ifs with hhere
    · rw [← hhere]
      exact ⟨s, rfl, take_length.symm⟩
    · rcases popBlockFromBlockchain_isSome E s now (by omega) with ⟨b, s₁, hpop⟩
      rcases (popBlockFromBlockchain_some hpop).blocks with ⟨hblocks, hheight⟩
      rcases ih (s := s₁) (by omega) (by omega) with ⟨s', hs', hrest⟩
      rw [hpop]
      refine ⟨s', hs', ?_⟩
      rw [hrest, hblocks, take_take, min_eq_left (by omega)]

/-- The genesis block is not popped. -/
theorem popToHeight_zero (n : Nat) {s : Blockchain} (hpos : 0 < s.height) :
    popToHeight E 0 now n s = none := by
  induction n generalizing s with
  | zero => rfl
  | succ n ih =>
    unfold popToHeight
    rw [if_neg (by omega)]
    cases hpop : s.popBlockFromBlockchain E now with
    | none => rfl
    | some r =>
      have hpopped := popBlockFromBlockchain_some hpop
      exact ih (by rw [hpopped.blocks.2]; have hheight := hpopped.height; omega)

section

variable (E : Externals) (s : Blockchain) (now : UInt64)

/-- A rollback with nothing to add again leaves the first blocks of the chain. -/
theorem rollback_blocks {height : Nat} (hpos : 0 < height) (hle : height ≤ s.height) :
    ∃ s', s.rollbackBlockchainSwitching E [] height now = some (true, s') ∧
      s'.db.blocks = s.db.blocks.take height := by
  rcases popToHeight_blocks E now (s := s.resetDifficulties) (n := s.height + 1) hpos hle
    (by change s.height - height < _; omega) with ⟨s₁, hpop, hblocks⟩
  unfold rollbackBlockchainSwitching
  rw [if_neg (by omega), hpop]
  refine ⟨_, rfl, ?_⟩
  simp only [connectAll]
  rw [(reorganizeHardfork_tables _ _).1, (reorganizeHardfork_tables _ _).1]
  exact hblocks

theorem rollback_above {height : Nat} (hlt : s.height < height) :
    s.rollbackBlockchainSwitching E [] height now = some (true, s) := by
  unfold rollbackBlockchainSwitching
  rw [if_pos hlt]

theorem rollback_zero (hpos : 0 < s.height) : s.rollbackBlockchainSwitching E [] 0 now = none := by
  unfold rollbackBlockchainSwitching
  rw [if_neg (not_lt_zero _), popToHeight_zero E now _ (s := s.resetDifficulties) hpos]
  rfl

end

theorem height_take {k : Nat} (hblocks : s'.db.blocks = s.db.blocks.take k) :
    s'.height = min k s.height := by
  change s'.db.blocks.length = _
  rw [hblocks, length_take]
  rfl

/-- A block that is still there is the one that was there. -/
theorem ids_take {k h : Nat} (hblocks : s'.db.blocks = s.db.blocks.take k)
    (hlt : h < s'.height) : s'.db.ids[h]? = s.db.ids[h]? ∧ h < k := by
  have hlen := height_take hblocks
  refine ⟨?_, by omega⟩
  rw [ids, hblocks, map_take, getElem?_take_of_lt (by omega)]
  rfl

/-- A rollback that does not throw keeps the genesis block. -/
theorem rollback_genesis {E : Externals} {now : UInt64} {height : Nat} {ok : Bool}
    (hpos : 0 < s.height) (h : s.rollbackBlockchainSwitching E [] height now = some (ok, s')) :
    s'.db.ids[0]? = s.db.ids[0]? ∧ 0 < s'.height := by
  by_cases hlt : s.height < height
  · rw [rollback_above E s now hlt] at h
    cases h
    exact ⟨rfl, hpos⟩
  · by_cases hzero : height = 0
    · rw [hzero, rollback_zero E s now hpos] at h
      cases h
    · rcases rollback_blocks E s now (Nat.pos_of_ne_zero hzero) (Nat.not_lt.mp hlt) with
        ⟨s₁, hroll, hblocks⟩
      rw [hroll] at h
      cases h
      have hheight := height_take hblocks
      exact ⟨(ids_take hblocks (by omega)).1, by omega⟩

/-! ## The loop -/

/-- The chain has a block at the height of a checkpoint, and it is another one. -/
def Fails (points : Checkpoints) (s : Blockchain) (height : Nat) : Prop :=
  height < s.height ∧ ∃ hash, points.points.lookup height = some hash ∧
    s.db.ids[height]? ≠ some hash

section Loop

variable {E : Externals} {points : Checkpoints} {now : UInt64} {s s' : Blockchain} {p : Nat}

section

variable (h : s'.db.blocks = s.db.blocks)
include h

theorem height_congr : s'.height = s.height :=
  congrArg length h

theorem ids_congr : s'.db.ids = s.db.ids :=
  congrArg (map StoredBlock.hash) h

theorem fails_congr : Fails points s' p ↔ Fails points s p := by
  unfold Fails
  rw [height_congr h, ids_congr h]

end

theorem ids_isSome {h : Nat} (hlt : h < s.height) : ∃ hash, s.db.ids[h]? = some hash := by
  refine ⟨_, getElem?_eq_getElem ?_⟩
  rw [ids, length_map]
  exact hlt

theorem checkBlock_iff (h : Nat) (hash : Hash) :
    (Checkpoints.checkBlock points.points h hash).1 = true ↔
      ∀ expected, points.points.lookup h = some expected → expected = hash := by
  unfold Checkpoints.checkBlock
  cases hlookup : points.points.lookup h with
  | none | some expected => simp

/-- A checkpoint that the chain does not fail is passed over. -/
theorem checkCheckpoint_pass (hpass : ¬ Fails points s p) :
    checkCheckpoint E points true now s.height s p = some s := by
  unfold checkCheckpoint
  split
  · rfl
  · rename_i hlt
    rcases ids_isSome (not_le.mp hlt) with ⟨hash, hhash⟩
    have hcheck : (Checkpoints.checkBlock points.points p hash).1 = true := by
      refine (checkBlock_iff p hash).mpr fun expected hexpected => ?_
      by_contra hne
      refine hpass ⟨not_le.mp hlt, expected, hexpected, ?_⟩
      rw [hhash]
      exact fun heq => hne (Option.some.inj heq).symm
    rw [hhash]
    exact if_pos hcheck

/-- At one that it fails the chain is rolled back. -/
theorem checkCheckpoint_fail (hfails : Fails points s p) :
    checkCheckpoint E points true now s.height s p =
      (s.rollbackBlockchainSwitching E [] (twoBelow p) now).map Prod.snd := by
  rcases hfails with ⟨hlt, expected, hlookup, hne⟩
  rcases ids_isSome hlt with ⟨hash, hhash⟩
  have hcheck : ¬ (Checkpoints.checkBlock points.points p hash).1 = true := by
    intro hpass
    have heq := (checkBlock_iff p hash).mp hpass expected hlookup
    exact hne (by rw [hhash, heq])
  unfold checkCheckpoint
  rw [if_neg (not_le.mpr hlt), hhash]
  exact (if_neg hcheck).trans (if_pos rfl)

theorem twoBelow_one : twoBelow 1 = 2 ^ 64 - 1 :=
  rfl

theorem twoBelow_of_le {h : Nat} (hle : 2 ≤ h) (hwidth : h < 2 ^ 64) : twoBelow h = h - 2 := by
  unfold twoBelow
  omega

/-- A rollback from a checkpoint at 1 would go to the largest height there is. -/
theorem rollback_wrapped (E : Externals) (s : Blockchain) (now : UInt64)
    (hwidth : s.height < 2 ^ 64) :
    ∃ s', s.rollbackBlockchainSwitching E [] (twoBelow 1) now = some (true, s') ∧
      s'.db.blocks = s.db.blocks := by
  by_cases htop : s.height < 2 ^ 64 - 1
  · exact ⟨s, rollback_above E s now (by rwa [twoBelow_one]), rfl⟩
  · have heq : twoBelow 1 = s.height := by
      rw [twoBelow_one]
      omega
    rw [heq]
    rcases rollback_blocks E s now (show 0 < s.height by omega) (le_refl _) with
      ⟨s', hroll, hblocks⟩
    exact ⟨s', hroll, hblocks.trans take_length⟩

variable {heights : List Nat}

/-- While nothing fails, or only a checkpoint at 1, no block is lost. -/
theorem checkpointsLoop_quiet (E : Externals) (now : UInt64)
    (hwidth : s.height < 2 ^ 64) (hquiet : ∀ h ∈ heights, Fails points s h → h = 1) :
    ∃ s', s'.db.blocks = s.db.blocks ∧ ∀ rest,
      (heights ++ rest).foldlM (checkCheckpoint E points true now s.height) s =
        rest.foldlM (checkCheckpoint E points true now s.height) s' := by
  induction heights generalizing s with
  | nil => exact ⟨s, rfl, fun _ => rfl⟩
  | cons h heights ih =>
    have hrest : ∀ h' ∈ heights, Fails points s h' → h' = 1 := fun h' hmem =>
      hquiet h' (mem_cons_of_mem h hmem)
    by_cases hfails : Fails points s h
    · have hone := hquiet h mem_cons_self hfails
      rcases rollback_wrapped E s now hwidth with ⟨s₁, hroll, hblocks⟩
      have hheight := height_congr hblocks
      rcases ih (s := s₁) (hheight ▸ hwidth)
        (fun h' hmem hf => hrest h' hmem ((fails_congr hblocks).mp hf)) with ⟨s', hs', hloop⟩
      refine ⟨s', hs'.trans hblocks, fun rest => ?_⟩
      rw [hheight] at hloop
      rw [cons_append, foldlM_cons, checkCheckpoint_fail hfails, hone, hroll]
      exact hloop rest
    · rcases ih hwidth hrest with ⟨s', hs', hloop⟩
      refine ⟨s', hs', fun rest => ?_⟩
      rw [cons_append, foldlM_cons, checkCheckpoint_pass hfails]
      exact hloop rest

/-- Once the chain is shorter than the remaining checkpoints, one that the old chain had reached
    throws. -/
theorem checkpointsLoop_gone {H : Nat} (hgone : ∀ h ∈ heights, s.height ≤ h) :
    heights.foldlM (checkCheckpoint E points true now H) s =
      if ∃ h ∈ heights, h < H then none else some s := by
  induction heights with
  | nil => simp
  | cons h heights ih =>
    have hrest := ih fun h' hmem => hgone h' (mem_cons_of_mem h hmem)
    rw [foldlM_cons, checkCheckpoint]
    by_cases hlt : h < H
    · have hnone : s.db.ids[h]? = none := by
        rw [getElem?_eq_none_iff, ids, length_map]
        exact hgone h mem_cons_self
      have hreached : ∃ h' ∈ h :: heights, h' < H := ⟨h, mem_cons_self, hlt⟩
      rw [if_neg (not_le.mpr hlt), hnone, if_pos hreached]
      rfl
    · rw [if_pos (not_lt.mp hlt)]
      change heights.foldlM _ s = _
      rw [hrest]
      simp [hlt]

/-- The loop from a checkpoint that fails. -/
theorem checkpointsLoop_bad (E : Externals) (now : UInt64) {pre post : List Nat}
    (hwidth : s.height < 2 ^ 64) (hquiet : ∀ h ∈ pre, Fails points s h → h = 1)
    (hfails : Fails points s p) (hp : 3 ≤ p) (hpost : ∀ h ∈ post, p < h) :
    ∃ s', s'.db.blocks = s.db.blocks.take (p - 2) ∧
      (pre ++ p :: post).foldlM (checkCheckpoint E points true now s.height) s =
        if ∃ h ∈ post, h < s.height then none else some s' := by
  rcases checkpointsLoop_quiet E now hwidth hquiet with ⟨s₁, hblocks, hloop⟩
  have hheight := height_congr hblocks
  have hlt := hfails.1
  have htarget := twoBelow_of_le (show 2 ≤ p by omega) (by omega)
  rcases rollback_blocks E s₁ now (show 0 < p - 2 by omega) (by omega) with ⟨s', hroll, htake⟩
  rw [hblocks] at htake
  have hshort : s'.height ≤ p := by
    have := height_take htake
    omega
  refine ⟨s', htake, ?_⟩
  rw [hloop, ← hheight, foldlM_cons, checkCheckpoint_fail ((fails_congr hblocks).mpr hfails),
    htarget, hroll]
  exact checkpointsLoop_gone fun h hmem => hshort.trans (hpost h hmem).le

/-- A checkpoint at 2 cannot be enforced. -/
theorem checkpointsLoop_two (E : Externals) (now : UInt64) {pre post : List Nat}
    (hwidth : s.height < 2 ^ 64) (hquiet : ∀ h ∈ pre, Fails points s h → h = 1)
    (hfails : Fails points s 2) :
    (pre ++ 2 :: post).foldlM (checkCheckpoint E points true now s.height) s = none := by
  rcases checkpointsLoop_quiet E now hwidth hquiet with ⟨s₁, hblocks, hloop⟩
  have hheight := height_congr hblocks
  have hlt := hfails.1
  rw [hloop, ← hheight, foldlM_cons, checkCheckpoint_fail ((fails_congr hblocks).mpr hfails),
    twoBelow_of_le (le_refl 2) (by decide), rollback_zero E s₁ now (by omega)]
  rfl

theorem checkCheckpoint_genesis {H : Nat} (hpos : 0 < s.height)
    (h : checkCheckpoint E points true now H s p = some s') :
    s'.db.ids[0]? = s.db.ids[0]? ∧ 0 < s'.height := by
  unfold checkCheckpoint at h
  split at h
  · cases h
    exact ⟨rfl, hpos⟩
  · split at h
    · cases h
    · split at h
      · cases h
        exact ⟨rfl, hpos⟩
      · rw [if_pos rfl, Option.map_eq_some_iff] at h
        rcases h with ⟨⟨ok, s₁⟩, hroll, rfl⟩
        exact rollback_genesis hpos hroll

/-- The genesis block stays through the whole loop. -/
theorem checkpointsLoop_genesis {H : Nat} (hpos : 0 < s.height)
    (hloop : heights.foldlM (checkCheckpoint E points true now H) s = some s') :
    s'.db.ids[0]? = s.db.ids[0]? ∧ 0 < s'.height := by
  induction heights generalizing s with
  | nil =>
    cases hloop
    exact ⟨rfl, hpos⟩
  | cons h heights ih =>
    rw [foldlM_cons] at hloop
    rcases Option.bind_eq_some_iff.mp hloop with ⟨s₁, hone, hrest⟩
    have hkept := checkCheckpoint_genesis hpos hone
    have hall := ih hkept.2 hrest
    exact ⟨hall.1.trans hkept.1, hall.2⟩

end Loop

/-! ## When the checkpoints can be enforced -/

/-- No checkpoint fails; or the highest one that the chain has reached does, at height 3 or above,
    and no other. When it is at 3, one at 1 may fail too. -/
def Enforceable (points : Checkpoints) (s : Blockchain) : Prop :=
  (∀ h, ¬ Fails points s h) ∨
    ∃ p, 3 ≤ p ∧ Fails points s p ∧ (∀ h ∈ points.points, h < s.height → h ≤ p) ∧
      ∀ h, Fails points s h → h = p ∨ h = 1 ∧ p = 3

/-- Every checkpoint below the height of the chain is the id of the block there. -/
def Matches (points : Checkpoints) (s : Blockchain) : Prop :=
  ∀ h hash, points.points.lookup h = some hash → h < s.height → s.db.ids[h]? = some hash

theorem mem_heights {points : Checkpoints} {h : Nat} : h ∈ points.heights ↔ h ∈ points.points := by
  rw [Checkpoints.heights, mem_insertionSort]
  rfl

theorem heights_pairwise (points : Checkpoints) : points.heights.Pairwise (· < ·) := by
  have hsorted := pairwise_insertionSort (· ≤ ·) points.points.keys
  have hnodup : points.heights.Nodup :=
    (perm_insertionSort (· ≤ ·) points.points.keys).nodup_iff.mpr points.points.keys_nodup
  exact (hsorted.and hnodup).imp fun hab => lt_of_le_of_ne hab.1 hab.2

section Enforce

variable {E : Externals} {points : Checkpoints} {now : UInt64} {s s' : Blockchain} {p : Nat}

theorem Fails.mem (h : Fails points s p) : p ∈ points.points := by
  rcases h.2 with ⟨hash, hlookup, -⟩
  exact AList.lookup_isSome.mp (by rw [hlookup]; rfl)

/-- A checkpoint that fails is not matched by what is left of the chain, unless its block is gone.
    -/
theorem Fails.not_matches {k : Nat} (h : Fails points s p)
    (hblocks : s'.db.blocks = s.db.blocks.take k) (hlt : p < s'.height) : ¬ Matches points s' := by
  intro hmatches
  rcases h.2 with ⟨hash, hlookup, hne⟩
  exact hne ((ids_take hblocks hlt).1 ▸ hmatches p hash hlookup hlt)

/-- The checkpoints around one of them. -/
theorem heights_split (hmem : p ∈ points.points) :
    ∃ pre post, points.heights = pre ++ p :: post ∧ (∀ h ∈ pre, h < p) ∧ ∀ h ∈ post, p < h := by
  rcases append_of_mem (mem_heights.mpr hmem) with ⟨pre, post, hsplit⟩
  have hsorted := heights_pairwise points
  rw [hsplit] at hsorted
  rcases pairwise_append.mp hsorted with ⟨-, hpost, hcross⟩
  exact ⟨pre, post, hsplit, fun h hh => hcross h hh p mem_cons_self, (pairwise_cons.mp hpost).1⟩

theorem enforceable_of_matches (hwidth : s.height < 2 ^ 64)
    (hrun : s.checkAgainstCheckpoints E points true now = some s') (hmatches : Matches points s') :
    Enforceable points s := by
  classical
  -- The genesis block stays, so a checkpoint that fails there still fails at the end.
  have hgenesis : ¬ Fails points s 0 := by
    intro hfails
    have hkept := checkpointsLoop_genesis hfails.1 hrun
    rcases hfails.2 with ⟨hash, hlookup, hne⟩
    exact hne (hkept.1 ▸ hmatches 0 hash hlookup hkept.2)
  have hlow : ∀ h, ¬ 2 ≤ h → Fails points s h → h = 1 := by
    intro h hsmall hfails
    have hne : h ≠ 0 := fun hzero => hgenesis (hzero ▸ hfails)
    omega
  by_cases hex : ∃ p, 2 ≤ p ∧ Fails points s p
  · -- The lowest failing checkpoint that starts a rollback.
    set p := Nat.find hex
    have hp : 2 ≤ p ∧ Fails points s p := Nat.find_spec hex
    have hquiet : ∀ h < p, Fails points s h → h = 1 := fun h hlt hfails =>
      hlow h (fun htwo => Nat.find_min hex hlt ⟨htwo, hfails⟩) hfails
    rcases heights_split hp.2.mem with ⟨pre, post, hsplit, hpre, hpost⟩
    have hquiet' : ∀ h ∈ pre, Fails points s h → h = 1 := fun h hh => hquiet h (hpre h hh)
    unfold checkAgainstCheckpoints at hrun
    rw [hsplit] at hrun
    -- A rollback from height 2 would pop the genesis block, which throws.
    have hthree : 3 ≤ p := by
      by_contra hsmall
      have htwo : p = 2 := by omega
      rw [htwo] at hrun hp
      rw [checkpointsLoop_two E now hwidth hquiet' hp.2] at hrun
      cases hrun
    rcases checkpointsLoop_bad E now hwidth hquiet' hp.2 hthree hpost with ⟨s₁, hblocks, hloop⟩
    rw [hloop] at hrun
    split at hrun
    · cases hrun
    · rename_i hnone
      cases hrun
      have hhighest : ∀ h ∈ points.points, h < s.height → h ≤ p := by
        intro h hmem hlt
        have hin := mem_heights.mpr hmem
        rw [hsplit] at hin
        rcases mem_append.mp hin with hbefore | hafter
        · exact (hpre h hbefore).le
        · rcases mem_cons.mp hafter with rfl | hafter
          · exact le_refl _
          · exact absurd ⟨h, hafter, hlt⟩ hnone
      refine Or.inr ⟨p, hthree, hp.2, hhighest, ?_⟩
      intro h hfails
      by_cases hlt : h < p
      · have hone := hquiet h hlt hfails
        refine Or.inr ⟨hone, ?_⟩
        by_contra hne
        have hheight : s'.height = p - 2 := by
          change s'.db.blocks.length = _
          rw [hblocks, length_take]
          exact min_eq_left (by have hle := hp.2.1; change p - 2 ≤ s.height; omega)
        exact hfails.not_matches hblocks (by omega) hmatches
      · exact Or.inl (le_antisymm (hhighest h hfails.mem hfails.1) (not_lt.mp hlt))
  · -- No rollback starts, and what fails is still there at the end.
    have hquiet : ∀ h ∈ points.heights, Fails points s h → h = 1 := fun h _ hfails =>
      hlow h (fun htwo => hex ⟨h, htwo, hfails⟩) hfails
    rcases checkpointsLoop_quiet E now hwidth hquiet with ⟨s₁, hblocks, hloop⟩
    have hend := hloop []
    rw [append_nil] at hend
    have hsame : s' = s₁ := Option.some.inj (hrun.symm.trans hend)
    refine Or.inl fun h hfails => ?_
    have hlt : h < s'.height := by
      rw [hsame, height_congr hblocks]
      exact hfails.1
    refine hfails.not_matches (k := s.height) ?_ hlt hmatches
    rw [hsame, hblocks]
    exact take_length.symm

theorem matches_of_enforceable (E : Externals) (now : UInt64) (hwidth : s.height < 2 ^ 64)
    (henforceable : Enforceable points s) :
    ∃ s', s.checkAgainstCheckpoints E points true now = some s' ∧ Matches points s' := by
  unfold checkAgainstCheckpoints
  rcases henforceable with hnone | ⟨p, hthree, hfails, hhighest, honly⟩
  · rcases checkpointsLoop_quiet E now hwidth
      (fun h (_ : h ∈ points.heights) hfails => absurd hfails (hnone h)) with ⟨s', hblocks, hloop⟩
    have hend := hloop []
    rw [append_nil] at hend
    refine ⟨s', hend, ?_⟩
    intro h hash hlookup hlt
    rw [height_congr hblocks] at hlt
    rw [ids_congr hblocks]
    by_contra hne
    exact hnone h ⟨hlt, hash, hlookup, hne⟩
  · rcases heights_split hfails.mem with ⟨pre, post, hsplit, hpre, hpost⟩
    have hquiet : ∀ h ∈ pre, Fails points s h → h = 1 := by
      intro h hh hf
      have hlt := hpre h hh
      rcases honly h hf with heq | ⟨hone, -⟩
      · omega
      · exact hone
    rcases checkpointsLoop_bad E now hwidth hquiet hfails hthree hpost with ⟨s', hblocks, hloop⟩
    have hnone : ¬ ∃ h ∈ post, h < s.height := by
      intro hreached
      rcases hreached with ⟨h, hh, hlt⟩
      have hmem : h ∈ points.points := by
        rw [← mem_heights, hsplit]
        exact mem_append_right _ (mem_cons_of_mem p hh)
      have hle := hhighest h hmem hlt
      have hgt := hpost h hh
      omega
    rw [hsplit, hloop, if_neg hnone]
    refine ⟨s', rfl, ?_⟩
    intro h hash hlookup hlt
    rcases ids_take hblocks hlt with ⟨hsame, hbelow⟩
    rw [hsame]
    by_contra hne
    have hreached := hfails.1
    rcases honly h ⟨by omega, hash, hlookup, hne⟩ with heq | ⟨hone, hthree'⟩
    · omega
    · omega

end Enforce

/-- The checkpoints after a sequence of `add_checkpoint` calls. -/
def addCheckpoints (parseDifficulty : Blob → Option Difficulty) (calls : List (Nat × Blob × Blob)) :
    Checkpoints :=
  calls.foldl
    (fun c call => (c.addCheckpoint parseDifficulty call.1 call.2.1 call.2.2).2) .empty

/-- Whatever checkpoints were added, the call ends without an exception and with a chain that they
    match exactly when they can be enforced. -/
theorem checkAgainstCheckpoints_iff (E : Externals) (parseDifficulty : Blob → Option Difficulty)
    (calls : List (Nat × Blob × Blob)) (s : Blockchain) (now : UInt64)
    (hwidth : s.height < 2 ^ 64) :
    (∃ s', s.checkAgainstCheckpoints E (addCheckpoints parseDifficulty calls) true now = some s' ∧
        Matches (addCheckpoints parseDifficulty calls) s') ↔
      Enforceable (addCheckpoints parseDifficulty calls) s := by
  constructor
  · intro h
    rcases h with ⟨s', hrun, hmatches⟩
    exact enforceable_of_matches hwidth hrun hmatches
  · intro h
    exact matches_of_enforceable E now hwidth h

/-- A chain of six blocks with a wrong checkpoint at 4, which it is rolled back from. -/
theorem checkAgainstCheckpoints_iff_ramp : (rampNode 6 (by decide)).height < 2 ^ 64 ∧
      ∃ s', (rampNode 6 (by decide)).checkAgainstCheckpoints .sample
          (addCheckpoints (fun _ => none) [(4, List.replicate 64 0x30, [])]) true 0 = some s' ∧
        Matches (addCheckpoints (fun _ => none) [(4, List.replicate 64 0x30, [])]) s' := by
  have hwidth : (rampNode 6 (by decide)).height < 2 ^ 64 := by
    rw [rampNode_height]
    decide
  refine ⟨hwidth, (checkAgainstCheckpoints_iff .sample _ _ _ 0 hwidth).mpr (Or.inr ⟨4, ?_⟩)⟩
  have hkeys : (addCheckpoints (fun _ => none) [(4, replicate 64 0x30, [])]).points.keys = [4] :=
    rfl
  have honly : ∀ h ∈ (addCheckpoints (fun _ => none) [(4, replicate 64 0x30, [])]).points,
      h = 4 := by
    intro h hmem
    have hin := AList.mem_keys.mp hmem
    rw [hkeys] at hin
    exact mem_singleton.mp hin
  refine ⟨by decide, ⟨by decide, 0, rfl, ?_⟩, ?_, ?_⟩
  · decide
  · intro h hmem _
    rw [honly h hmem]
  · intro h hfails
    exact Or.inl (honly h hfails.mem)

/-- With wrong checkpoints at 3 and 4 the chain is rolled back from the first, and the second is
    looked up in what is left. -/
theorem later_checkpoint_throws : (rampNode 6 (by decide)).checkAgainstCheckpoints .sample
        (addCheckpoints (fun _ => none)
          [(3, List.replicate 64 0x30, []), (4, List.replicate 64 0x30, [])]) true 0 = none := by
  set points := addCheckpoints (fun _ => none)
    [(3, replicate 64 0x30, []), (4, replicate 64 0x30, [])]
  have hheights : points.heights = [] ++ 3 :: [4] := by decide
  have hfails : Fails points (rampNode 6 (by decide)) 3 := ⟨by decide, 0, rfl, by decide⟩
  have hwidth : (rampNode 6 (by decide)).height < 2 ^ 64 := by
    rw [rampNode_height]
    decide
  have hquiet : ∀ h ∈ [], Fails points (rampNode 6 (by decide)) h → h = 1 := fun h hmem =>
    absurd hmem (not_mem_nil)
  rcases checkpointsLoop_bad .sample 0 hwidth hquiet hfails (le_refl 3)
    (show ∀ h ∈ [4], 3 < h by decide) with ⟨s', -, hloop⟩
  unfold checkAgainstCheckpoints
  rw [hheights, hloop]
  exact if_pos ⟨4, mem_singleton_self 4, by decide⟩

end Blockchain

end CocaineNode
