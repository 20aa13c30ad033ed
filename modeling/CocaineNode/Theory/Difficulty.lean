import CocaineNode.Core.AltChain

/-!
# The Work of a Chain

What the difficulty rule computes, apart from how a node stores it. The work of
a chain is a function of its timestamps alone: each block is worth the
difficulty of the chain below it, which comes from a window of the last blocks.
`chainWork` is that function, for a given block-time target.

The two targets of the source give the same difficulty only in degenerate
windows. `TargetFree` spells them out: a window of at most one block, no work,
a time span so long that both difficulties are 1, or a result that overflows
either way. Two chains of the same timestamps that were worked out under the
two targets have windows of different work, and agree when these round up to the
same multiple of the time span (`SameRounding`).

## Theorems

* `nextWork_eq_iff`: When the targets agree on a chain.
* `nextWork_eq_nextWork_iff`: When they agree on two chains.
-/

namespace CocaineNode

open List Nat

open Blockchain (windowBlocks)

/-! ## Windows -/

section Window

variable {α β : Type}

theorem windowBlocks_map (f : α → β) (l : List α) :
    windowBlocks (l.map f) = (windowBlocks l).map f := by
  simp only [windowBlocks, length_map, map_drop]

variable (l : List α)

theorem windowBlocks_eq : windowBlocks l = l.drop (max 1 (l.length - 735)) := by
  simp only [windowBlocks, show difficultyBlocksCount = 735 from rfl]
  refine congrArg l.drop ?_
  split <;> omega

theorem length_windowBlocks :
    (windowBlocks l).length = min (l.length - 1) difficultyBlocksCount := by
  rw [windowBlocks_eq, length_drop, show difficultyBlocksCount = 735 from rfl]
  omega

/-- A window moves by one block when the chain does, and grows until it is full. Only the genesis
    block stays out. -/
theorem windowBlocks_concat (x : α) (hne : l ≠ []) : windowBlocks (l ++ [x]) =
      (windowBlocks l ++ [x]).drop ((windowBlocks l ++ [x]).length - difficultyBlocksCount) := by
  have hpos := List.length_pos_iff.mpr hne
  rw [windowBlocks_eq l, ← drop_append_of_le_length (by omega), windowBlocks_eq,
    drop_drop, length_drop, length_append, length_singleton,
    show difficultyBlocksCount = 735 from rfl]
  exact congrArg (l ++ [x]).drop (by omega)

end Window

/-! ## Work -/

/-- The difficulty of the next block of a chain, given as timestamps and cumulative work. -/
def nextWork (target : Nat) (l : List (UInt64 × Difficulty)) : Difficulty :=
  Difficulty.nextDifficulty ((windowBlocks l).map Prod.fst) ((windowBlocks l).map Prod.snd)
    target

/-- The cumulative work of the last block. -/
def lastWork (l : List (UInt64 × Difficulty)) : Difficulty :=
  (l.getLast?.map Prod.snd).getD 0

/-! ## The two targets -/

/-- A rounded-up quotient that does not change when the dividend doubles. -/
theorem ceilDiv_double_iff (n d : Nat) (hd : 0 < d) :
    (n + d - 1) / d = (2 * n + d - 1) / d ↔ n = 0 ∨ 2 * n ≤ d := by
  constructor
  · intro h
    by_contra hne
    rw [not_or, not_le] at hne
    rcases hne with ⟨hn, hlt⟩
    -- With `c` the quotient, `n` is above `(c - 1) * d`, and doubling it passes `c * d`.
    set c := (n + d - 1) / d with hc
    have hlow : c * d ≤ n + d - 1 := div_mul_le_self _ _
    have hhigh : n + d - 1 < (c + 1) * d := lt_mul_of_div_lt (lt_succ_self c) hd
    have hdouble : 2 * n + d - 1 < (c + 1) * d := by
      rw [h]
      exact lt_mul_of_div_lt (lt_succ_self _) hd
    rw [add_mul, one_mul] at hdouble hhigh
    have hcpos : 0 < c := by
      exact div_pos (by omega) hd
    rcases lt_or_ge c 2 with hsmall | hbig
    · have hone : c = 1 := by omega
      rw [hone] at hdouble
      omega
    · have htwo : 2 * d ≤ c * d := mul_le_mul_right d hbig
      omega
  · rintro (rfl | hle)
    · rfl
    · rcases Nat.eq_zero_or_pos n with rfl | hn
      · rfl
      · rw [Nat.div_eq_of_lt_le (k := 1) (by omega) (by omega),
          Nat.div_eq_of_lt_le (k := 1) (by omega) (by omega)]

theorem timeSpan_pos (timestamps : List UInt64) : 0 < (Difficulty.timeSpan timestamps).toNat := by
  simp only [Difficulty.timeSpan]
  split
  · decide
  · rename_i hne
    exact Nat.pos_of_ne_zero fun h0 => hne (UInt64.toNat_inj.mp h0)

theorem retarget_of_quotient {work : Difficulty} {span : UInt64} {target n : Nat}
    (h : (work.toNat * target + span.toNat - 1) / span.toNat = n) :
    Difficulty.retarget work span target = if n > 2 ^ 128 - 1 then 0 else BitVec.ofNat 128 n := by
  subst h
  rfl

/-- Two results with overflow to 0 are the same when they are equal, or both are 0 or overflow. -/
theorem overflow_eq_iff (a b : Nat) :
    ((if a > 2 ^ 128 - 1 then 0 else BitVec.ofNat 128 a) =
        if b > 2 ^ 128 - 1 then 0 else BitVec.ofNat 128 b) ↔
      a = b ∨ (a = 0 ∨ 2 ^ 128 ≤ a) ∧ (b = 0 ∨ 2 ^ 128 ≤ b) := by
  have hvalue : ∀ n : Nat, (if n > 2 ^ 128 - 1 then 0 else BitVec.ofNat 128 n).toNat =
      if n > 2 ^ 128 - 1 then 0 else n := by
    intro n
    split
    · rfl
    · rw [BitVec.toNat_ofNat, mod_eq_of_lt (by omega)]
  rw [← BitVec.toNat_inj, hvalue, hvalue]
  split <;> split <;> omega

/-- The two targets give the same difficulty exactly when there is no work, when both round up
    to 1, or when both overflow. -/
theorem retarget_eq_iff (work : Difficulty) (span : UInt64) (hspan : 0 < span.toNat) :
    Difficulty.retarget work span difficultyTargetV1 =
        Difficulty.retarget work span difficultyTargetV2 ↔
      work.toNat = 0 ∨ 120 * work.toNat ≤ span.toNat ∨
        2 ^ 128 * span.toNat ≤ 60 * work.toNat + span.toNat - 1 := by
  set n := 60 * work.toNat with hn
  have hV1 : (work.toNat * difficultyTargetV1 + span.toNat - 1) / span.toNat =
      (n + span.toNat - 1) / span.toNat := by
    rw [hn, mul_comm]
    rfl
  have hV2 : (work.toNat * difficultyTargetV2 + span.toNat - 1) / span.toNat =
      (2 * n + span.toNat - 1) / span.toNat := by
    rw [show 2 * n = work.toNat * difficultyTargetV2 by
      rw [hn, difficultyTargetV2]
      omega]
  have hmono : (n + span.toNat - 1) / span.toNat ≤ (2 * n + span.toNat - 1) / span.toNat :=
    Nat.div_le_div_right (by omega)
  have hzero : (n + span.toNat - 1) / span.toNat = 0 →
      (2 * n + span.toNat - 1) / span.toNat = 0 := by
    intro h0
    rw [Nat.div_eq_zero_iff] at h0 ⊢
    omega
  have hover : (n + span.toNat - 1) / span.toNat > 2 ^ 128 - 1 ↔
      2 ^ 128 * span.toNat ≤ n + span.toNat - 1 := by
    rw [gt_iff_lt, lt_iff_add_one_le, le_div_iff_mul_le hspan]
    rfl
  have hequal := ceilDiv_double_iff n span.toNat hspan
  rw [retarget_of_quotient hV1, retarget_of_quotient hV2, overflow_eq_iff]
  -- The larger quotient overflows with the smaller one, and is 0 with it.
  generalize (n + span.toNat - 1) / span.toNat = a at hmono hzero hover hequal
  generalize (2 * n + span.toNat - 1) / span.toNat = b at hmono hzero hequal
  omega

/-- The window of a chain does not tell a target of 60 seconds from one of 120. -/
def TargetFree (l : List (UInt64 × Difficulty)) : Prop :=
  let timestamps := ((windowBlocks l).map Prod.fst).take difficultyWindow
  let work := (Difficulty.totalWork (((windowBlocks l).map Prod.snd).take difficultyWindow)).toNat
  let span := (Difficulty.timeSpan timestamps).toNat
  timestamps.length ≤ 1 ∨ work = 0 ∨ 120 * work ≤ span ∨ 2 ^ 128 * span ≤ 60 * work + span - 1

theorem nextWork_eq_iff (l : List (UInt64 × Difficulty)) :
    nextWork difficultyTargetV1 l = nextWork difficultyTargetV2 l ↔ TargetFree l := by
  simp only [nextWork, Difficulty.nextDifficulty, TargetFree]
  set timestamps := ((windowBlocks l).map Prod.fst).take difficultyWindow
  set work := Difficulty.totalWork (((windowBlocks l).map Prod.snd).take difficultyWindow)
  by_cases hshort : timestamps.length ≤ 1
  · simp [hshort]
  · rw [if_neg hshort, if_neg hshort, retarget_eq_iff work _ (timeSpan_pos timestamps)]
    simp only [hshort, false_or]

/-! ## Two chains -/

/-- Two amounts, over the same time, round up to the same difficulty: the same multiple of the time
    is the first one that is not below them, or both are 0 or past 128 bits. -/
def SameRounding (span a b : Nat) : Prop :=
  (∃ q, (a ≤ q * span ∧ q * span < a + span) ∧ b ≤ q * span ∧ q * span < b + span) ∨
    (a = 0 ∨ (2 ^ 128 - 1) * span < a) ∧ (b = 0 ∨ (2 ^ 128 - 1) * span < b)

theorem sameRounding_iff {span : Nat} (hspan : 0 < span) (a b : Nat) :
    SameRounding span a b ↔ (a + span - 1) / span = (b + span - 1) / span ∨
      ((a + span - 1) / span = 0 ∨ 2 ^ 128 ≤ (a + span - 1) / span) ∧
      ((b + span - 1) / span = 0 ∨ 2 ^ 128 ≤ (b + span - 1) / span) := by
  have hround : ∀ n q, (n + span - 1) / span = q ↔ n ≤ q * span ∧ q * span < n + span := by
    intro n q
    rw [Nat.div_eq_iff hspan]
    omega
  have hbig : ∀ n, 2 ^ 128 ≤ (n + span - 1) / span ↔ (2 ^ 128 - 1) * span < n := by
    intro n
    rw [le_div_iff_mul_le hspan]
    omega
  have hzero : ∀ n, (n + span - 1) / span = 0 ↔ n = 0 := by
    intro n
    rw [hround]
    omega
  rw [SameRounding, hbig, hbig, hzero, hzero]
  refine or_congr ⟨?_, fun heq => ⟨_, (hround a _).mp rfl, (hround b _).mp heq.symm⟩⟩ Iff.rfl
  rintro ⟨q, ha, hb⟩
  exact ((hround a q).mpr ha).trans ((hround b q).mpr hb).symm

/-- Two chains of the same timestamps, the first of which goes by 60 seconds and the second by 120,
    ask for the same difficulty exactly when their windows have at most one block, or the work in
    them rounds to the same difficulty over the time they took. -/
theorem nextWork_eq_nextWork_iff {side main : List (UInt64 × Difficulty)}
    (h : side.map Prod.fst = main.map Prod.fst) :
    nextWork difficultyTargetV1 side = nextWork difficultyTargetV2 main ↔
      (windowBlocks main).length ≤ 1 ∨
      SameRounding
        (Difficulty.timeSpan (((windowBlocks main).map Prod.fst).take difficultyWindow)).toNat
        (60 * (Difficulty.totalWork
          (((windowBlocks side).map Prod.snd).take difficultyWindow)).toNat)
        (120 * (Difficulty.totalWork
          (((windowBlocks main).map Prod.snd).take difficultyWindow)).toNat) := by
  have htimes : (windowBlocks side).map Prod.fst = (windowBlocks main).map Prod.fst := by
    rw [← windowBlocks_map, ← windowBlocks_map, h]
  have hshort : (((windowBlocks main).map Prod.fst).take difficultyWindow).length ≤ 1 ↔
      (windowBlocks main).length ≤ 1 := by
    rw [length_take, length_map, show difficultyWindow = 720 from rfl]
    omega
  simp only [nextWork, Difficulty.nextDifficulty, htimes, hshort]
  by_cases hone : (windowBlocks main).length ≤ 1
  · simp [hone]
  · rw [if_neg hone, if_neg hone, sameRounding_iff (timeSpan_pos _), ← overflow_eq_iff]
    simp only [hone, false_or, Difficulty.retarget, Nat.mul_comm _ difficultyTargetV1,
      Nat.mul_comm _ difficultyTargetV2]
    rfl

end CocaineNode
