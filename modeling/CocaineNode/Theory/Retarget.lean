import CocaineNode.Theory.Reward
import Mathlib.Algebra.Order.Floor.Div
import Mathlib.Data.List.GetD

/-!
# The Next Difficulty in Numbers

`next_difficulty` sorts the timestamps of a window, cuts off the outliers, and
divides the work of what is left by its time. On lists of one length, with
difficulties that grow, all its reads are inside the lists, neither of its
differences wraps, and its quotient is the one of the numbers, rounded up.
`next_difficulty_64` gives up where a word is too short, and agrees otherwise.

## Theorems

* `Difficulty.cutRange_spec`: The cut is inside the window and has two ends.
* `Difficulty.nextDifficulty_exact`: The next difficulty in numbers.
-/

namespace CocaineNode

open List Nat

namespace Difficulty

/-! ## The cut -/

theorem cutRange_spec {n : Nat} (h : 1 < n) :
    (cutRange n).1 + 2 ≤ (cutRange n).2 ∧ (cutRange n).2 ≤ n := by
  have hkept : difficultyWindow - 2 * difficultyCut = 600 := rfl
  rw [cutRange, hkept]
  split
  · exact ⟨h, le_refl n⟩
  · dsimp only
    omega

/-- The 600 entries in the middle of a list, or all there are. Of an odd number of others the
    beginning loses one more than the end. -/
def middle {α : Type} (l : List α) : List α :=
  let others := l.length - 600
  (l.take (l.length - others / 2)).drop ((others + 1) / 2)

/-- What the last entry has over the first one. -/
def endToEnd {α : Type} (value : α → Nat) (l : List α) : Nat :=
  l.getLast?.elim 0 value - l.head?.elim 0 value

/-- The time the middle of the window took, with the timestamps in order. -/
def cutSpan (timestamps : List UInt64) : Nat :=
  endToEnd UInt64.toNat (middle (timestamps.insertionSort (· ≤ ·)))

/-- The work in the middle of the window. -/
def cutWork (difficulties : List Difficulty) : Nat :=
  endToEnd BitVec.toNat (middle difficulties)

/-- The cut reads the ends of the middle. -/
theorem endToEnd_middle {α : Type} (value : α → Nat) (l : List α) (d : α) (h : 1 < l.length) :
    endToEnd value (middle l) = value (l.getD ((cutRange l.length).2 - 1) d) -
      value (l.getD (cutRange l.length).1 d) := by
  have hcut : cutRange l.length =
      ((l.length - 600 + 1) / 2, l.length - (l.length - 600) / 2) := by
    have hkept : difficultyWindow - 2 * difficultyCut = 600 := rfl
    rw [cutRange, hkept]
    split
    · rw [Prod.mk.injEq]
      omega
    · dsimp only
      rw [Prod.mk.injEq]
      omega
  have hlen : (middle l).length = l.length - (l.length - 600) := by
    simp only [middle, length_drop, length_take]
    omega
  have hget : ∀ i, i < (middle l).length →
      (middle l)[i]? = some (l.getD ((cutRange l.length).1 + i) d) := by
    intro i hi
    rw [hcut, middle, getElem?_drop, getElem?_take_of_lt (by omega), getD_eq_getElem?_getD,
      getElem?_eq_getElem (by omega), Option.getD_some]
  have hlast : (middle l).length - 1 + (cutRange l.length).1 = (cutRange l.length).2 - 1 := by
    rw [hlen, hcut]
    dsimp only
    omega
  rw [endToEnd, getLast?_eq_getElem?, head?_eq_getElem?, hget _ (by omega), hget 0 (by omega),
    Nat.add_comm, hlast]
  rfl

section Window

variable {times : List UInt64} {works : List Difficulty}

theorem rel_getD_of_pairwise {α : Type} {r : α → α → Prop} {l : List α} (h : l.Pairwise r) (d : α)
    {i j : Nat} (hij : i < j) (hj : j < l.length) : r (l.getD i d) (l.getD j d) := by
  rw [getD_eq_getElem _ _ (hij.trans hj), getD_eq_getElem _ _ hj]
  exact pairwise_iff_getElem.mp h i j _ _ hij

theorem timeSpan_toNat (h : 1 < times.length) : (timeSpan times).toNat = max 1 (cutSpan times) := by
  have hcut := cutRange_spec h
  have hle := rel_getD_of_pairwise (pairwise_insertionSort (· ≤ ·) times) 0
    (show (cutRange times.length).1 < (cutRange times.length).2 - 1 by omega)
    (by rw [length_insertionSort]; omega)
  rw [cutSpan, endToEnd_middle _ _ 0 (by rwa [length_insertionSort]), length_insertionSort,
    ← UInt64.toNat_sub_of_le _ _ hle]
  simp only [timeSpan]
  split
  · rename_i hzero
    rw [hzero]
    rfl
  · rename_i hpos
    exact (max_eq_right (pos_of_ne_zero fun h => hpos (UInt64.toNat_inj.mp h))).symm

theorem totalWork_toNat (hmono : works.Pairwise (· < ·)) (h : 1 < works.length) :
    (totalWork works).toNat = cutWork works ∧ 0 < cutWork works := by
  have hcut := cutRange_spec h
  have hlt := rel_getD_of_pairwise hmono 0
    (show (cutRange works.length).1 < (cutRange works.length).2 - 1 by omega) (by omega)
  rw [cutWork, endToEnd_middle _ _ 0 h]
  exact ⟨BitVec.toNat_sub_of_le (BitVec.le_of_lt hlt), Nat.sub_pos_of_lt (BitVec.lt_def.mp hlt)⟩

/-! ## The quotient -/

theorem retarget_toNat (work : Difficulty) (span : UInt64) (target : Nat) :
    (retarget work span target).toNat =
      if (work.toNat * target) ⌈/⌉ span.toNat ≤ 2 ^ 128 - 1
        then (work.toNat * target) ⌈/⌉ span.toNat
      else 0 := by
  have hceil : (work.toNat * target + span.toNat - 1) / span.toNat =
      (work.toNat * target) ⌈/⌉ span.toNat := (ceilDiv_eq_add_pred_div _ _).symm
  rw [retarget, hceil]
  by_cases hfits : (work.toNat * target) ⌈/⌉ span.toNat ≤ 2 ^ 128 - 1
  · rw [if_neg (not_lt.mpr hfits), if_pos hfits, BitVec.toNat_ofNat]
    exact mod_eq_of_lt (by omega)
  · rw [if_pos (Nat.lt_of_not_le hfits), if_neg hfits]
    rfl

theorem ceilDiv_pos {a b : Nat} (ha : 0 < a) (hb : 0 < b) : 1 ≤ a ⌈/⌉ b := by
  rw [ceilDiv_eq_add_pred_div]
  exact div_pos (by omega) hb

end Window

/-- A product and a sum that fit a word are divided as numbers are. -/
theorem quotient64_toNat {work target span : UInt64} (hspan : 0 < span.toNat)
    (h : ¬ ((mul work target).2 ≠ 0 ∨ (mul work target).1 + span - 1 < (mul work target).1)) :
    (((mul work target).1 + span - 1) / span).toNat =
    (work.toNat * target.toNat) ⌈/⌉ span.toNat := by
  rw [not_or, not_not, UInt64.lt_iff_toNat_lt] at h
  have hproduct := mul_toNat work target
  rw [h.1, UInt64.toNat_zero, zero_mul, zero_add] at hproduct
  have hsum : ((mul work target).1 + span - 1).toNat =
      (mul work target).1.toNat + span.toNat - 1 := by
    have hone : (1 : UInt64).toNat = 1 := rfl
    have hlt := span.toNat_lt
    have hsub : ((mul work target).1 + span - 1).toNat =
        (2 ^ 64 - 1 + ((mul work target).1.toNat + span.toNat) % 2 ^ 64) % 2 ^ 64 := by
      rw [UInt64.toNat_sub, UInt64.toNat_add, hone]
    omega
  rw [UInt64.toNat_div, hsum, hproduct, ceilDiv_eq_add_pred_div]

theorem getD_map_ofNat (small : List UInt64) (i : Nat) :
    ((small.map fun d => BitVec.ofNat 128 d.toNat).getD i 0).toNat = (small.getD i 0).toNat := by
  simp only [getD_eq_getElem?_getD, getElem?_map]
  cases small[i]? with
  | none => rfl
  | some d =>
    have hlt := d.toNat_lt
    simp only [Option.map_some, Option.getD_some, BitVec.toNat_ofNat]
    omega

/-- The last part of `next_difficulty_64`, on a window. -/
theorem next64_toNat {times : List UInt64} (h : 1 < times.length) (small : List UInt64)
    (hmono : (small.map fun d => BitVec.ofNat 128 d.toNat).Pairwise (· < ·))
    (hlen : times.length = (small.map fun d => BitVec.ofNat 128 d.toNat).length) (target : UInt64) :
    let cut := cutRange times.length
    let product := mul (small.getD (cut.2 - 1) 0 - small.getD cut.1 0) target
    let next := if product.2 ≠ 0 ∨ product.1 + timeSpan times - 1 < product.1 then 0
      else (product.1 + timeSpan times - 1) / timeSpan times
    next ≠ 0 → next.toNat =
      (cutWork (small.map fun d => BitVec.ofNat 128 d.toNat) * target.toNat) ⌈/⌉
      max 1 (cutSpan times) := by
  intro cut product next hnext
  have hcut : cut.1 + 2 ≤ cut.2 ∧ cut.2 ≤ times.length := cutRange_spec h
  have hlt := rel_getD_of_pairwise hmono 0 (show cut.1 < cut.2 - 1 by omega) (by omega)
  rw [BitVec.lt_def, getD_map_ofNat, getD_map_ofNat] at hlt
  have hwork : (small.getD (cut.2 - 1) 0 - small.getD cut.1 0).toNat =
      cutWork (small.map fun d => BitVec.ofNat 128 d.toNat) := by
    rw [UInt64.toNat_sub_of_le _ _ (UInt64.le_iff_toNat_le.mpr hlt.le)]
    rw [cutWork, endToEnd_middle _ _ 0 (hlen ▸ h), ← hlen, getD_map_ofNat, getD_map_ofNat]
  have hspan := timeSpan_toNat h
  have hfits : ¬ (product.2 ≠ 0 ∨ product.1 + timeSpan times - 1 < product.1) := by
    intro hover
    exact hnext (if_pos hover)
  have hvalue : next = (product.1 + timeSpan times - 1) / timeSpan times := if_neg hfits
  rw [hvalue, quotient64_toNat (by omega) hfits, hwork, hspan]

/-- All reads of the window are inside it, and the time is not 0. -/
theorem nextDifficulty?_eq {timestamps : List UInt64} {difficulties : List Difficulty}
    (hlen : timestamps.length = difficulties.length) (target : Nat) :
    nextDifficulty? timestamps difficulties target =
      some (nextDifficulty timestamps difficulties target) := by
  simp only [nextDifficulty?, nextDifficulty]
  have hlen' : (timestamps.take difficultyWindow).length =
      (difficulties.take difficultyWindow).length := by
    rw [length_take, length_take, hlen]
  generalize timestamps.take difficultyWindow = times at hlen' ⊢
  generalize difficulties.take difficultyWindow = works at hlen' ⊢
  split
  · rfl
  · rename_i hlong
    have hcut := cutRange_spec (Nat.lt_of_not_le hlong)
    have hsorted := length_insertionSort (· ≤ ·) times
    simp (disch := omega) only [timeSpan, totalWork, ← hlen', getElem?_eq_getElem, getD_eq_getElem,
      Option.bind_eq_bind, Option.bind_some]
    rw [if_neg]
    split
    · exact (by decide : (1 : UInt64) ≠ 0)
    · assumption

/-- On lists of one length, with difficulties that grow, `next_difficulty` reads inside its lists
    and divides by a time that is not 0. Its value is the work of the cut window times the target
    over the time, rounded up, and 0 past 128 bits. It is the value of `next_difficulty_64`, unless
    that gives up. -/
theorem nextDifficulty_exact (timestamps : List UInt64) (difficulties : List Difficulty)
    (target : UInt64) (hlen : timestamps.length = difficulties.length)
    (hmono : difficulties.Pairwise (· < ·)) (htarget : 0 < target) :
    let quotient := (cutWork (difficulties.take difficultyWindow) * target.toNat) ⌈/⌉
      max 1 (cutSpan (timestamps.take difficultyWindow))
    let next := nextDifficulty timestamps difficulties target.toNat
    nextDifficulty? timestamps difficulties target.toNat = some next ∧
      (timestamps.length ≤ 1 → next = 1) ∧
      (1 < timestamps.length →
        1 ≤ quotient ∧ next.toNat = if quotient ≤ 2 ^ 128 - 1 then quotient else 0) ∧
      ∀ small : List UInt64, difficulties = small.map (fun d => BitVec.ofNat 128 d.toNat) →
        nextDifficulty64 timestamps small target ≠ 0 →
          next.toNat = (nextDifficulty64 timestamps small target).toNat := by
  intro quotient next
  set times := timestamps.take difficultyWindow with htimes
  set works := difficulties.take difficultyWindow with hworks
  have hwindow : difficultyWindow = 720 := rfl
  have hcount : times.length = works.length := by
    rw [htimes, hworks, length_take, length_take, hlen]
  have hone : times.length ≤ 1 ↔ timestamps.length ≤ 1 := by
    rw [htimes, length_take]
    omega
  have hexact : 1 < timestamps.length →
      1 ≤ quotient ∧ next.toNat = if quotient ≤ 2 ^ 128 - 1 then quotient else 0 := by
    intro hlong
    have hlong' : 1 < times.length := by omega
    have hwork := totalWork_toNat (hmono.sublist (take_sublist _ _)) (hcount ▸ hlong')
    have hpos : 0 < cutWork works * target.toNat := mul_pos hwork.2 htarget
    refine ⟨ceilDiv_pos hpos (lt_of_lt_of_le one_pos (le_max_left _ _)), ?_⟩
    have hnext : next = retarget (totalWork works) (timeSpan times) target.toNat :=
      if_neg (not_le.mpr hlong')
    rw [hnext, retarget_toNat, hwork.1, timeSpan_toNat hlong']
  refine ⟨nextDifficulty?_eq hlen _, fun hshort => if_pos (hone.mpr hshort), hexact, ?_⟩
  intro small hsmall hnonzero
  by_cases hshort : timestamps.length ≤ 1
  · rw [show next = 1 from if_pos (hone.mpr hshort), nextDifficulty64, if_pos (hone.mpr hshort)]
    rfl
  · have hlong : 1 < times.length := by omega
    have hquotient := next64_toNat hlong (small.take difficultyWindow)
      (by rw [map_take, ← hsmall]; exact hmono.sublist (take_sublist _ _))
      (by rw [map_take, ← hsmall]; exact hcount) target
    rw [map_take, ← hsmall] at hquotient
    have hvalue : (nextDifficulty64 timestamps small target).toNat = quotient := by
      rw [nextDifficulty64, if_neg (not_le.mpr hlong)] at hnonzero ⊢
      exact hquotient hnonzero
    have hlt := (nextDifficulty64 timestamps small target).toNat_lt
    rw [(hexact (Nat.lt_of_not_le hshort)).2, if_pos (by omega), hvalue]

/-- 700 blocks, a hundred seconds apart, each two of them in the wrong order. The difficulty of a
    block grows with its height. -/
theorem nextDifficulty_exact_long :
    let times := (range 700).map fun i => UInt64.ofNat (100 * (i ^^^ 1))
    let works := (range 700).map fun i => BitVec.ofNat 128 (i * i)
    nextDifficulty? times works 120 = some 839 := by
  intro times works
  have hmono : works.Pairwise (· < ·) := by
    refine pairwise_map.mpr (pairwise_lt_range.imp_of_mem fun {i j} _ hj hij => ?_)
    have hj : j < 700 := mem_range.mp hj
    have hsquares : i * i < j * j := Nat.mul_self_lt_mul_self hij
    have hbound : j * j < 700 * 700 := Nat.mul_self_lt_mul_self hj
    rw [BitVec.lt_def, BitVec.toNat_ofNat, BitVec.toNat_ofNat, mod_eq_of_lt (by omega),
      mod_eq_of_lt (by omega)]
    exact hsquares
  have hwork : cutWork (works.take difficultyWindow) = 649 * 649 - 50 * 50 := by decide +kernel
  have hspan : cutSpan (times.take difficultyWindow) = 59900 := by decide +kernel
  have htarget : (120 : UInt64).toNat = 120 := rfl
  rcases nextDifficulty_exact times works 120 (by simp [times, works]) hmono (by decide) with
    ⟨hreads, -, hlong, -⟩
  rw [htarget] at hreads hlong
  have hnext := (hlong (by simp [times])).2
  rw [hwork, hspan, ceilDiv_eq_add_pred_div] at hnext
  rw [hreads]
  exact congrArg some (BitVec.eq_of_toNat_eq (y := 839) hnext)

end Difficulty

end CocaineNode
