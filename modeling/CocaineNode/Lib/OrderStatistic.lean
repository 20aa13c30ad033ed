import Mathlib.Data.List.Sort

/-!
# Items in Order

Where an item stands in a sorted list, told from the items on either side of
it. A list that is split into lower items, one item and higher items has that
item at the place that the lower ones leave.

## Theorems

* `OrderStatistic.getD_sorted`: The item between lower and higher ones.
* `OrderStatistic.getD_sorted_pred`: The largest of the lower ones is just before it.
-/

namespace CocaineNode

open List

namespace OrderStatistic

variable {α : Type} [LinearOrder α] {xs lows highs : List α}

section

variable {x : α} (hperm : xs.Perm (lows ++ x :: highs)) (hlow : ∀ a ∈ lows, a ≤ x)
  (hhigh : ∀ b ∈ highs, x ≤ b)
include x hperm hlow hhigh

theorem sorted_split :
    xs.insertionSort (· ≤ ·) = lows.insertionSort (· ≤ ·) ++ x :: highs.insertionSort (· ≤ ·) := by
  have hsorted : (xs.insertionSort (· ≤ ·)).Pairwise (· ≤ ·) := pairwise_insertionSort _ xs
  have hparts : (lows.insertionSort (· ≤ ·) ++ x :: highs.insertionSort (· ≤ ·)).Pairwise
      (· ≤ ·) := by
    rw [pairwise_append, pairwise_cons]
    refine ⟨pairwise_insertionSort _ lows, ⟨?_, pairwise_insertionSort _ highs⟩, ?_⟩
    · intro b hb
      exact hhigh b ((mem_insertionSort _).mp hb)
    · intro a ha b hb
      have hax : a ≤ x := hlow a ((mem_insertionSort _).mp ha)
      rcases mem_cons.mp hb with rfl | hb
      · exact hax
      · exact hax.trans (hhigh b ((mem_insertionSort _).mp hb))
  have hsame : (xs.insertionSort (· ≤ ·)).Perm
      (lows.insertionSort (· ≤ ·) ++ x :: highs.insertionSort (· ≤ ·)) := by
    refine (perm_insertionSort _ xs).trans (hperm.trans ?_)
    exact ((perm_insertionSort _ lows).symm).append
      ((perm_insertionSort _ highs).symm.cons x)
  exact hsame.eq_of_pairwise' hsorted hparts

/-- The item between lower and higher ones. -/
theorem getD_sorted (d : α) : (xs.insertionSort (· ≤ ·)).getD lows.length d = x := by
  rw [sorted_split hperm hlow hhigh, getD_eq_getElem?_getD,
    getElem?_append_right (by rw [length_insertionSort]), length_insertionSort,
    Nat.sub_self]
  rfl

end

/-- The largest of the lower items is just before it. -/
theorem getD_sorted_pred {x y : α}
    (hperm : xs.Perm (y :: lows ++ x :: highs)) (hlow : ∀ a ∈ lows, a ≤ y) (hyx : y ≤ x)
    (hhigh : ∀ b ∈ highs, x ≤ b) (d : α) : (xs.insertionSort (· ≤ ·)).getD lows.length d = y := by
  have hmoved : xs.Perm (lows ++ y :: x :: highs) := hperm.trans perm_middle.symm
  exact getD_sorted hmoved hlow (forall_mem_cons.mpr ⟨hyx, fun b hb => hyx.trans (hhigh b hb)⟩) d

end OrderStatistic

end CocaineNode
