import Mathlib.Algebra.Group.Nat.Defs
import Mathlib.Data.Nat.Find
import Mathlib.Data.Nat.Log

/-!
# Doubling Steps after a Dense Run

Offsets that grow by one for a while and then by 2, 4, 8 and so on. `offset`
gives them in closed form. They meet every target within a factor of two
(`first_le`), and reach it after a number of steps that is logarithmic
(`first_le_log`).

## Theorems

* `Backoff.offset_first_le`: A target is not missed by more than itself.
* `Backoff.first_le_log`: How many steps it takes.
-/

namespace Backoff

variable {dense : Nat}

/-- The offset after `i` steps, the first `dense` of which are by one. -/
def offset (dense i : Nat) : Nat :=
  if i ≤ dense then i + 1 else dense - 1 + 2 ^ (i - dense + 1)

/-- The length of step `i`. -/
def step (dense i : Nat) : Nat :=
  if i < dense then 1 else 2 ^ (i - dense + 1)

theorem offset_zero (dense : Nat) : offset dense 0 = 1 :=
  if_pos (Nat.zero_le dense)

theorem step_pos (dense i : Nat) : 0 < step dense i := by
  unfold step
  split
  · exact Nat.one_pos
  · exact Nat.two_pow_pos _

theorem lt_offset_self (dense i : Nat) : i < offset dense i := by
  have hpow : i - dense + 1 < 2 ^ (i - dense + 1) := Nat.lt_two_pow_self
  unfold offset
  split <;> omega

variable (hdense : 0 < dense)
include hdense

/-- From the end of the dense run on the second form holds. -/
theorem offset_of_le {i : Nat} (hi : dense ≤ i) :
    offset dense i = dense - 1 + 2 ^ (i - dense + 1) := by
  unfold offset
  split
  · have heq : i = dense := by omega
    rw [heq, Nat.sub_self]
    omega
  · rfl

theorem offset_succ (i : Nat) : offset dense (i + 1) = offset dense i + step dense i := by
  by_cases hi : i < dense
  · rw [offset, if_pos (Nat.succ_le_of_lt hi), offset, if_pos hi.le, step, if_pos hi]
  · have hle := Nat.not_lt.mp hi
    rw [offset_of_le hdense hle, offset_of_le hdense (hle.trans (Nat.le_succ i)), step, if_neg hi,
      show i + 1 - dense + 1 = i - dense + 1 + 1 by omega, Nat.pow_succ]
    omega

theorem offset_strictMono : StrictMono (offset dense) := by
  refine strictMono_nat_of_lt_succ fun i => ?_
  rw [offset_succ hdense]
  exact Nat.lt_add_of_pos_right (step_pos dense i)

/-- A step at most doubles the offset. -/
theorem offset_succ_le (i : Nat) : offset dense (i + 1) ≤ 2 * offset dense i := by
  have hstep : step dense i ≤ offset dense i := by
    unfold step
    split
    · rw [← offset_zero dense]
      exact (offset_strictMono hdense).monotone (Nat.zero_le i)
    · rename_i hi
      rw [offset_of_le hdense (Nat.not_lt.mp hi)]
      exact Nat.le_add_left _ _
  rw [offset_succ hdense]
  omega

variable (n : Nat)

theorem lt_offset : n < offset dense (dense + Nat.log 2 n) := by
  have hlog : n < 2 ^ (Nat.log 2 n + 1) := Nat.lt_pow_succ_log_self Nat.one_lt_two n
  rw [offset_of_le hdense (Nat.le_add_right _ _), Nat.add_sub_cancel_left]
  omega

theorem exists_le_offset : ∃ i, n ≤ offset dense i :=
  ⟨_, (lt_offset hdense n).le⟩

/-- The first step at which the offset has reached `n`. -/
def first (hdense : 0 < dense) (n : Nat) : Nat :=
  Nat.find (exists_le_offset hdense n)

theorem le_offset_first : n ≤ offset dense (first hdense n) :=
  Nat.find_spec (exists_le_offset hdense n)

theorem offset_lt_of_lt_first {n i : Nat} (hi : i < first hdense n) : offset dense i < n :=
  Nat.not_le.mp (Nat.find_min (exists_le_offset hdense n) hi)

theorem first_le_log : first hdense n ≤ dense + Nat.log 2 n :=
  Nat.find_min' _ (lt_offset hdense n).le

/-- A target is not missed by more than itself: the step that reached it was no longer than the way
    before it. -/
theorem offset_first_le {n : Nat} (hn : 0 < n) : offset dense (first hdense n) ≤ 2 * n - 1 := by
  cases hfirst : first hdense n with
  | zero =>
    rw [offset_zero]
    omega
  | succ i =>
    have hbefore : offset dense i < n := offset_lt_of_lt_first hdense (by omega)
    have hdouble := offset_succ_le hdense i
    omega

end Backoff
