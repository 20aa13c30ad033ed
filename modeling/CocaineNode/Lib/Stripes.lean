import Mathlib.Order.Bounds.Basic

/-!
# Numbers Dealt out in Stripes

The natural numbers cut into runs of `size`, and the runs dealt in turn to
`count` stripes. Stripe `s` gets runs `s`, `s + count`, `s + 2 * count` and so
on. `next` is the first number of a stripe from a given one on, computed from
the run the number is in and from how often all stripes have been served.

## Theorems

* `Stripes.nextRun_isLeast`: The first run of a stripe.
* `Stripes.next_isLeast`: The first number of a stripe.
* `Stripes.leave_isLeast`: The first number of another stripe.
-/

namespace Stripes

open Nat

variable {size count s h : Nat}

/-- The stripe a number falls in. -/
def stripe (size count x : Nat) : Nat :=
  x / size % count

/-- The first run of stripe `s` after run `q`, which is of another stripe: in the round of `q` when
    the stripe is still to come there, and otherwise in the next one. -/
def nextRun (count s q : Nat) : Nat :=
  (q / count + if q % count < s then 0 else 1) * count + s

/-- The first number of stripe `s` from `h` on. -/
def next (size count s h : Nat) : Nat :=
  if stripe size count h = s then h else nextRun count s (h / size) * size

theorem nextRun_mod {q : Nat} (hs : s < count) : nextRun count s q % count = s := by
  rw [nextRun, mul_add_mod_self_right, mod_eq_of_lt hs]

theorem lt_nextRun {q : Nat} (hs : s < count) : q < nextRun count s q := by
  have hq := Nat.div_add_mod q count
  have hlt := Nat.mod_lt q (Nat.zero_lt_of_lt hs)
  unfold nextRun
  rw [Nat.mul_comm] at hq
  split
  · rw [Nat.add_zero]
    omega
  · rw [Nat.add_mul, Nat.one_mul]
    omega

/-- A run is known by its round and its stripe. -/
theorem nextRun_le {q y : Nat} (hne : q % count ≠ s) (hqy : q ≤ y) (hy : y % count = s) :
    nextRun count s q ≤ y := by
  have hrounds : q / count ≤ y / count := Nat.div_le_div_right hqy
  have hq := Nat.div_add_mod q count
  have hy' := Nat.div_add_mod y count
  rw [hy, Nat.mul_comm] at hy'
  rw [nextRun, ← hy']
  refine Nat.add_le_add_right (Nat.mul_le_mul_right count ?_) s
  split
  · exact hrounds
  · -- The stripe has been served in the round of `q`, so `y` is in a later one.
    refine Nat.lt_of_le_of_ne hrounds ?_
    intro hsame
    rw [← hsame, Nat.mul_comm] at hy'
    omega

theorem nextRun_isLeast {q : Nat} (hs : s < count) (hne : q % count ≠ s) :
    IsLeast {y | q ≤ y ∧ y % count = s} (nextRun count s q) :=
  ⟨⟨(lt_nextRun hs).le, nextRun_mod hs⟩, fun _ hy => nextRun_le hne hy.1 hy.2⟩

/-- `next` is the first number of its stripe. -/
theorem next_isLeast (hsize : 0 < size) (hs : s < count) (h : Nat) :
    IsLeast {x | h ≤ x ∧ stripe size count x = s} (next size count s h) := by
  unfold next
  split
  · rename_i hhere
    exact ⟨⟨le_refl h, hhere⟩, fun _ hx => hx.1⟩
  · rename_i hne
    have hrun := nextRun_isLeast hs hne
    refine ⟨⟨?_, ?_⟩, ?_⟩
    · have hbelow : h < (h / size + 1) * size :=
        (div_lt_iff_lt_mul hsize).mp (lt_succ_self _)
      exact hbelow.le.trans (mul_le_mul_right size (lt_nextRun hs))
    · rw [stripe, Nat.mul_div_cancel _ hsize]
      exact nextRun_mod hs
    · intro x hx
      have hx' : nextRun count s (h / size) ≤ x / size :=
        hrun.2 ⟨Nat.div_le_div_right hx.1, hx.2⟩
      exact (mul_le_mul_right size hx').trans (div_mul_le_self x size)

/-- The first number from `h` on that is not of stripe `s`. -/
def leave (size count s h : Nat) : Nat :=
  if stripe size count h = s then (h / size + 1) * size else h

theorem leave_isLeast (hsize : 0 < size) (hcount : 1 < count) (s h : Nat) :
    IsLeast {x | h ≤ x ∧ stripe size count x ≠ s} (leave size count s h) := by
  unfold leave
  split
  · rename_i hhere
    have hend : h < (h / size + 1) * size := (div_lt_iff_lt_mul hsize).mp (lt_succ_self _)
    refine ⟨⟨hend.le, ?_⟩, fun x hx => ?_⟩
    · rw [stripe, Nat.mul_div_cancel _ hsize, ← hhere]
      intro hsame
      have hzero := sub_mod_eq_zero_of_mod_eq hsame
      rw [Nat.add_sub_cancel_left, Nat.mod_eq_of_lt hcount] at hzero
      cases hzero
    · -- A number before the end is in the run of `h`.
      by_contra hlt
      have hrun : x / size ≤ h / size :=
        le_of_lt_succ ((div_lt_iff_lt_mul hsize).mpr (not_le.mp hlt))
      exact hx.2 (by rw [stripe, Nat.le_antisymm hrun (Nat.div_le_div_right hx.1)]; exact hhere)
  · rename_i hne
    exact ⟨⟨le_refl h, hne⟩, fun _ hx => hx.1⟩

/-- A stripe is left for its neighbour. -/
theorem next_neighbour (hsize : 0 < size) (hcount : 1 < count) (hhere : stripe size count h = s) :
    next size count ((s + 1) % count) h = leave size count s h := by
  have hother := leave_isLeast hsize hcount s h
  have hnext := next_isLeast hsize (mod_lt (s + 1) (zero_lt_of_lt hcount)) h
  have hstripe : stripe size count (leave size count s h) = (s + 1) % count := by
    rw [leave, if_pos hhere, ← hhere, stripe, stripe, Nat.mul_div_cancel _ hsize, Nat.mod_add_mod]
  refine le_antisymm (hnext.2 ⟨hother.1.1, hstripe⟩) (hother.2 ⟨hnext.1.1, ?_⟩)
  rw [hnext.1.2, ← hstripe]
  exact hother.1.2

end Stripes
