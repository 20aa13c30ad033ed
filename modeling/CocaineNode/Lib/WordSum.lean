import Mathlib.Data.UInt

/-!
# Sums of 64-Bit Words

A sum kept in a 64-bit word is the sum of the numbers modulo `2^64`, and it is
the sum itself exactly when no addition along the way wraps. Two forms are used:
the total of a list, and the list of its running sums.

Running sums say more than the total. They increase strictly exactly when the
steps after the first are not zero and the total fits in a word, since a wrap
brings the next sum below the last.

## Theorems

* `toNat_foldl_add_of_lt`: The total, when it fits.
* `runningSums_isChain_lt_iff`: When running sums increase strictly.
-/

namespace WordSum

open List

variable (l : List UInt64)

/-- The total of a list of words, kept in a word. -/
theorem toNat_foldl_add (a : UInt64) :
    (l.foldl (· + ·) a).toNat = (a.toNat + (l.map UInt64.toNat).sum) % 2 ^ 64 := by
  induction l generalizing a with
  | nil =>
    exact (Nat.mod_eq_of_lt a.toNat_lt).symm
  | cons x l ih =>
    rw [foldl_cons, ih, UInt64.toNat_add, map_cons, sum_cons, Nat.mod_add_mod, Nat.add_assoc]

theorem toNat_foldl_add_of_lt (a : UInt64) (h : a.toNat + (l.map UInt64.toNat).sum < 2 ^ 64) :
    (l.foldl (· + ·) a).toNat = a.toNat + (l.map UInt64.toNat).sum := by
  rw [toNat_foldl_add, Nat.mod_eq_of_lt h]

/-- The sums of the prefixes of a list, starting from an accumulator. -/
def runningSums (acc : UInt64) : List UInt64 → List UInt64
  | [] => []
  | a :: l => (acc + a) :: runningSums (acc + a) l

/-- One addition goes up exactly when it adds something and does not wrap. -/
theorem lt_add_iff (a b : UInt64) : a < a + b ↔ b ≠ 0 ∧ a.toNat + b.toNat < 2 ^ 64 := by
  have hb := b.toNat_lt
  have hzero : b = 0 ↔ b.toNat = 0 := by
    rw [← UInt64.toNat_inj]
    rfl
  rw [UInt64.lt_iff_toNat_lt, UInt64.toNat_add, ne_eq, hzero]
  omega

/-- Running sums from an accumulator stay above it and increase exactly when every step adds
    something and the total fits in a word. -/
theorem runningSums_isChain_cons_iff (acc : UInt64) (l : List UInt64) :
    (acc :: runningSums acc l).IsChain (· < ·) ↔
      (∀ a ∈ l, a ≠ 0) ∧ acc.toNat + (l.map UInt64.toNat).sum < 2 ^ 64 := by
  induction l generalizing acc with
  | nil => simpa [runningSums] using acc.toNat_lt
  | cons a l ih =>
    rw [runningSums, isChain_cons_cons, lt_add_iff, ih]
    simp only [forall_mem_cons, map_cons, sum_cons]
    constructor
    · rintro ⟨⟨hne, hfit⟩, hrest, htotal⟩
      rw [UInt64.toNat_add, Nat.mod_eq_of_lt hfit] at htotal
      exact ⟨⟨hne, hrest⟩, by omega⟩
    · rintro ⟨⟨hne, hrest⟩, htotal⟩
      have hfit : acc.toNat + a.toNat < 2 ^ 64 := by omega
      refine ⟨⟨hne, hfit⟩, hrest, ?_⟩
      rw [UInt64.toNat_add, Nat.mod_eq_of_lt hfit]
      omega

/-- When the running sums of a list increase strictly. -/
theorem runningSums_isChain_lt_iff : (runningSums 0 l).IsChain (· < ·) ↔ (∀ a ∈ l.tail, a ≠ 0)
    ∧ (l.map UInt64.toNat).sum < 2 ^ 64 := by
  cases l with
  | nil => simp [runningSums]
  | cons a l =>
    rw [runningSums, UInt64.zero_add, runningSums_isChain_cons_iff]
    simp

end WordSum
