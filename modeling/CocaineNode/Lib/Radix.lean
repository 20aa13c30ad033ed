import Mathlib.Data.Nat.Digits.Lemmas

/-!
# Numbers Written From the Left

Mathlib reads a list of digits from the least significant one on. Text and
network order start at the other end. `bigEndian` is the number a list of
digits stands for in that order; a list of a given length with digits below
the base is determined by its number.

## Theorems

* `Radix.bigEndian_lt`: A number with `n` digits is below the `n`th power.
* `Radix.bigEndian_inj`: Digits are determined by their number and their count.
-/

namespace CocaineNode

open List

namespace Radix

/-- The number that a list of digits stands for, most significant digit first. -/
def bigEndian (b : Nat) (ds : List Nat) : Nat :=
  Nat.ofDigits b ds.reverse

@[simp] theorem bigEndian_nil (b : Nat) : bigEndian b [] = 0 :=
  rfl

theorem bigEndian_concat (b : Nat) (ds : List Nat) (d : Nat) :
    bigEndian b (ds ++ [d]) = bigEndian b ds * b + d := by
  rw [bigEndian, reverse_append, reverse_singleton, singleton_append, Nat.ofDigits_cons, bigEndian]
  exact (Nat.add_comm _ _).trans (by rw [Nat.mul_comm])

theorem bigEndian_lt {b : Nat} (hb : 1 < b) {ds : List Nat} (hds : ∀ d ∈ ds, d < b) :
    bigEndian b ds < b ^ ds.length := by
  rw [← length_reverse]
  exact Nat.ofDigits_lt_base_pow_length hb fun d hd => hds d (mem_reverse.mp hd)

theorem bigEndian_replicate_zero (b n : Nat) : bigEndian b (List.replicate n 0) = 0 := by
  rw [bigEndian, reverse_replicate]
  exact Nat.ofDigits_replicate_zero

theorem bigEndian_inj {b : Nat} (hb : 1 < b) {ds es : List Nat} (hlen : ds.length = es.length)
    (hds : ∀ d ∈ ds, d < b) (hes : ∀ e ∈ es, e < b) (h : bigEndian b ds = bigEndian b es) :
    ds = es := by
  have hreverse : ds.reverse = es.reverse :=
    Nat.ofDigits_inj_of_len_eq hb (by rw [length_reverse, length_reverse, hlen])
      (fun d hd => hds d (mem_reverse.mp hd)) (fun e he => hes e (mem_reverse.mp he)) h
  exact reverse_injective hreverse

end Radix

end CocaineNode
