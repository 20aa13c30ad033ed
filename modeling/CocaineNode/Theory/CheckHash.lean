import CocaineNode.Theory.Reward

/-!
# Hashes Against a Difficulty

A hash passes when its number times the difficulty stays below `2²⁵⁶`. The
source multiplies word by word when the difficulty fits a word, with a product
of two words that it has in two versions, and follows the carries by hand. For
a larger difficulty it multiplies wide integers.

Both versions give the two words of the product (`mul128_eq`,
`portableMul_eq`), and a carry is what a sum of words is over one word
(`cadc_toNat`).

## Theorems

* `Difficulty.hashValue_eq`: A hash is four words.
* `Difficulty.checkHash_iff`: When a hash passes, on every path.
-/

namespace CocaineNode

open Nat

namespace Difficulty

/-! ## Products of words -/

theorem toNat_hi (x : UInt64) : (x >>> 32).toNat = x.toNat / 2 ^ 32 := by
  exact shiftRight_eq_div_pow _ _

theorem toNat_lo (x : UInt64) : (x &&& 0xffffffff).toNat = x.toNat % 2 ^ 32 := by
  exact and_two_pow_sub_one_eq_mod _ 32

theorem toNat_lift (x : UInt64) : (x <<< 32).toNat = x.toNat * 2 ^ 32 % 2 ^ 64 := by
  exact congrArg (· % 2 ^ 64) (shiftLeft_eq _ _)

theorem toNat_join {x y : UInt64} (h : y.toNat < 2 ^ 32) :
    ((x <<< 32) ||| y).toNat = x.toNat % 2 ^ 32 * 2 ^ 32 + y.toNat := by
  have hlift : x.toNat * 2 ^ 32 % 2 ^ 64 = (x.toNat % 2 ^ 32) <<< 32 := by
    omega
  rw [UInt64.toNat_or, toNat_lift, hlift, ← shiftLeft_add_eq_or_of_lt h, shiftLeft_eq]

/-- Halves of a word multiply without a carry. -/
theorem mul_half_le {x y : Nat} (hx : x < 2 ^ 32) (hy : y < 2 ^ 32) :
    x * y ≤ (2 ^ 32 - 1) * (2 ^ 32 - 1) :=
  Nat.mul_le_mul (Nat.le_pred_of_lt hx) (Nat.le_pred_of_lt hy)

section

variable (a b : UInt64)

/-- A product of two words in the products of their halves. -/
theorem exists_halves : ∃ hh hl lh ll,
    hh = a.toNat / 2 ^ 32 * (b.toNat / 2 ^ 32) ∧ hl = a.toNat / 2 ^ 32 * (b.toNat % 2 ^ 32) ∧
      lh = a.toNat % 2 ^ 32 * (b.toNat / 2 ^ 32) ∧ ll = a.toNat % 2 ^ 32 * (b.toNat % 2 ^ 32) ∧
      (∀ x ∈ [hh, hl, lh, ll], x ≤ (2 ^ 32 - 1) * (2 ^ 32 - 1)) ∧
      a.toNat * b.toNat = hh * 2 ^ 64 + (hl + lh) * 2 ^ 32 + ll := by
  have ha : a.toNat / 2 ^ 32 < 2 ^ 32 := Nat.div_lt_of_lt_mul a.toNat_lt
  have hb : b.toNat / 2 ^ 32 < 2 ^ 32 := Nat.div_lt_of_lt_mul b.toNat_lt
  have ha' : a.toNat % 2 ^ 32 < 2 ^ 32 := mod_lt _ (by decide)
  have hb' : b.toNat % 2 ^ 32 < 2 ^ 32 := mod_lt _ (by decide)
  refine ⟨_, _, _, _, rfl, rfl, rfl, rfl, ?_, ?_⟩
  · simp only [List.forall_mem_cons, List.not_mem_nil, false_implies, implies_true, and_true]
    exact ⟨mul_half_le ha hb, mul_half_le ha hb', mul_half_le ha' hb, mul_half_le ha' hb'⟩
  · conv_lhs => rw [← div_add_mod a.toNat (2 ^ 32), ← div_add_mod b.toNat (2 ^ 32)]
    ring

/-- Two words that make up the product are those of `mul`. -/
theorem eq_mul {a b lo hi : UInt64} (h : hi.toNat * 2 ^ 64 + lo.toNat = a.toNat * b.toNat) :
    (lo, hi) = mul a b := by
  have hmul := mul_toNat a b
  have hlo := lo.toNat_lt
  have hlo' := (mul a b).1.toNat_lt
  refine Prod.ext (UInt64.toNat_inj.mp ?_) (UInt64.toNat_inj.mp ?_)
  · change lo.toNat = _
    omega
  · change hi.toNat = _
    omega

theorem mul128_eq : mul128 a b = mul a b := by
  refine eq_mul ?_
  obtain ⟨hh, hl, lh, ll, hhh, hhl, hlh, hll, hle, hproduct⟩ := exists_halves a b
  simp only [List.forall_mem_cons] at hle
  simp only [hiDword, loDword, UInt64.lt_iff_toNat_lt, UInt64.toNat_add, UInt64.toNat_mul, toNat_hi,
    toNat_lo, toNat_lift, apply_ite UInt64.toNat, UInt64.toNat_one, UInt64.toNat_zero, ← hhh, ← hhl,
    ← hlh, ← hll]
  split_ifs <;> omega

theorem portableMul_eq : portableMul a b = mul a b := by
  refine eq_mul ?_
  obtain ⟨hh, hl, lh, ll, hhh, hhl, hlh, hll, hle, hproduct⟩ := exists_halves a b
  simp only [List.forall_mem_cons] at hle
  rw [UInt64.or_comm, toNat_join (by rw [toNat_lo]; omega), toNat_join (by rw [toNat_lo]; omega)]
  simp only [UInt64.toNat_add, UInt64.toNat_mul, toNat_hi, toNat_lo, ← hhh, ← hhl, ← hlh, ← hll]
  omega

/-! ## Words of a hash -/

/-- The number that bytes stand for, the lowest one first. -/
def bytesValue (byte : Nat → Nat) (n : Nat) : Nat :=
  (List.range n).foldl (fun acc k => acc + byte k * 2 ^ (8 * k)) 0

/-- The number that a hash stands for, read as little-endian. -/
def hashValue (hash : Hash) : Nat :=
  bytesValue (hashByte hash) 32

theorem bytesValue_succ (byte : Nat → Nat) (n : Nat) :
    bytesValue byte (n + 1) = bytesValue byte n + byte n * 2 ^ (8 * n) := by
  simp only [bytesValue, List.range_succ, List.foldl_append, List.foldl_cons, List.foldl_nil]

theorem bytesValue_add (byte : Nat → Nat) (m n : Nat) : bytesValue byte (m + n) =
      bytesValue byte m + 2 ^ (8 * m) * bytesValue (fun k => byte (m + k)) n := by
  induction n with
  | zero => rfl
  | succ n ih =>
    rw [← add_assoc, bytesValue_succ, bytesValue_succ, ih, mul_add 8, pow_add]
    ring

theorem bytesValue_lt {byte : Nat → Nat} (h : ∀ k, byte k < 256) (n : Nat) :
    bytesValue byte n < 2 ^ (8 * n) := by
  induction n with
  | zero => exact one_pos
  | succ n ih =>
    have hbyte : byte n * 2 ^ (8 * n) ≤ 255 * 2 ^ (8 * n) :=
      mul_le_mul_right _ (le_of_lt_succ (h n))
    rw [bytesValue_succ, mul_succ, pow_add]
    omega

theorem bytesValue_digits (x n : Nat) :
    bytesValue (fun k => x / 2 ^ (8 * k) % 256) n = x % 2 ^ (8 * n) := by
  induction n with
  | zero => exact (mod_one x).symm
  | succ n ih =>
    rw [bytesValue_succ, ih, mul_succ, pow_add, mod_mul, mul_comm (2 ^ (8 * n))]
    rfl

/-- The model keeps a hash as the number its bytes spell from the left, so `hashValue` is that
    number with its bytes reversed. -/
theorem toNat_eq_bytesValue (hash : Hash) :
    hash.toNat = bytesValue (fun k => hashByte hash (31 - k)) 32 := by
  have hreverse : bytesValue (fun k => hashByte hash (31 - k)) 32 =
      bytesValue (fun k => hash.toNat / 2 ^ (8 * k) % 256) 32 := rfl
  rw [hreverse, bytesValue_digits]
  exact (mod_eq_of_lt hash.isLt).symm

theorem hashWord_toNat (hash : Hash) (i : Nat) :
    (hashWord hash i).toNat = bytesValue (fun k => hashByte hash (8 * i + k)) 8 := by
  have hbyte : ∀ k, hashByte hash (8 * i + k) < 256 := fun k => mod_lt _ (by decide)
  exact UInt64.toNat_ofNat_of_lt' (bytesValue_lt hbyte 8)

/-- A hash is four words. -/
theorem hashValue_eq (hash : Hash) :
    hashValue hash = (hashWord hash 0).toNat + 2 ^ 64 * ((hashWord hash 1).toNat +
      2 ^ 64 * ((hashWord hash 2).toNat + 2 ^ 64 * (hashWord hash 3).toNat)) := by
  simp only [hashWord_toNat]
  exact (bytesValue_add _ 8 24).trans (congrArg _ (congrArg _ ((bytesValue_add _ 8 16).trans
    (congrArg _ (congrArg _ (bytesValue_add _ 8 8))))))

/-! ## Carries -/

theorem cadd_eq : cadd a b = cadc a b false :=
  (Bool.or_false _).symm

theorem cadc_iff (c : Bool) : cadc a b c = true ↔ 2 ^ 64 ≤ a.toNat + b.toNat + c.toNat := by
  have := b.toNat_lt
  have hmax : (0xffffffffffffffff : UInt64).toNat = 2 ^ 64 - 1 := rfl
  simp only [cadc, Bool.or_eq_true, Bool.and_eq_true, decide_eq_true_eq, UInt64.lt_iff_toNat_lt,
    ← UInt64.toNat_inj, UInt64.toNat_add, hmax]
  cases c <;> simp <;> omega

theorem cadc_toNat (c : Bool) : (cadc a b c).toNat = (a.toNat + b.toNat + c.toNat) / 2 ^ 64 := by
  have ha := a.toNat_lt
  have hb := b.toNat_lt
  have hbit := c.toNat_le
  have h := cadc_iff a b c
  cases hc : cadc a b c <;> simp [hc] at h ⊢ <;> omega

end

theorem checkHash64_iff (hash : Hash) (d : UInt64) :
    checkHash64By mul hash d = true ↔ hashValue hash * d.toNat < 2 ^ 256 := by
  have hvalue : hashValue hash * d.toNat = (hashWord hash 0).toNat * d.toNat +
      2 ^ 64 * ((hashWord hash 1).toNat * d.toNat + 2 ^ 64 * ((hashWord hash 2).toNat * d.toNat +
        2 ^ 64 * ((hashWord hash 3).toNat * d.toNat))) := by
    rw [hashValue_eq]
    ring
  rw [hvalue, ← mul_toNat, ← mul_toNat, ← mul_toNat, ← mul_toNat]
  simp only [checkHash64By]
  generalize mul (hashWord hash 0) d = w0
  generalize mul (hashWord hash 1) d = w1
  generalize mul (hashWord hash 2) d = w2
  generalize mul (hashWord hash 3) d = top
  have hlow := w0.1.toNat_lt
  by_cases htop : top.2 = 0
  · rw [if_neg (not_not.mpr htop), htop, Bool.not_eq_true', ← Bool.not_eq_true,
      cadc_iff, cadc_toNat,
      cadd_eq, cadc_toNat, UInt64.toNat_zero, Bool.toNat_false]
    omega
  · have hpos : top.2.toNat ≠ 0 := fun h => htop (UInt64.toNat_inj.mp h)
    rw [if_pos htop]
    constructor
    · exact nofun
    · intro h
      omega

/-- Four words put together from the highest one on. -/
theorem foldl_words (word : Nat → Nat) (b : Nat) :
    (List.range 4).foldl (fun acc i => acc * b + word (3 - i)) 0 =
      word 0 + b * (word 1 + b * (word 2 + b * word 3)) := by
  change (((0 * b + word 3) * b + word 2) * b + word 1) * b + word 0 = _
  ring

variable (hash : Hash) (d : Difficulty)

theorem checkHash128_iff : checkHash128 hash d = true ↔ hashValue hash * d.toNat < 2 ^ 256 := by
  unfold checkHash128
  rw [foldl_words fun i => (hashWord hash i).toNat, ← hashValue_eq, decide_eq_true_eq]
  exact Nat.le_sub_one_iff_lt (Nat.two_pow_pos 256)

theorem checkHashBy_iff : checkHashBy mul hash d = true ↔ hashValue hash * d.toNat < 2 ^ 256 := by
  rw [checkHashBy]
  split_ifs with hsmall
  · rw [checkHash64_iff, UInt64.toNat_ofNat_of_lt' (by change d.toNat < 2 ^ 64; omega)]
  · rw [checkHash128_iff]

/-- A hash passes a difficulty when their product is below `2²⁵⁶`, by either definition of `mul`,
    and the path for difficulties of one word agrees with the wide one. -/
theorem checkHash_iff (hash : Hash) (d : Difficulty) :
    (checkHash hash d = checkHashBy mul128 hash d ∧
      (checkHashBy mul128 hash d = true ↔ hashValue hash * d.toNat < 2 ^ 256) ∧
      (checkHashBy portableMul hash d = true ↔ hashValue hash * d.toNat < 2 ^ 256)) ∧
      ∀ small : UInt64,
        checkHash64By mul128 hash small = checkHash128 hash (BitVec.ofNat 128 small.toNat) ∧
        checkHash64By portableMul hash small =
          checkHash128 hash (BitVec.ofNat 128 small.toNat) := by
  have hmul : mul128 = mul := funext fun a => funext (mul128_eq a)
  have hportable : portableMul = mul := funext fun a => funext (portableMul_eq a)
  rw [hmul, hportable]
  refine ⟨⟨rfl, checkHashBy_iff hash d, checkHashBy_iff hash d⟩, fun small => ?_⟩
  have hwide : (BitVec.ofNat 128 small.toNat).toNat = small.toNat := by
    have hlt := small.toNat_lt
    rw [BitVec.toNat_ofNat]
    omega
  have hpaths : checkHash64By mul hash small =
      checkHash128 hash (BitVec.ofNat 128 small.toNat) := by
    rw [Bool.eq_iff_iff, checkHash64_iff, checkHash128_iff, hwide]
  exact ⟨hpaths, hpaths⟩

end Difficulty

end CocaineNode
