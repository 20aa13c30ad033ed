import Mathlib.Logic.Equiv.Basic

/-!
# Binary Heaps by Position

A binary heap as a function on positions: the parent of a position is at half of
it. Position 0 is above the root and is its own parent. A heap that is being
sorted is in order but for one item, which may belong further down or further
up, and is exchanged with a child or with its parent until it is in place.

## Theorems

* `BinaryHeap.Down.swap`: An item that belongs below its nearest child.
* `BinaryHeap.Up.swap`: An item that belongs above its parent.
-/

namespace BinaryHeap

open Function

variable {α : Type} {r : α → α → Prop} {f g : Nat → α} {n k c : Nat} {v : α}

/-- Every item is in order with its parent. -/
def Ordered (r : α → α → Prop) (f : Nat → α) (n : Nat) : Prop :=
  ∀ k, 1 ≤ k → k ≤ n → r (f (k / 2)) (f k)

/-- Only the pairs below position `k` may be out of order, and what is below `k` is in order with
    what is above it. -/
structure Down (r : α → α → Prop) (f : Nat → α) (n k : Nat) : Prop where
  except : ∀ c, 1 ≤ c → c ≤ n → c / 2 ≠ k → r (f (c / 2)) (f c)
  grand : ∀ c, c ≤ n → c / 2 = k → r (f (k / 2)) (f c)

/-- Only the pair above position `k` may be out of order, and what is below `k` is in order with
    what is above it. -/
structure Up (r : α → α → Prop) (f : Nat → α) (n k : Nat) : Prop where
  except : ∀ c, 1 ≤ c → c ≤ n → c ≠ k → r (f (c / 2)) (f c)
  grand : ∀ c, c ≤ n → c / 2 = k → c ≠ k → r (f (k / 2)) (f c)

theorem Down.ordered (h : Down r f n k) (hk : ∀ c ≤ n, c / 2 = k → r (f k) (f c)) :
    Ordered r f n := by
  intro c hc hcn
  by_cases hpar : c / 2 = k
  · rw [hpar]
    exact hk c hcn hpar
  · exact h.except c hc hcn hpar

theorem Up.ordered (h : Up r f n k) (hk : 1 ≤ k → r (f (k / 2)) (f k)) : Ordered r f n := by
  intro c hc hcn
  by_cases hck : c = k
  · rw [hck]
    exact hk (hck ▸ hc)
  · exact h.except c hc hcn hck

/-- After an exchange with the nearer child, only the pairs below that child may be out of order. -/
theorem Down.swap (h : Down r f n k) (hk : 1 ≤ k) (hck : c / 2 = k) (hc : c ≤ n)
    (hle : r (f c) (f k)) (hnear : ∀ d ≤ n, d / 2 = k → r (f c) (f d)) :
    Down r (f ∘ Equiv.swap c k) n c := by
  constructor
  · intro d hd hdn hne
    have hexcept := h.except d hd hdn
    have hgrand := h.grand c hc hck
    grind
  · intro d hdn hdc
    -- What is below the child was in order with it.
    have hexcept := h.except d (by omega) hdn (by omega)
    grind

/-- The root changes places with what is above it. -/
theorem Down.of_root (h : ∀ c, 2 ≤ c → c ≤ n → r (f (c / 2)) (f c)) (hle : r (f 1) (f 0)) :
    Down r (f ∘ Equiv.swap 1 0) n 1 := by
  constructor
  · intro c hc hcn hne
    grind
  · intro c hcn hpar
    grind

/-- A new item at the end. -/
theorem Ordered.up_of_grown (h : Ordered r f n)
    (hg : ∀ m ≤ n + 1, g m = if m = n + 1 then v else f m) : Up r g (n + 1) (n + 1) := by
  constructor
  · intro c hc hcn hne
    rw [hg c hcn, hg (c / 2) (by omega), if_neg hne, if_neg (by omega)]
    exact h c hc (by omega)
  · intro c hcn hpar _
    omega

variable [IsTrans α r]

section

variable (h : Ordered r f n) (hg : ∀ m ≤ n, g m = if m = k then v else f m) (hk : 1 ≤ k)
  (hkn : k ≤ n)
include h hg hk hkn

/-- An item that is replaced by one that does not belong further down. -/
theorem Ordered.up_of_replaced (hv : r v (f k)) : Up r g n k := by
  constructor
  · intro c hc hcn hne
    have hold := h c hc hcn
    rw [hg c hcn, hg (c / 2) (by omega), if_neg hne]
    by_cases hpar : c / 2 = k
    · rw [if_pos hpar]
      rw [hpar] at hold
      exact Trans.trans hv hold
    · rwa [if_neg hpar]
  · intro c hcn hpar hne
    have hchild := h c (by omega) hcn
    rw [hg c hcn, hg (k / 2) (by omega), if_neg hne, if_neg (by omega)]
    rw [hpar] at hchild
    exact Trans.trans (h k hk hkn) hchild

/-- An item that is replaced by one that belongs further down. -/
theorem Ordered.down_of_replaced (hv : r (f k) v) : Down r g n k := by
  constructor
  · intro c hc hcn hne
    have hold := h c hc hcn
    rw [hg c hcn, hg (c / 2) (by omega), if_neg hne]
    by_cases hck : c = k
    · rw [if_pos hck]
      rw [hck] at hold ⊢
      exact Trans.trans hold hv
    · rwa [if_neg hck]
  · intro c hcn hpar
    have hchild := h c (by omega) hcn
    rw [hg c hcn, hg (k / 2) (by omega), if_neg (by omega), if_neg (by omega)]
    rw [hpar] at hchild
    exact Trans.trans (h k hk hkn) hchild

end

/-- No item belongs above the root. -/
theorem Ordered.from_root [Std.Refl r] (h : Ordered r f n) (hk : 1 ≤ k) (hkn : k ≤ n) :
    r (f 1) (f k) := by
  induction k using Nat.strongRecOn with
  | ind k ih =>
    by_cases hroot : k = 1
    · rw [hroot]
      exact refl _
    · exact Trans.trans (ih (k / 2) (by omega) (by omega) (by omega)) (h k hk hkn)

variable [Std.Refl r]

theorem Ordered.from_zero (h : Ordered r f n) (hkn : k ≤ n) : r (f 0) (f k) := by
  by_cases hk : 1 ≤ k
  · exact Trans.trans (h 1 (Nat.le_refl 1) (by omega)) (h.from_root hk hkn)
  · rw [show k = 0 by omega]
    exact refl _

/-- After an exchange with the parent, only the pair above the parent may be out of order. -/
theorem Up.swap (h : Up r f n k) (hk : 1 ≤ k) (hkn : k ≤ n) (hle : r (f k) (f (k / 2))) :
    Up r (f ∘ Equiv.swap k (k / 2)) n (k / 2) := by
  -- Between the grandparent and the parent nothing was out of order.
  have hparent : r (f (k / 2 / 2)) (f (k / 2)) := by
    by_cases hzero : k / 2 = 0
    · rw [hzero]
      exact refl _
    · exact h.except (k / 2) (by omega) (by omega) (by omega)
  constructor
  · intro c hc hcn hne
    have hexcept := h.except c hc hcn
    have hgrand := h.grand c hcn
    have htrans := IsTrans.trans _ _ (f c) hle
    grind
  · intro c hcn hpar hne
    have hexcept := h.except c (by omega) hcn
    have htrans := IsTrans.trans _ _ (f c) hparent
    grind

end BinaryHeap
