import CocaineNode.Core.RollingMedian
import CocaineNode.Lib.BinaryHeap

/-!
# The Two Heaps of a Rolling Median

What the sorting functions do to a rolling median is exchange items, so the
tables stay inverse to each other whatever happens (`Exchanges.tables`). The
rest is about the items as the heap shows them, `key`. Both heaps are ordered
from the median outwards, and each function is given by what is out of order
when it starts: an item that may belong further out (`sortDown_spec`), one that
may belong further in (`raise_spec`), or the median itself (`sortMedian_spec`).

The heaps are mirror images, and every statement is about a side. The order of a
side puts what belongs nearer to the median first.

## Theorems

* `RollingMedian.raise_spec`: An item that moves up, past the median if it has to.
* `RollingMedian.sortMedian_spec`: A new item at the median.
-/

namespace CocaineNode

open Function Equiv Nat

namespace RollingMedian

/-! ## Sides -/

namespace Side

def other : Side → Side
  | min => max
  | max => min

/-- The order of a side: nearer to the median first. -/
def le {α : Type} [LE α] : Side → α → α → Prop
  | min, a, b => a ≤ b
  | max, a, b => b ≤ a

/-- The strict order of a side. -/
def lt {α : Type} [LT α] : Side → α → α → Prop
  | min, a, b => a < b
  | max, a, b => b < a

variable (side : Side)

@[simp] theorem at_zero : side.at 0 = 0 := by
  cases side with
  | min | max => rfl

theorem natAbs_at (k : Nat) : (side.at k).natAbs = k := by
  cases side with
  | min | max => simp only [Side.at]; omega

theorem at_inj {side : Side} {k l : Nat} : side.at k = side.at l ↔ k = l := by
  cases side with
  | min | max => simp only [Side.at]; omega

theorem at_injective : Function.Injective side.at :=
  fun _ _ => at_inj.mp

theorem other_at_ne {side : Side} {k l : Nat} (h : 0 < l ∨ 0 < k) :
    side.other.at l ≠ side.at k := by
  cases side with
  | min | max => simp only [other, Side.at]; omega

variable {α : Type} [LinearOrder α] {side : Side} {a b c : α}

theorem le_self (side : Side) (a : α) : side.le a a := by
  cases side with
  | min | max => exact le_rfl

theorem le_trans (h : side.le a b) (h' : side.le b c) : side.le a c := by
  cases side with
  | min => exact LE.le.trans h h'
  | max => exact LE.le.trans h' h

instance : Std.Refl (@Side.le α _ side) :=
  ⟨le_self side⟩

instance : IsTrans α side.le :=
  ⟨fun _ _ _ => le_trans⟩

theorem le_of_lt (h : side.lt a b) : side.le a b := by
  cases side with
  | min | max => exact LT.lt.le h

theorem le_iff_not_lt : side.le b a ↔ ¬ side.lt a b := by
  cases side with
  | min | max => exact not_lt.symm

theorem other_le : side.other.le a b ↔ side.le b a := by
  cases side with
  | min | max => exact Iff.rfl

end Side

/-! ## Exchanges -/

section Exchange

variable {α : Type}

/-- The item at a position. -/
def key (rm : RollingMedian α) (i : Int) : α :=
  rm.data (rm.heap i)

/-- The positions of the heap array. -/
def InRange (rm : RollingMedian α) (i : Int) : Prop :=
  -((rm.N / 2 : Nat) : Int) ≤ i ∧ i ≤ ((rm.N - 1) / 2 : Nat)

/-- The positions that hold items. -/
def Active (rm : RollingMedian α) (i : Int) : Prop :=
  -(rm.maxCt : Int) ≤ i ∧ i ≤ rm.minCt

/-- `pos` and `heap` are inverse to each other. -/
structure Tables (rm : RollingMedian α) : Prop where
  pos_range : ∀ n < rm.N, rm.InRange (rm.pos n)
  heap_pos : ∀ n < rm.N, rm.heap (rm.pos n) = n
  heap_lt : ∀ i, rm.InRange i → rm.heap i < rm.N
  pos_heap : ∀ i, rm.InRange i → rm.pos (rm.heap i) = i

theorem active_at {rm : RollingMedian α} {side : Side} {k : Nat} (h : k ≤ rm.ct side) :
    rm.Active (side.at k) := by
  cases side with
  | min | max =>
    simp only [ct] at h
    exact ⟨by simp only [Side.at]; omega, by simp only [Side.at]; omega⟩

variable (rm : RollingMedian α)

theorem heap_mmexchange (i j l : Int) :
    (rm.mmexchange i j).heap l = rm.heap (swap i j l) := by
  simp only [mmexchange]
  by_cases hj : l = j
  · rw [hj, update_self, swap_apply_right]
  · rw [update_of_ne hj]
    by_cases hi : l = i
    · rw [hi, update_self, swap_apply_left]
    · rw [update_of_ne hi, swap_apply_of_ne_of_ne hi hj]

theorem key_mmexchange (i j l : Int) : (rm.mmexchange i j).key l = rm.key (Equiv.swap i j l) := by
  rw [key, heap_mmexchange]
  rfl

theorem pos_mmexchange (i j : Int) (n : Nat) : (rm.mmexchange i j).pos n =
      if n = rm.heap i then j else if n = rm.heap j then i else rm.pos n := by
  have hi := heap_mmexchange rm i j i
  have hj := heap_mmexchange rm i j j
  rw [swap_apply_left] at hi
  rw [swap_apply_right] at hj
  change update (update rm.pos ((rm.mmexchange i j).heap i) i)
    ((rm.mmexchange i j).heap j) j n = _
  rw [hi, hj]
  by_cases hni : n = rm.heap i
  · rw [if_pos hni, hni, update_self]
  · rw [if_neg hni, update_of_ne hni]
    by_cases hnj : n = rm.heap j
    · rw [if_pos hnj, hnj, update_self]
    · rw [if_neg hnj, update_of_ne hnj]

/-- An exchange of two positions keeps the tables inverse. -/
theorem Tables.mmexchange {rm : RollingMedian α} (h : rm.Tables) {i j : Int} (hi : rm.InRange i)
    (hj : rm.InRange j) : (rm.mmexchange i j).Tables := by
  have hswap : ∀ l, rm.InRange l → rm.InRange (swap i j l) := by
    intro l hl
    rw [swap_apply_def]
    split_ifs
    · exact hj
    · exact hi
    · exact hl
  have hplace : ∀ n < rm.N, ∀ l, rm.InRange l → (n = rm.heap l ↔ rm.pos n = l) := by
    intro n hn l hl
    constructor
    · rintro rfl
      exact h.pos_heap l hl
    · rintro rfl
      exact (h.heap_pos n hn).symm
  -- The two items change places, and no others.
  have hpos : ∀ n < rm.N, (rm.mmexchange i j).pos n = swap i j (rm.pos n) := by
    intro n hn
    rw [pos_mmexchange, swap_apply_def]
    simp only [hplace n hn i hi, hplace n hn j hj]
  refine ⟨?_, ?_, ?_, ?_⟩
  · intro n hn
    rw [hpos n hn]
    exact hswap _ (h.pos_range n hn)
  · intro n hn
    rw [heap_mmexchange, hpos n hn, swap_apply_self, h.heap_pos n hn]
  · intro l hl
    rw [heap_mmexchange]
    exact h.heap_lt _ (hswap l hl)
  · intro l hl
    rw [heap_mmexchange, hpos _ (h.heap_lt _ (hswap l hl)), h.pos_heap _ (hswap l hl),
      swap_apply_self]

/-- The items of a heap by their distance from the median, which comes first. -/
def keys (rm : RollingMedian α) (side : Side) (k : Nat) : α :=
  rm.key (side.at k)

section

variable (rm : RollingMedian α) (side : Side)

@[simp] theorem keys_zero : rm.keys side 0 = rm.key 0 := by
  rw [keys, Side.at_zero]

theorem keys_mmexchange (k l : Nat) :
    (rm.mmexchange (side.at k) (side.at l)).keys side = rm.keys side ∘ swap k l := by
  funext m
  rw [keys, key_mmexchange, (Side.at_injective side).swap_apply]
  rfl

theorem keys_mmexchange_other (k l : Nat) {m : Nat} (h : 0 < m ∨ 0 < k ∧ 0 < l) :
    (rm.mmexchange (side.at k) (side.at l)).keys side.other m = rm.keys side.other m := by
  rw [keys, key_mmexchange, swap_apply_of_ne_of_ne]
  · rfl
  · exact Side.other_at_ne (by omega)
  · exact Side.other_at_ne (by omega)

end

/-- One state comes from another by exchanges of items. -/
def Exchanges : RollingMedian α → RollingMedian α → Prop :=
  Relation.ReflTransGen fun a b => ∃ i j, a.Active i ∧ a.Active j ∧ b = a.mmexchange i j

namespace Exchanges

variable {rm rm' : RollingMedian α}

theorem refl (rm : RollingMedian α) : Exchanges rm rm :=
  Relation.ReflTransGen.refl

theorem single {i j : Int} (hi : rm.Active i) (hj : rm.Active j) :
    Exchanges rm (rm.mmexchange i j) :=
  Relation.ReflTransGen.single ⟨i, j, hi, hj, rfl⟩

variable (h : Exchanges rm rm')
include h

theorem trans {rm'' : RollingMedian α} (h' : Exchanges rm' rm'') : Exchanges rm rm'' :=
  Relation.ReflTransGen.trans h h'

/-- Only the tables change. -/
theorem frame : rm'.data = rm.data ∧ rm'.N = rm.N ∧ rm'.idx = rm.idx ∧
    rm'.minCt = rm.minCt ∧ rm'.maxCt = rm.maxCt ∧ rm'.sz = rm.sz := by
  induction h with
  | refl => exact ⟨rfl, rfl, rfl, rfl, rfl, rfl⟩
  | tail _ hstep ih =>
    rcases hstep with ⟨i, j, -, -, rfl⟩
    exact ih

theorem ct (side : Side) : rm'.ct side = rm.ct side := by
  rcases h.frame with ⟨-, -, -, hmin, hmax, -⟩
  cases side with
  | min => exact hmin
  | max => exact hmax

theorem active (i : Int) : rm'.Active i ↔ rm.Active i := by
  rcases h.frame with ⟨-, -, -, hmin, hmax, -⟩
  rw [Active, Active, hmin, hmax]

theorem inRange (i : Int) : rm'.InRange i ↔ rm.InRange i := by
  rw [InRange, InRange, h.frame.2.1]

/-- The tables stay inverse to each other, as long as the items are within the array. -/
theorem tables (hroom : ∀ i, rm.Active i → rm.InRange i) (htables : rm.Tables) : rm'.Tables := by
  induction h with
  | refl => exact htables
  | tail hpre hstep ih =>
    rcases hstep with ⟨i, j, hi, hj, rfl⟩
    have hpre : Exchanges _ _ := hpre
    exact ih.mmexchange ((hpre.inRange i).mpr (hroom i ((hpre.active i).mp hi)))
      ((hpre.inRange j).mpr (hroom j ((hpre.active j).mp hj)))

/-- Positions without an item are left alone. -/
theorem heap_of_not_active {l : Int} (hl : ¬ rm.Active l) : rm'.heap l = rm.heap l := by
  induction h with
  | refl => rfl
  | tail hpre hstep ih =>
    rcases hstep with ⟨i, j, hi, hj, rfl⟩
    have hpre : Exchanges _ _ := hpre
    rw [heap_mmexchange, swap_apply_of_ne_of_ne, ih]
    · rintro rfl
      exact hl ((hpre.active l).mp hi)
    · rintro rfl
      exact hl ((hpre.active l).mp hj)

end Exchanges

end Exchange

/-! ## Sorting -/

variable {α : Type} [LinearOrder α]

/-- A heap is in order, from the median on. -/
def OrderedSide (rm : RollingMedian α) (side : Side) : Prop :=
  ∀ k, 1 ≤ k → k ≤ rm.ct side → side.le (rm.key (side.at (k / 2))) (rm.key (side.at k))

theorem OrderedSide.heap {rm : RollingMedian α} {side : Side} (h : rm.OrderedSide side) :
    BinaryHeap.Ordered side.le (rm.keys side) (rm.ct side) :=
  h

section

variable (rm : RollingMedian α) (side : Side)

theorem nearer_iff (k l : Nat) :
    rm.nearer side k l = true ↔ side.lt (rm.keys side k) (rm.keys side l) := by
  cases side with
  | min | max => exact decide_eq_true_iff

/-- An item is exchanged with one nearer to the median when it belongs there. -/
theorem cmpExch_cases (k l : Nat) (hk : k ≤ rm.ct side) (hl : l ≤ rm.ct side) :
    (¬ side.lt (rm.keys side k) (rm.keys side l) ∧ rm.cmpExch side k l = (false, rm)) ∨
      (side.lt (rm.keys side k) (rm.keys side l) ∧ ∃ rm', rm.cmpExch side k l = (true, rm') ∧
        Exchanges rm rm' ∧ rm'.keys side = rm.keys side ∘ swap k l ∧
        ∀ m, 0 < m ∨ 0 < k ∧ 0 < l → rm'.keys side.other m = rm.keys side.other m) := by
  by_cases hlt : side.lt (rm.keys side k) (rm.keys side l)
  · refine Or.inr ⟨hlt, ?_⟩
    have hnear := (nearer_iff rm side k l).mpr hlt
    cases side with
    | min =>
      exact ⟨_, if_pos hnear, Exchanges.single (active_at hk) (active_at hl),
        keys_mmexchange rm .min k l, fun m hm => keys_mmexchange_other rm .min k l hm⟩
    | max =>
      refine ⟨_, if_pos hnear, Exchanges.single (active_at hl) (active_at hk), ?_,
        fun m hm => keys_mmexchange_other rm .max l k (by omega)⟩
      rw [keys_mmexchange rm .max l k, swap_comm]
  · refine Or.inl ⟨hlt, ?_⟩
    have hnear : ¬ rm.nearer side k l = true := mt (nearer_iff rm side k l).mp hlt
    cases side with
    | min | max => exact if_neg hnear

/-- The child that `sortDown` compares with is the nearer one. -/
theorem child_spec (k : Nat) (hle : 2 * k ≤ rm.ct side) :
    ∃ c, (if (decide (2 * k < rm.ct side) && rm.nearer side (2 * k + 1) (2 * k)) = true
        then 2 * k + 1 else 2 * k) = c ∧
      c / 2 = k ∧ c ≤ rm.ct side ∧
      ∀ d ≤ rm.ct side, d / 2 = k → side.le (rm.keys side c) (rm.keys side d) := by
  by_cases hright : 2 * k < rm.ct side ∧ rm.nearer side (2 * k + 1) (2 * k) = true
  · refine ⟨2 * k + 1, if_pos (by simp [hright]), by omega, by omega, fun d hd hdk => ?_⟩
    rw [nearer_iff] at hright
    rcases (by omega : d = 2 * k ∨ d = 2 * k + 1) with rfl | rfl
    · exact Side.le_of_lt hright.2
    · exact Side.le_self _ _
  · refine ⟨2 * k, if_neg (by simpa using hright), by omega, hle, fun d hd hdk => ?_⟩
    rcases (by omega : d = 2 * k ∨ d = 2 * k + 1) with rfl | rfl
    · exact Side.le_self _ _
    · rw [nearer_iff] at hright
      exact Side.le_iff_not_lt.mpr fun hlt => hright ⟨by omega, hlt⟩

end

variable {rm rm' : RollingMedian α} {side : Side}

/-- `sortDown` puts a heap in order, and touches nothing else. -/
theorem sortDown_spec (side : Side) (fuel k : Nat) (rm : RollingMedian α) (hk : 1 ≤ k)
    (hfuel : rm.ct side < k + fuel) (h : BinaryHeap.Down side.le (rm.keys side) (rm.ct side) k) :
    Exchanges rm (sortDown side fuel k rm) ∧ (sortDown side fuel k rm).OrderedSide side ∧
      (sortDown side fuel k rm).keys side.other = rm.keys side.other := by
  induction fuel generalizing k rm with
  | zero => exact ⟨Exchanges.refl rm, h.ordered fun c hc hpar => by omega, rfl⟩
  | succ fuel ih =>
    rw [sortDown]
    by_cases hle : 2 * k ≤ rm.ct side
    · rcases child_spec rm side k hle with ⟨c, hc, hck, hcle, hnear⟩
      simp only [if_pos hle, hc]
      rw [hck]
      rcases cmpExch_cases rm side c k hcle (by omega) with
        ⟨hlt, heq⟩ | ⟨hlt, rm', heq, hex, hkeys, hother⟩
      · -- Nothing below the item belongs above it.
        rw [heq, if_neg Bool.false_ne_true]
        exact ⟨Exchanges.refl rm, h.ordered fun d hd hpar =>
          Side.le_trans (Side.le_iff_not_lt.mpr hlt) (hnear d hd hpar), rfl⟩
      · have hdown := h.swap hk hck hcle (Side.le_of_lt hlt) hnear
        rw [← hkeys, ← hex.ct side] at hdown
        rcases ih c rm' (by omega) (by rw [hex.ct]; omega) hdown with ⟨hex', hord, hother'⟩
        simp only [heq, if_true]
        exact ⟨hex.trans hex', hord, hother'.trans (funext fun m => hother m (by omega))⟩
    · rw [if_neg hle]
      exact ⟨Exchanges.refl rm, h.ordered fun c hc hpar => by omega, rfl⟩

theorem sortUp_zero (side : Side) (fuel : Nat) (rm : RollingMedian α) :
    sortUp side fuel 0 rm = (true, rm) := by
  cases fuel with
  | zero | succ fuel => rfl

/-- `sortUp` puts a heap in order. When it comes to the median, the old median is next to it. -/
theorem sortUp_spec (side : Side) (fuel k : Nat) (rm : RollingMedian α) (hfuel : k ≤ fuel)
    (hk : k ≤ rm.ct side) (h : BinaryHeap.Up side.le (rm.keys side) (rm.ct side) k) :
    ∃ top rm', sortUp side fuel k rm = (top, rm') ∧ Exchanges rm rm' ∧ rm'.OrderedSide side ∧
      (∀ m, 0 < m → rm'.keys side.other m = rm.keys side.other m) ∧
      (top = false → rm'.key 0 = rm.key 0) ∧
      (top = true → 1 ≤ k → rm'.keys side 1 = rm.key 0) := by
  induction k using Nat.strongRecOn generalizing fuel rm with
  | ind k ih =>
    by_cases hzero : k = 0
    · rw [hzero, sortUp_zero]
      exact ⟨true, rm, rfl, Exchanges.refl rm, h.ordered (by omega), fun _ _ => rfl,
        fun _ => rfl, by omega⟩
    · obtain ⟨fuel, rfl⟩ : ∃ n, fuel = n + 1 := ⟨fuel - 1, by omega⟩
      rw [sortUp, if_pos (by omega)]
      rcases cmpExch_cases rm side k (k / 2) hk (by omega) with
        ⟨hlt, heq⟩ | ⟨hlt, rm', heq, hex, hkeys, hother⟩
      · simp only [heq, Bool.false_eq_true, if_false]
        exact ⟨false, rm, rfl, Exchanges.refl rm,
          h.ordered fun _ => Side.le_iff_not_lt.mpr hlt, fun _ _ => rfl, fun _ => rfl, by simp⟩
      · have hup := h.swap (by omega) hk (Side.le_of_lt hlt)
        rw [← hkeys, ← hex.ct side] at hup
        rcases ih (k / 2) (by omega) fuel rm' (by omega) (by rw [hex.ct]; omega) hup with
          ⟨top, rm₁, heq', hex', hord, hother', hstop, htop⟩
        simp only [heq, if_true]
        refine ⟨top, rm₁, heq', hex.trans hex', hord,
          fun m hm => (hother' m hm).trans (hother m (.inl hm)), ?_⟩
        by_cases hroot : k / 2 = 0
        · -- The item is the median now.
          rw [hroot, sortUp_zero] at heq'
          cases heq'
          refine ⟨by simp, fun _ _ => ?_⟩
          rw [hkeys, hroot, show k = 1 by omega, comp_apply, swap_apply_left, keys_zero]
        · have hmedian : rm'.key 0 = rm.key 0 := by
            rw [← keys_zero rm' side, hkeys, comp_apply,
              swap_apply_of_ne_of_ne (by omega) (by omega), keys_zero]
          exact ⟨fun hfalse => (hstop hfalse).trans hmedian,
            fun htrue _ => (htop htrue (by omega)).trans hmedian⟩

/-! ## Past the median -/

/-- The first item of a heap changes places with the median if it belongs there, and the heap is
    put in order. Both branches of `insert` end so, and a new median is treated so on both sides. -/
def settle (side : Side) (rm : RollingMedian α) : RollingMedian α :=
  if rm.ct side ≠ 0 then
    let e := rm.cmpExch side 1 0
    if e.1 then sortDown side e.2.N 1 e.2 else e.2
  else rm

/-- An item moves up in its heap, and past the median if it has to. -/
def raise (side : Side) (k : Nat) (rm : RollingMedian α) : RollingMedian α :=
  let r := sortUp side k k rm
  if r.1 then settle side.other r.2 else r.2

section

variable (rm : RollingMedian α)

theorem sortUp_one (side : Side) (h : 1 ≤ rm.ct side) :
    sortUp side 1 1 rm = rm.cmpExch side 1 0 := by
  rw [sortUp, if_pos one_pos]
  rcases cmpExch_cases rm side 1 0 h (zero_le _) with ⟨-, heq⟩ | ⟨-, rm', heq, -⟩
  · simp [heq]
  · simp [heq, sortUp]

theorem sortMedian_eq : rm.sortMedian = settle .min (settle .max rm) := by
  have hside : ∀ (rm : RollingMedian α) (side : Side), (if rm.ct side ≠ 0 then
      let r := sortUp side 1 1 rm
      if r.1 then sortDown side r.2.N 1 r.2 else r.2 else rm) = settle side rm := by
    intro rm side
    rw [settle]
    split_ifs with hct
    · rw [sortUp_one rm side (one_le_iff_ne_zero.mpr hct)]
    · rfl
  rw [← hside rm .max, ← hside _ .min]
  rfl

theorem raiseMax_eq (k : Nat) : rm.raiseMax k = raise .max k rm := by
  unfold raiseMax raise
  by_cases hr : (sortUp .max k k rm).1 = true
  · simp only [if_pos hr]
    by_cases hct : (sortUp .max k k rm).2.minCt = 0
    · have hzero : ¬ (sortUp .max k k rm).2.ct (Side.other .max) ≠ 0 := not_not.mpr hct
      rw [settle, if_neg hzero, if_neg]
      · rfl
      · simp [maxSortUp, hct]
    · have hne : (sortUp .max k k rm).2.ct (Side.other .max) ≠ 0 := hct
      rw [settle, if_pos hne, if_pos]
      · rfl
      · simp [maxSortUp, hr, hct]
  · simp only [if_neg hr]
    rw [if_neg]
    · rfl
    · simp [maxSortUp, hr]

/-- On this side the source does not ask whether the other heap is empty. -/
theorem raiseMin_eq (k : Nat) (h : (sortUp .min k k rm).2.maxCt ≠ 0) :
    rm.raiseMin k = raise .min k rm := by
  unfold raiseMin raise
  by_cases hr : (sortUp .min k k rm).1 = true
  · have hmin : (rm.minSortUp k).1 = true := hr
    have hne : (sortUp .min k k rm).2.ct (Side.other .min) ≠ 0 := h
    simp only [if_pos hr, if_pos hmin]
    rw [settle, if_pos hne]
    rfl
  · have hmin : ¬ (rm.minSortUp k).1 = true := hr
    simp only [if_neg hr, if_neg hmin]
    rfl

end

/-- There is room for a heap, and it is in order but for its first item. -/
def OrderedBelow (rm : RollingMedian α) (side : Side) : Prop :=
  rm.ct side ≤ rm.N ∧ ∀ c, 2 ≤ c → c ≤ rm.ct side → side.le (rm.keys side (c / 2)) (rm.keys side c)

theorem OrderedBelow.of_exchanges (h : rm.OrderedBelow side) (hex : Exchanges rm rm')
    (hkeys : ∀ m, 0 < m → rm'.keys side m = rm.keys side m) : rm'.OrderedBelow side := by
  rw [OrderedBelow, hex.ct, hex.frame.2.1]
  refine ⟨h.1, fun c hc hle => ?_⟩
  rw [hkeys c (by omega), hkeys (c / 2) (by omega)]
  exact h.2 c hc hle

theorem settle_spec (side : Side) (rm : RollingMedian α) (h : rm.OrderedBelow side) :
    Exchanges rm (settle side rm) ∧ (settle side rm).OrderedSide side ∧
      (∀ m, 0 < m → (settle side rm).keys side.other m = rm.keys side.other m) ∧
      (settle side rm = rm ∨ (1 ≤ rm.ct side ∧ side.lt (rm.keys side 1) (rm.key 0) ∧
        (settle side rm).key 0 = rm.keys side 1)) := by
  unfold settle
  by_cases hct : rm.ct side ≠ 0
  · have hone : 1 ≤ rm.ct side := one_le_iff_ne_zero.mpr hct
    simp only [if_pos hct]
    rcases cmpExch_cases rm side 1 0 hone (zero_le _) with
      ⟨hlt, heq⟩ | ⟨hlt, rm', heq, hex, hkeys, hother⟩
    · rw [heq, if_neg Bool.false_ne_true]
      refine ⟨Exchanges.refl rm, fun c hc hle => ?_, fun _ _ => rfl, Or.inl rfl⟩
      by_cases htwo : 2 ≤ c
      · exact h.2 c htwo hle
      · rw [show c = 1 by omega]
        exact Side.le_iff_not_lt.mpr hlt
    · have hdown := BinaryHeap.Down.of_root h.2 (Side.le_of_lt hlt)
      rw [← hkeys, ← hex.ct side] at hdown
      have hfuel : rm'.ct side < 1 + rm'.N := by
        rw [hex.ct side, hex.frame.2.1]
        exact Nat.lt_one_add_iff.mpr h.1
      rcases sortDown_spec side rm'.N 1 rm' (le_refl 1) hfuel hdown with ⟨hex', hord, hsame⟩
      simp only [heq, if_true]
      refine ⟨hex.trans hex', hord, fun m hm => ?_, Or.inr ⟨hone, by simpa using hlt, ?_⟩⟩
      · rw [hsame, hother m (.inl hm)]
      · rw [← keys_zero _ side.other, hsame, keys_zero, ← keys_zero rm' side, hkeys,
          comp_apply, swap_apply_right]
  · rw [if_neg hct]
    exact ⟨Exchanges.refl rm, fun c hc hle => by omega, fun _ _ => rfl, Or.inl rfl⟩

theorem other_other (side : Side) : side.other.other = side := by
  cases side with
  | min | max => rfl

/-- Both heaps are in order. -/
def Ordered (rm : RollingMedian α) : Prop :=
  ∀ side, rm.OrderedSide side

theorem ordered_of_sides (side : Side) (h : rm.OrderedSide side) (h' : rm.OrderedSide side.other) :
    rm.Ordered := by
  intro s
  cases side with
  | min =>
    cases s with
    | min => exact h
    | max => exact h'
  | max =>
    cases s with
    | min => exact h'
    | max => exact h

/-- Exchanges that put both heaps in order. -/
def Sorts (rm rm' : RollingMedian α) : Prop :=
  Exchanges rm rm' ∧ rm'.Ordered

/-- A heap stays in order when its items stay and the new median is no further out than its first
    item. -/
theorem OrderedSide.of_median (h : rm.OrderedSide side) (hct : rm'.ct side = rm.ct side)
    (hkeys : ∀ m, 0 < m → rm'.keys side m = rm.keys side m)
    (hmedian : 1 ≤ rm.ct side → side.le (rm'.key 0) (rm.keys side 1)) : rm'.OrderedSide side := by
  intro c hc hle
  rw [hct] at hle
  change side.le (rm'.keys side (c / 2)) (rm'.keys side c)
  rw [hkeys c hc]
  by_cases htwo : 2 ≤ c
  · rw [hkeys (c / 2) (by omega)]
    exact h c hc hle
  · rw [show c = 1 by omega, show 1 / 2 = 0 by decide, keys_zero]
    exact hmedian (by omega)

theorem OrderedSide.first (h : rm.OrderedSide side) (hct : 1 ≤ rm.ct side) :
    side.le (rm.key 0) (rm.keys side 1) := by
  rw [← keys_zero rm side]
  exact h 1 (le_refl 1) hct

theorem raise_spec (side : Side) (k : Nat) (rm : RollingMedian α) (hk : 1 ≤ k)
    (hkle : k ≤ rm.ct side) (hN : rm.ct side.other ≤ rm.N)
    (h : BinaryHeap.Up side.le (rm.keys side) (rm.ct side) k)
    (hother : rm.OrderedSide side.other) : Sorts rm (raise side k rm) := by
  unfold raise
  rcases sortUp_spec side k k rm (le_refl k) hkle h with
    ⟨top, rm₁, heq, hex, hord, hkeys, hstop, htop⟩
  simp only [heq]
  cases top with
  | false =>
    rw [if_neg Bool.false_ne_true]
    refine ⟨hex, ordered_of_sides side hord ?_⟩
    refine hother.of_median (hex.ct _) hkeys fun hone => ?_
    rw [hstop rfl]
    exact hother.first hone
  | true =>
    rw [if_pos rfl]
    have hbelow : rm.OrderedBelow side.other := ⟨hN, fun c hc hle => hother c (by omega) hle⟩
    rcases settle_spec side.other rm₁ (hbelow.of_exchanges hex hkeys) with
      ⟨hex', hord', hkeys', hcases⟩
    rw [other_other] at hkeys'
    refine ⟨hex.trans hex', ordered_of_sides side ?_ hord'⟩
    refine hord.of_median (hex'.ct _) hkeys' fun hone => ?_
    rcases hcases with hsame | ⟨hother1, -, hnew⟩
    · rw [hsame]
      exact hord.first hone
    · -- The new median is the first item of the other heap, and the old median is next to it.
      rw [hnew, htop rfl hk, hkeys 1 one_pos]
      rw [hex.ct] at hother1
      exact Side.other_le.mp (hother.first hother1)

/-- A new item at the median, when there was an item in order with both heaps before. -/
theorem sortMedian_spec (rm : RollingMedian α) (old : α) (h : ∀ side, rm.OrderedBelow side)
    (hold : ∀ side : Side, 1 ≤ rm.ct side → side.le old (rm.keys side 1)) :
    Sorts rm rm.sortMedian := by
  rw [sortMedian_eq]
  rcases settle_spec .max rm (h _) with ⟨hex, hord, hkeys, hcases⟩
  set rm₁ := settle .max rm
  have hkeys : ∀ m, 0 < m → rm₁.keys .min m = rm.keys .min m := hkeys
  rcases settle_spec .min rm₁ ((h .min).of_exchanges hex hkeys) with ⟨hex', hord', hkeys', hcases'⟩
  refine ⟨hex.trans hex', ordered_of_sides .min hord' ?_⟩
  refine hord.of_median (hex'.ct _) hkeys' fun hone => ?_
  rcases hcases' with hsame | ⟨hmin, hlt, hnew⟩
  · rw [hsame]
    exact hord.first hone
  · -- The median is now the first item above it, and the items below are below the old one.
    rw [hex.ct] at hone hmin
    have hbetween : Side.max.le (rm.keys .min 1) (rm.keys .max 1) :=
      Side.le_trans (Side.other_le.mp (hold .min hmin)) (hold .max hone)
    rw [hkeys 1 one_pos] at hlt hnew
    rw [hnew]
    rcases hcases with hsame | ⟨-, -, hnew'⟩
    · rw [hsame]
      exact hbetween
    · rw [hnew'] at hlt
      exact absurd hlt (Side.le_iff_not_lt.mp (Side.other_le.mp hbetween))

end RollingMedian

end CocaineNode
