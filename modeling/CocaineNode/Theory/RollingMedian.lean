import CocaineNode.Theory.MedianHeaps

/-!
# The Rolling Median over Insertions

`Valid` says that both heaps are in order and that the tables are inverse to
each other, together with what the queue holds. It is kept by `insert`: a new
item replaces the oldest one, in whichever heap that is, or is put at the next
free position while the queue fills up. `clear` starts anew.

## Theorems

* `RollingMedian.Valid.insert`: Inserting an item keeps the invariant.
* `RollingMedian.valid_clear`: Clearing establishes it.
-/

namespace CocaineNode

open List Function Nat

namespace RollingMedian

/-! ## Start positions -/

theorem startPos_zero : startPos 0 = 0 :=
  rfl

/-- The item first put at a position. -/
def startItem (i : Int) : Nat :=
  if i < 0 then 2 * i.natAbs - 1 else 2 * i.natAbs

theorem startPos_startItem (i : Int) : startPos (startItem i) = i := by
  unfold startPos startItem
  split_ifs <;> omega

theorem startItem_startPos (n : Nat) : startItem (startPos n) = n := by
  unfold startPos startItem
  split_ifs <;> omega

/-- While the queue fills up, the next item goes next to the items there are. -/
theorem startPos_cases (n : Nat) : (n % 2 = 0 ∧ startPos n = Side.min.at (n / 2)) ∨
      (n % 2 = 1 ∧ startPos n = Side.max.at ((n + 1) / 2)) := by
  unfold startPos
  by_cases hn : n % 2 = 1
  · refine Or.inr ⟨hn, ?_⟩
    rw [if_pos hn]
    simp only [Side.at]
    omega
  · refine Or.inl ⟨by omega, ?_⟩
    rw [if_neg hn]
    simp only [Side.at]
    omega

section

variable {α : Type} (rm : RollingMedian α)

theorem inRange_startPos (n : Nat) (h : n < rm.N) : rm.InRange (startPos n) := by
  unfold InRange startPos
  split_ifs with hn
  · omega
  · omega

theorem startItem_lt (i : Int) (hN : 0 < rm.N) (h : rm.InRange i) : startItem i < rm.N := by
  unfold InRange at h
  unfold startItem
  split_ifs with hi
  · omega
  · omega

/-- The positions of items that have not come yet hold none. -/
theorem startPos_not_active (n : Nat) (hpos : 0 < rm.sz) (h : rm.sz ≤ n)
    (hmax : rm.maxCt = rm.sz / 2) (hmin : rm.minCt = (rm.sz - 1) / 2) :
    ¬ rm.Active (startPos n) := by
  unfold Active startPos
  split_ifs with hn
  · omega
  · omega

/-! ## The queue -/

/-- The queue from the oldest place on. -/
def ring (rm : RollingMedian α) : List α :=
  (range rm.N).map fun n => rm.data ((rm.idx + n) % rm.N)

theorem length_ring : rm.ring.length = rm.N := by
  rw [ring, length_map, length_range]

/-- The oldest place takes the new item, and the next one becomes the oldest. -/
theorem ring_enqueue (v : α) (h : rm.idx < rm.N) : (rm.enqueue v).ring = rm.ring.drop 1 ++ [v] := by
  have hdrop : (rm.ring.drop 1).length = rm.N - 1 := by rw [length_drop, length_ring]
  refine ext_getElem ?_ fun n hn hn' => ?_
  · rw [length_ring, length_append, hdrop, length_singleton]
    change rm.N = _
    omega
  · rw [length_ring] at hn
    change n < rm.N at hn
    have hmod : ((rm.idx + 1) % rm.N + n) % rm.N = (rm.idx + (n + 1)) % rm.N := by
      rw [mod_add_mod, add_assoc, add_comm 1]
    have hleft : (rm.enqueue v).ring[n] = update rm.data rm.idx v ((rm.idx + (n + 1)) % rm.N) := by
      rw [← hmod]
      simp [ring, enqueue]
    rw [hleft]
    by_cases hlast : n < rm.N - 1
    · -- The place after the oldest comes round only after all others.
      have hne : (rm.idx + (n + 1)) % rm.N ≠ rm.idx := by
        by_cases hwrap : rm.idx + (n + 1) < rm.N
        · rw [mod_eq_of_lt hwrap]
          omega
        · rw [mod_eq_sub_mod (by omega), mod_eq_of_lt (by omega)]
          omega
      rw [update_of_ne hne, getElem_append_left (by rw [hdrop]; exact hlast)]
      simp [ring]
    · have heq : (rm.idx + (n + 1)) % rm.N = rm.idx := by
        rw [show rm.idx + (n + 1) = rm.idx + rm.N by omega, add_mod_right, mod_eq_of_lt h]
      rw [heq, update_self, getElem_append_right (by rw [hdrop]; omega)]
      simp

/-- The window after one more item, when it holds at most `N`. -/
def slide (N : Nat) (items : List α) (v : α) : List α :=
  (items ++ [v]).drop (items.length + 1 - N)

/-- The state that the sorting starts from: the item is in the queue and counted. -/
def counted (rm : RollingMedian α) (v : α) : RollingMedian α :=
  ((rm.enqueue v).withMinCt (((rm.enqueue v).sz - 1) / 2)).withMaxCt ((rm.enqueue v).sz / 2)

theorem counted_of_counts {rm : RollingMedian α} {v : α} (minCt maxCt : Nat)
    (hmin : minCt = ((rm.enqueue v).sz - 1) / 2) (hmax : maxCt = (rm.enqueue v).sz / 2) :
    ((rm.enqueue v).withMinCt minCt).withMaxCt maxCt = rm.counted v := by
  rw [hmin, hmax]
  rfl

/-- Where items are counted there is room for them. -/
theorem counted_inRange {rm : RollingMedian α} {v : α} {side : Side} {m : Nat}
    (hm : m ≤ (rm.counted v).ct side) : rm.InRange (side.at m) := by
  cases side with
  | min =>
    change m ≤ (min (rm.sz + 1) rm.N - 1) / 2 at hm
    simp only [InRange, Side.at]
    omega
  | max =>
    change m ≤ min (rm.sz + 1) rm.N / 2 at hm
    simp only [InRange, Side.at]
    omega

/-! ## What clearing leaves -/

variable (n : Nat) (rm : RollingMedian α)

theorem clearLoop_frame :
    (clearLoop n rm).data = rm.data ∧ (clearLoop n rm).N = rm.N ∧ (clearLoop n rm).idx = rm.idx ∧
      (clearLoop n rm).minCt = rm.minCt ∧ (clearLoop n rm).maxCt = rm.maxCt ∧
      (clearLoop n rm).sz = rm.sz := by
  induction n generalizing rm with
  | zero => exact ⟨rfl, rfl, rfl, rfl, rfl, rfl⟩
  | succ n ih => exact ih _

theorem pos_clearLoop (m : Nat) :
    (clearLoop n rm).pos m = if m < n then startPos m else rm.pos m := by
  induction n generalizing rm with
  | zero => rfl
  | succ n ih =>
    rw [clearLoop, ih]
    by_cases hlt : m < n
    · rw [if_pos hlt, if_pos (by omega)]
    · rw [if_neg hlt]
      by_cases heq : m = n
      · rw [if_pos (by omega), heq]
        exact update_self n (startPos n) rm.pos
      · rw [if_neg (by omega)]
        exact update_of_ne heq (startPos n) rm.pos

theorem heap_clearLoop (i : Int) :
    (clearLoop n rm).heap i = if startItem i < n then startItem i else rm.heap i := by
  induction n generalizing rm with
  | zero => rfl
  | succ n ih =>
    rw [clearLoop, ih]
    by_cases hlt : startItem i < n
    · rw [if_pos hlt, if_pos (by omega)]
    · rw [if_neg hlt]
      change update rm.heap (update rm.pos n (startPos n) n) n i = _
      rw [update_self]
      by_cases heq : startItem i = n
      · rw [if_pos (by omega), ← heq, startPos_startItem, update_self]
      · rw [if_neg (by omega), update_of_ne]
        intro hi
        exact heq (by rw [hi, startItem_startPos])

end

variable {α : Type} [LinearOrder α]

/-- The invariant of a rolling median, with the items in the window. -/
structure Valid (rm : RollingMedian α) (items : List α) : Prop where
  pos_N : 0 < rm.N
  tables : rm.Tables
  idx_lt : rm.idx < rm.N
  sz_le : rm.sz ≤ rm.N
  filling : rm.sz < rm.N → rm.idx = rm.sz
  maxCt_eq : rm.maxCt = rm.sz / 2
  minCt_eq : rm.minCt = (rm.sz - 1) / 2
  fresh : ∀ n, rm.sz ≤ n → n < rm.N → rm.heap (startPos n) = n
  ordered : rm.Ordered
  window : items = rm.ring.drop (rm.N - rm.sz)

namespace Valid

variable {rm : RollingMedian α} {items : List α} (h : rm.Valid items)
include h

theorem length_items : items.length = rm.sz := by
  have hle := h.sz_le
  rw [h.window, length_drop, length_ring]
  omega

theorem active_inRange (i : Int) (hi : rm.Active i) : rm.InRange i := by
  have hle := h.sz_le
  rw [Active, h.maxCt_eq, h.minCt_eq] at hi
  rw [InRange]
  omega

theorem ct_le (side : Side) : rm.ct side ≤ rm.N := by
  have hle := h.sz_le
  cases side with
  | min =>
    change rm.minCt ≤ rm.N
    rw [h.minCt_eq]
    omega
  | max =>
    change rm.maxCt ≤ rm.N
    rw [h.maxCt_eq]
    omega

/-- A new item shows at the position of the one it replaces, and nowhere else. -/
theorem key_enqueue (v : α) {i : Int} (hi : rm.InRange i) :
    (rm.enqueue v).key i = if i = rm.pos rm.idx then v else rm.key i := by
  change update rm.data rm.idx v (rm.heap i) = _
  split_ifs with heq
  · rw [heq, h.tables.heap_pos _ h.idx_lt, update_self]
  · rw [update_of_ne]
    · rfl
    · intro hheap
      exact heq (by rw [← hheap, h.tables.pos_heap i hi])

/-- The window slides by one item. -/
theorem window_enqueue (v : α) :
    slide rm.N items v = (rm.enqueue v).ring.drop (rm.N - (rm.enqueue v).sz) := by
  have hlen := h.length_items
  have hle := h.sz_le
  have hpos := h.pos_N
  rw [ring_enqueue rm v h.idx_lt, slide, hlen]
  change _ = (rm.ring.drop 1 ++ [v]).drop (rm.N - min (rm.sz + 1) rm.N)
  by_cases hfull : rm.sz < rm.N
  · rw [min_eq_left hfull, show rm.sz + 1 - rm.N = 0 by omega, drop_zero,
      drop_append_of_le_length (by rw [length_drop, length_ring]; omega), drop_drop,
      show 1 + (rm.N - (rm.sz + 1)) = rm.N - rm.sz by omega, h.window]
  · rw [Nat.min_eq_right (by omega), Nat.sub_self, drop_zero,
      show rm.sz + 1 - rm.N = 1 by omega, drop_append_of_le_length (by omega), h.window,
      show rm.N - rm.sz = 0 by omega, drop_zero]

end Valid

/-- Sorting by exchanges is all that is left to do. -/
theorem Valid.of_exchanges {rm rm' : RollingMedian α} {items : List α} {v : α} (h : rm.Valid items)
    (hsorts : Sorts (rm.counted v) rm') : rm'.Valid (slide rm.N items v) := by
  rcases hsorts with ⟨hex, hord⟩
  rcases hex.frame with ⟨hdata, hN, hidx, hminCt, hmaxCt, hsz⟩
  have hpos := h.pos_N
  have hN : rm'.N = rm.N := hN
  have hsz : rm'.sz = min (rm.sz + 1) rm.N := hsz
  have hidx : rm'.idx = (rm.idx + 1) % rm.N := hidx
  have hroom : ∀ i, (rm.counted v).Active i → (rm.counted v).InRange i := by
    intro i hi
    change -((min (rm.sz + 1) rm.N / 2 : Nat) : Int) ≤ i ∧
      i ≤ ((min (rm.sz + 1) rm.N - 1) / 2 : Nat) at hi
    change -((rm.N / 2 : Nat) : Int) ≤ i ∧ i ≤ ((rm.N - 1) / 2 : Nat)
    omega
  have htables : (rm.counted v).Tables := ⟨h.tables.pos_range, h.tables.heap_pos,
    h.tables.heap_lt, h.tables.pos_heap⟩
  refine ⟨by omega, hex.tables hroom htables, ?_, by omega, ?_, ?_, ?_, ?_, hord, ?_⟩
  · rw [hidx, hN]
    exact mod_lt _ hpos
  · intro hlt
    have hfill := h.filling (by omega)
    rw [hidx, mod_eq_of_lt (by omega)]
    omega
  · rw [hmaxCt, hsz]
    rfl
  · rw [hminCt, hsz]
    rfl
  · intro n hn hlt
    rw [hex.heap_of_not_active, show (rm.counted v).heap = rm.heap by rfl]
    · exact h.fresh n (by omega) (by omega)
    · have hle : (rm.counted v).sz ≤ n := by
        omega
      have hsome : 0 < (rm.counted v).sz := by
        omega
      exact startPos_not_active _ n hsome hle rfl rfl
  · rw [h.window_enqueue v, hN, hsz]
    congr 1
    rw [ring, ring, hdata, hidx, hN]
    rfl

namespace Valid

variable {rm : RollingMedian α} {items : List α} {side : Side} {m k : Nat}

section

variable (h : rm.Valid items) (v : α) (hp : rm.pos rm.idx = side.at k)
include h hp

theorem keys_counted (hm : m ≤ (rm.counted v).ct side) :
    (rm.counted v).keys side m = if m = k then v else rm.keys side m := by
  have hkey := h.key_enqueue v (counted_inRange hm)
  rw [hp] at hkey
  split_ifs with hmk
  · rw [if_pos (by rw [hmk])] at hkey
    exact hkey
  · rw [if_neg (mt Side.at_inj.mp hmk)] at hkey
    exact hkey

/-- The heap on the other side does not notice. -/
theorem counted_other (hk : 1 ≤ k) (hct : (rm.counted v).ct side.other = rm.ct side.other) :
    (rm.counted v).OrderedSide side.other := by
  have hkeys : ∀ m ≤ (rm.counted v).ct side.other,
      (rm.counted v).key (side.other.at m) = rm.key (side.other.at m) := by
    intro m hm
    have hkey := h.key_enqueue v (counted_inRange hm)
    rw [hp, if_neg (Side.other_at_ne (Or.inr hk))] at hkey
    exact hkey
  intro c hc hle
  rw [hkeys c hle, hkeys (c / 2) (by omega)]
  exact h.ordered side.other c hc (by omega)

/-- A new item at the end of a heap. -/
theorem up_grow (hct : rm.ct side + 1 = k) (hct' : (rm.counted v).ct side = k) :
    BinaryHeap.Up side.le ((rm.counted v).keys side) ((rm.counted v).ct side) k := by
  subst hct
  rw [hct']
  exact (h.ordered side).heap.up_of_grown fun m hm =>
    h.keys_counted v hp (hm.trans_eq hct'.symm)

/-- An item that is replaced by one that does not belong further out. -/
theorem up_replace (hk : 1 ≤ k) (hkle : k ≤ rm.ct side)
    (hct : (rm.counted v).ct side = rm.ct side) (hle : side.le v (rm.keys side k)) :
    BinaryHeap.Up side.le ((rm.counted v).keys side) ((rm.counted v).ct side) k := by
  rw [hct]
  exact (h.ordered side).heap.up_of_replaced
    (fun m hm => h.keys_counted v hp (hm.trans_eq hct.symm)) hk hkle hle

/-- A new item at the end of a heap moves up. -/
theorem raise_grow (hk : 1 ≤ k) (hct : rm.ct side + 1 = k) (hct' : (rm.counted v).ct side = k)
    (hother : (rm.counted v).ct side.other = rm.ct side.other) :
    Sorts (rm.counted v) (raise side k (rm.counted v)) :=
  raise_spec side k _ hk hct'.ge (by rw [hother]; exact h.ct_le _) (h.up_grow v hp hct hct')
    (h.counted_other v hp hk hother)

/-- An item that replaces another moves up or down. -/
theorem replace_sorted (hk : 1 ≤ k) (hkle : k ≤ rm.ct side)
    (hct : ∀ side, (rm.counted v).ct side = rm.ct side) :
    (side.lt (rm.keys side k) v →
      Sorts (rm.counted v) (sortDown side (rm.counted v).N k (rm.counted v))) ∧
    (¬ side.lt (rm.keys side k) v → Sorts (rm.counted v) (raise side k (rm.counted v))) := by
  have hother := h.counted_other v hp hk (hct side.other)
  constructor
  · intro hlt
    have hfuel : (rm.counted v).ct side < k + (rm.counted v).N := by
      have hle : (rm.counted v).ct side ≤ (rm.counted v).N := by
        rw [hct]
        exact h.ct_le side
      omega
    have hdown : BinaryHeap.Down side.le ((rm.counted v).keys side) ((rm.counted v).ct side) k := by
      rw [hct]
      exact (h.ordered side).heap.down_of_replaced
        (fun m hm => h.keys_counted v hp (hm.trans_eq (hct side).symm)) hk hkle (Side.le_of_lt hlt)
    rcases sortDown_spec side _ k (rm.counted v) hk hfuel hdown with ⟨hex, hord, hsame⟩
    refine ⟨hex, ordered_of_sides side hord ?_⟩
    refine hother.of_median (hex.ct _) (fun m _ => congrFun hsame m) fun hone => ?_
    rw [← keys_zero _ side.other, hsame, keys_zero]
    exact hother.first hone
  · intro hlt
    exact raise_spec side k _ hk (by rw [hct]; exact hkle) (by rw [hct]; exact h.ct_le _)
      (h.up_replace v hp hk hkle (hct side) (Side.le_iff_not_lt.mpr hlt)) hother

omit hp in
/-- A new item in place of the median. -/
theorem median_sorted (hp : rm.pos rm.idx = 0) (hct : ∀ side, (rm.counted v).ct side = rm.ct side) :
    Sorts (rm.counted v) (rm.counted v).sortMedian := by
  have hkey : ∀ side : Side, ∀ m, 0 < m → m ≤ rm.ct side →
      (rm.counted v).keys side m = rm.keys side m := by
    intro side m hm hle
    rw [h.keys_counted v (k := 0) (by rw [hp, Side.at_zero]) (by rw [hct]; exact hle),
      if_neg (by omega)]
  refine sortMedian_spec _ (rm.key 0) (fun side => ?_) ?_
  · rw [OrderedBelow, hct]
    refine ⟨h.ct_le side, fun c hc hle => ?_⟩
    rw [hkey side c (by omega) hle, hkey side (c / 2) (by omega) (by omega)]
    exact h.ordered side c (by omega) hle
  · intro side hone
    rw [hct] at hone
    rw [hkey side 1 one_pos hone]
    exact (h.ordered side).first hone

end

/-- On the upper side the lower heap is never empty, so the source need not ask. -/
theorem raiseMin_counted (v : α) (hk : k ≤ (rm.counted v).ct .min)
    (h : BinaryHeap.Up Side.min.le ((rm.counted v).keys .min) ((rm.counted v).ct .min) k)
    (hmax : (rm.counted v).maxCt ≠ 0) :
    (rm.counted v).raiseMin k = raise .min k (rm.counted v) := by
  refine raiseMin_eq _ k ?_
  rcases sortUp_spec .min k k (rm.counted v) (le_refl k) hk h with ⟨top, rm', heq, hex, -⟩
  rw [heq, hex.frame.2.2.2.2.1]
  exact hmax

variable (h : rm.Valid items) (v : α)
include h v

/-- While the queue fills up, the new item is put at the end of one of the heaps. -/
theorem insert_filling (hfill : rm.sz < rm.N) : Sorts (rm.counted v) (rm.insert v) := by
  have hsz : (rm.enqueue v).sz = rm.sz + 1 := min_eq_left hfill
  have hp : rm.pos rm.idx = startPos rm.sz := by
    have hpos := h.tables.pos_heap _ (inRange_startPos rm _ hfill)
    rw [h.fresh _ (le_refl _) hfill] at hpos
    rw [h.filling hfill]
    exact hpos
  have hmin := h.minCt_eq
  have hmax := h.maxCt_eq
  by_cases hzero : rm.sz = 0
  · rw [hzero, startPos_zero] at hp
    have hcounted : rm.enqueue v = rm.counted v :=
      counted_of_counts rm.minCt rm.maxCt (by omega) (by omega)
    have hct : ∀ side, (rm.counted v).ct side = rm.ct side := by
      rw [← hcounted]
      intro side
      cases side with
      | min | max => rfl
    simp only [insert, hp]
    rw [if_neg (by decide), if_neg (by decide), hcounted]
    exact h.median_sorted v hp hct
  · rcases startPos_cases rm.sz with ⟨heven, hstart⟩ | ⟨hodd, hstart⟩
    · rw [hstart] at hp
      have hcounted : (rm.enqueue v).withMinCt (rm.minCt + 1) = rm.counted v :=
        counted_of_counts (rm.minCt + 1) rm.maxCt (by omega) (by omega)
      have hct : (rm.counted v).ct .min = rm.sz / 2 := by
        change ((rm.enqueue v).sz - 1) / 2 = _
        omega
      have hother : (rm.counted v).ct .max = rm.ct .max := by
        change (rm.enqueue v).sz / 2 = rm.maxCt
        omega
      have hold : rm.ct .min + 1 = rm.sz / 2 := by
        change rm.minCt + 1 = _
        omega
      have hup := h.up_grow v hp hold hct
      have hinsert : rm.insert v = raise .min (rm.sz / 2) (rm.counted v) := by
        rw [← raiseMin_counted v hct.ge hup (by change (rm.enqueue v).sz / 2 ≠ 0; omega),
          ← hcounted]
        simp only [insert, hp, Side.at]
        rw [if_pos (by omega), if_pos (by change rm.minCt < (rm.N - 1) / 2; omega),
          Int.natAbs_natCast]
        rfl
      rw [hinsert]
      exact h.raise_grow v hp (by omega) hold hct hother
    · rw [hstart] at hp
      have hcounted : (rm.enqueue v).withMaxCt (rm.maxCt + 1) = rm.counted v :=
        counted_of_counts rm.minCt (rm.maxCt + 1) (by omega) (by omega)
      have hct : (rm.counted v).ct .max = (rm.sz + 1) / 2 := by
        change (rm.enqueue v).sz / 2 = _
        omega
      have hother : (rm.counted v).ct .min = rm.ct .min := by
        change ((rm.enqueue v).sz - 1) / 2 = rm.minCt
        omega
      have hold : rm.ct .max + 1 = (rm.sz + 1) / 2 := by
        change rm.maxCt + 1 = _
        omega
      have hinsert : rm.insert v = raise .max ((rm.sz + 1) / 2) (rm.counted v) := by
        rw [← raiseMax_eq, ← hcounted]
        simp only [insert, hp, Side.at]
        rw [if_neg (by omega), if_pos (by omega), if_pos (by change rm.maxCt < rm.N / 2; omega),
          Int.natAbs_neg, Int.natAbs_natCast]
        rfl
      rw [hinsert]
      exact h.raise_grow v hp (by omega) hold hct hother

/-- Once the queue is full, the new item replaces the oldest one where that is. -/
theorem insert_full (hfull : ¬ rm.sz < rm.N) : Sorts (rm.counted v) (rm.insert v) := by
  have hle := h.sz_le
  have hsz : (rm.enqueue v).sz = rm.sz := by
    change min (rm.sz + 1) rm.N = rm.sz
    omega
  have hmin := h.minCt_eq
  have hmax := h.maxCt_eq
  have hcounted : rm.enqueue v = rm.counted v :=
    counted_of_counts rm.minCt rm.maxCt (by omega) (by omega)
  have hct : ∀ side, (rm.counted v).ct side = rm.ct side := by
    rw [← hcounted]
    intro side
    cases side with
    | min | max => rfl
  have hrange := h.tables.pos_range _ h.idx_lt
  have hold : rm.data rm.idx = rm.key (rm.pos rm.idx) := by
    rw [key, h.tables.heap_pos _ h.idx_lt]
  unfold InRange at hrange
  -- The oldest item is in one of the heaps or is the median.
  by_cases hup : rm.pos rm.idx > 0
  · have hp : rm.pos rm.idx = Side.min.at (rm.pos rm.idx).natAbs := by
      simp only [Side.at]
      omega
    set k := (rm.pos rm.idx).natAbs
    have hk : k ≤ rm.ct .min := by
      change k ≤ rm.minCt
      omega
    rcases h.replace_sorted v hp (by omega) hk hct with ⟨hdown, hraise⟩
    simp only [insert]
    rw [if_pos hup, if_neg (by change ¬ rm.minCt < (rm.N - 1) / 2; omega), hold, hp,
      Side.natAbs_at, hcounted]
    by_cases hlt : v > rm.key (Side.min.at k)
    · rw [if_pos hlt]
      exact hdown hlt
    · rw [if_neg hlt, raiseMin_counted v (by rw [hct]; exact hk)
        (h.up_replace v hp (by omega) hk (hct _) (not_lt.mp hlt))
        (by change (rm.enqueue v).sz / 2 ≠ 0; omega)]
      exact hraise hlt
  · by_cases hdown : rm.pos rm.idx < 0
    · have hp : rm.pos rm.idx = Side.max.at (rm.pos rm.idx).natAbs := by
        simp only [Side.at]
        omega
      set k := (rm.pos rm.idx).natAbs
      have hk : k ≤ rm.ct .max := by
        change k ≤ rm.maxCt
        omega
      rcases h.replace_sorted v hp (by omega) hk hct with ⟨hsort, hraise⟩
      simp only [insert]
      rw [if_neg hup, if_pos hdown, if_neg (by change ¬ rm.maxCt < rm.N / 2; omega), hold, hp,
        Side.natAbs_at, hcounted]
      split_ifs with hlt
      · exact hsort hlt
      · rw [raiseMax_eq]
        exact hraise hlt
    · simp only [insert]
      rw [if_neg hup, if_neg hdown, hcounted]
      exact h.median_sorted v (by omega) hct

/-- Inserting an item keeps the invariant, with the window moved on by one. -/
theorem insert : (rm.insert v).Valid (slide rm.N items v) := by
  by_cases hfill : rm.sz < rm.N
  · exact h.of_exchanges (h.insert_filling v hfill)
  · exact h.of_exchanges (h.insert_full v hfill)

end Valid

/-! ## Clearing -/

/-- A cleared object is valid, whatever the memory held. -/
theorem valid_clear (rm : RollingMedian α) (hN : 0 < rm.N) : rm.clear.Valid [] := by
  rcases clearLoop_frame rm.N { rm with idx := 0, minCt := 0, maxCt := 0, sz := 0 } with
    ⟨-, hsize, hidx, hmin, hmax, hsz⟩
  have hN' : rm.clear.N = rm.N := hsize
  have hsz : rm.clear.sz = 0 := hsz
  have hmin : rm.clear.minCt = 0 := hmin
  have hmax : rm.clear.maxCt = 0 := hmax
  have hidx : rm.clear.idx = 0 := hidx
  have hpos : ∀ n, n < rm.N → rm.clear.pos n = startPos n := by
    intro n hn
    rw [clear, pos_clearLoop, if_pos hn]
  have hheap : ∀ i, startItem i < rm.N → rm.clear.heap i = startItem i := by
    intro i hi
    rw [clear, heap_clearLoop, if_pos hi]
  have hitem : ∀ i, rm.clear.InRange i → startItem i < rm.N := by
    intro i hi
    rw [← hN']
    exact startItem_lt _ i (by omega) hi
  refine ⟨by omega, ⟨?_, ?_, ?_, ?_⟩, by omega, by omega, ?_, by omega, by omega, ?_, ?_, ?_⟩
  · intro n hn
    rw [hpos n (by omega)]
    exact inRange_startPos _ n hn
  · intro n hn
    rw [hpos n (by omega), hheap _ (by rw [startItem_startPos]; omega), startItem_startPos]
  · intro i hi
    rw [hheap i (hitem i hi), hN']
    exact hitem i hi
  · intro i hi
    rw [hheap i (hitem i hi), hpos _ (hitem i hi), startPos_startItem]
  · intro _
    rw [hidx, hsz]
  · intro n _ hn
    rw [hheap _ (by rw [startItem_startPos]; omega), startItem_startPos]
  · intro side k hk hle
    -- Neither heap holds an item.
    exfalso
    cases side with
    | min =>
      change k ≤ rm.clear.minCt at hle
      omega
    | max =>
      change k ≤ rm.clear.maxCt at hle
      omega
  · rw [hsz, Nat.sub_zero, drop_of_length_le (by rw [length_ring])]

end RollingMedian

end CocaineNode
