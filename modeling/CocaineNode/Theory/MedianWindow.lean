import CocaineNode.Lib.OrderStatistic
import CocaineNode.Theory.RollingMedian
import Mathlib.Data.Nat.ModEq

/-!
# The Rolling Median Is the Median

With both heaps in order, the item at position 0 has the items of one heap
below it and those of the other above, half of the window on either side. So it
stands in the middle of the sorted window.

## Theorems

* `RollingMedian.run_valid`: Any run of operations keeps the invariant.
* `RollingMedian.run_median`: The median after any run.
-/

namespace CocaineNode

open List BitVec Nat

namespace RollingMedian

section

variable {α : Type}

/-! ## The positions in use -/

/-- The positions of one heap, from the root on. -/
def sidePositions (rm : RollingMedian α) (side : Side) : List Int :=
  (List.range (rm.ct side)).map fun k => side.at (k + 1)

theorem mem_sidePositions {rm : RollingMedian α} {side : Side} {i : Int} :
    i ∈ rm.sidePositions side ↔ ∃ k, k < rm.ct side ∧ side.at (k + 1) = i := by
  rw [sidePositions, mem_map]
  simp only [mem_range]

variable (rm : RollingMedian α)

theorem nodup_sidePositions (side : Side) : (rm.sidePositions side).Nodup := by
  refine List.Nodup.map (fun k l heq => ?_) nodup_range
  have hkl := Side.at_inj.mp heq
  omega

/-- All positions that hold items. -/
def positions (rm : RollingMedian α) : List Int :=
  rm.sidePositions .max ++ 0 :: rm.sidePositions .min

theorem active_of_mem_positions {rm : RollingMedian α} {i : Int} (h : i ∈ rm.positions) :
    rm.Active i := by
  rcases mem_append.mp h with h | h
  · rcases mem_sidePositions.mp h with ⟨k, hk, rfl⟩
    exact active_at hk
  · rcases mem_cons.mp h with rfl | h
    · rw [Active]
      omega
    · rcases mem_sidePositions.mp h with ⟨k, hk, rfl⟩
      exact active_at hk

theorem nodup_positions : rm.positions.Nodup := by
  rw [positions, nodup_append, nodup_cons]
  refine ⟨rm.nodup_sidePositions .max, ⟨?_, rm.nodup_sidePositions .min⟩, ?_⟩
  · intro hmem
    rcases mem_sidePositions.mp hmem with ⟨k, -, heq⟩
    simp only [Side.at] at heq
    omega
  · intro i hi j hj hij
    rcases mem_sidePositions.mp hi with ⟨k, -, rfl⟩
    rcases mem_cons.mp hj with rfl | hj
    · simp only [Side.at] at hij
      omega
    · rcases mem_sidePositions.mp hj with ⟨l, -, rfl⟩
      simp only [Side.at] at hij
      omega

theorem length_positions : rm.positions.length = rm.maxCt + 1 + rm.minCt := by
  simp only [positions, sidePositions, length_append, length_cons, length_map, length_range, ct]
  omega

end

section

variable {α : Type} [LinearOrder α]

/-! ## The items around the median -/

/-- No item of a heap is nearer to the median than the median. -/
theorem OrderedSide.from_median {rm : RollingMedian α} {side : Side} (h : rm.OrderedSide side)
    {k : Nat} (hk : k ≤ rm.ct side) : side.le (rm.key 0) (rm.key (side.at k)) := by
  rw [← keys_zero rm side]
  exact h.heap.from_zero hk

/-- A list without repetitions of numbers below its length is a rearranged range. -/
theorem perm_range_of_nodup {l : List Nat} (hnodup : l.Nodup) (hlt : ∀ n ∈ l, n < l.length) :
    l.Perm (List.range l.length) := by
  refine List.Subperm.perm_of_length_le ?_ (by rw [length_range])
  exact subperm_of_subset hnodup fun n hn => mem_range.mpr (hlt n hn)

namespace Valid

variable {rm : RollingMedian α} {items : List α} (h : rm.Valid items)
include h

/-- The positions in use hold the places of the queue in use. -/
theorem heap_lt_sz (hpos : 0 < rm.sz) {i : Int} (hi : rm.Active i) : rm.heap i < rm.sz := by
  by_contra hge
  have hrange := h.active_inRange i hi
  have hlt := h.tables.heap_lt i hrange
  have hfresh := h.fresh (rm.heap i) (by omega) hlt
  have hsame := h.tables.pos_heap _ (inRange_startPos rm _ hlt)
  rw [hfresh, h.tables.pos_heap i hrange] at hsame
  refine startPos_not_active rm (rm.heap i) hpos (by omega) h.maxCt_eq h.minCt_eq ?_
  rw [← hsame]
  exact hi

theorem heap_positions_perm (hpos : 0 < rm.sz) :
    (rm.positions.map rm.heap).Perm (List.range rm.sz) := by
  have hlen : (rm.positions.map rm.heap).length = rm.sz := by
    rw [length_map, length_positions, h.maxCt_eq, h.minCt_eq]
    omega
  rw [← hlen]
  refine perm_range_of_nodup ?_ ?_
  · refine List.Nodup.map_on (fun i hi j hj heq => ?_) rm.nodup_positions
    rw [← h.tables.pos_heap i (h.active_inRange i (active_of_mem_positions hi)), heq,
      h.tables.pos_heap j (h.active_inRange j (active_of_mem_positions hj))]
  · intro n hn
    rcases mem_map.mp hn with ⟨i, hi, rfl⟩
    rw [hlen]
    exact h.heap_lt_sz hpos (active_of_mem_positions hi)

/-- The window is what the used part of the queue holds. -/
theorem items_perm : items.Perm ((List.range rm.sz).map rm.data) := by
  have hpos := h.pos_N
  by_cases hfull : rm.sz < rm.N
  · -- Until it is full the queue starts at its first place.
    refine List.Perm.of_eq ?_
    rw [h.window]
    refine ext_getElem ?_ fun n hn hn' => ?_
    · rw [length_drop, length_ring, length_map, length_range]
      omega
    · rw [length_map, length_range] at hn'
      have hmod : (rm.idx + (rm.N - rm.sz + n)) % rm.N = n := by
        rw [h.filling hfull, show rm.sz + (rm.N - rm.sz + n) = n + rm.N by omega,
          add_mod_right, mod_eq_of_lt (by omega)]
      simp [ring, hmod]
  · have hsz : rm.sz = rm.N := by
      have hle := h.sz_le
      omega
    have hitems : items = ((range rm.N).map fun n => (rm.idx + n) % rm.N).map rm.data := by
      rw [h.window, hsz, Nat.sub_self, drop_zero, ring, map_map]
      rfl
    rw [hitems, hsz]
    refine List.Perm.map rm.data ?_
    have hlen : ((range rm.N).map fun n => (rm.idx + n) % rm.N).length = rm.N := by
      rw [length_map, length_range]
    have hperm := perm_range_of_nodup (l := (range rm.N).map fun n => (rm.idx + n) % rm.N)
      ?_ ?_
    · rwa [hlen] at hperm
    · refine List.Nodup.map_on (fun n hn m hm heq => ?_) nodup_range
      rw [mem_range] at hn hm
      have hmod : n % rm.N = m % rm.N := Nat.ModEq.add_left_cancel (Nat.ModEq.refl rm.idx) heq
      rwa [mod_eq_of_lt hn, mod_eq_of_lt hm] at hmod
    · intro n hn
      rcases mem_map.mp hn with ⟨m, -, rfl⟩
      rw [hlen]
      exact mod_lt _ hpos

/-- The window split at the median. -/
theorem items_split (hpos : 0 < rm.sz) : items.Perm ((rm.sidePositions .max).map rm.key ++
      rm.key 0 :: (rm.sidePositions .min).map rm.key) := by
  have hperm := ((h.heap_positions_perm hpos).map rm.data).symm
  rw [map_map, positions, map_append, map_cons] at hperm
  exact h.items_perm.trans hperm

end Valid

end

/-! ## The median -/

section

variable {α : Type}

theorem getMid_comm [AddCommMagma α] [Sub α] [Mul α] [Div α] [OfNat α 2] (a b : α) :
    Epee.getMid a b = Epee.getMid b a := by
  rw [Epee.getMid, Epee.getMid, add_comm (a / 2) (b / 2), add_comm (a - 2 * (a / 2))]

variable [LinearOrder α] [AddCommMagma α] [Sub α] [Mul α] [Div α] [OfNat α 2] [OfNat α 0]

/-- One item needs no case of its own. -/
theorem median_eq_sorted {items : List α} (h : items ≠ []) : Epee.median items =
      if items.length % 2 = 1 then (items.insertionSort (· ≤ ·)).getD (items.length / 2) 0
      else Epee.getMid ((items.insertionSort (· ≤ ·)).getD (items.length / 2 - 1) 0)
        ((items.insertionSort (· ≤ ·)).getD (items.length / 2) 0) := by
  match items, h with
  | [x], _ => simp [Epee.median]
  | _ :: _ :: _, _ => rfl

/-- The median of a window that is not empty. -/
theorem Valid.median_eq {rm : RollingMedian α} {items : List α} (h : rm.Valid items)
    (hne : items ≠ []) : rm.median = Epee.median items := by
  have hlen := h.length_items
  have hpos : 0 < rm.sz := by
    rw [← hlen]
    exact length_pos_iff.mpr hne
  have hmin := h.minCt_eq
  have hmax := h.maxCt_eq
  have hsplit := h.items_split hpos
  have hlow : ∀ a ∈ (rm.sidePositions .max).map rm.key, a ≤ rm.key 0 := by
    intro a ha
    rcases mem_map.mp ha with ⟨i, hi, rfl⟩
    rcases mem_sidePositions.mp hi with ⟨k, hk, rfl⟩
    exact (h.ordered .max).from_median hk
  have hhigh : ∀ b ∈ (rm.sidePositions .min).map rm.key, rm.key 0 ≤ b := by
    intro b hb
    rcases mem_map.mp hb with ⟨i, hi, rfl⟩
    rcases mem_sidePositions.mp hi with ⟨k, hk, rfl⟩
    exact (h.ordered .min).from_median hk
  have hcount : ((rm.sidePositions .max).map rm.key).length = items.length / 2 := by
    rw [length_map, sidePositions, length_map, length_range, hlen]
    exact hmax
  have hmid := OrderStatistic.getD_sorted hsplit hlow hhigh 0
  rw [hcount] at hmid
  rw [median_eq_sorted hne, hmid]
  change (if rm.minCt < rm.maxCt then Epee.getMid (rm.key 0) (rm.key (-1)) else rm.key 0) = _
  by_cases hodd : items.length % 2 = 1
  · rw [if_pos hodd, if_neg (by omega)]
  · rw [if_neg hodd, if_pos (by omega), getMid_comm]
    congr 1
    -- The root of the max heap is the largest of the lower items.
    have hroots : (rm.sidePositions .max).map rm.key =
        rm.key (-1) :: ((range (rm.maxCt - 1)).map fun k => rm.key (Side.max.at (k + 2))) := by
      have hct : rm.ct .max = rm.maxCt - 1 + 1 := by
        change rm.maxCt = _
        omega
      rw [sidePositions, hct, range_succ_eq_map, map_cons, map_cons, map_map, map_map]
      rfl
    rw [hroots] at hsplit hlow
    have hpred := OrderStatistic.getD_sorted_pred hsplit ?_ (hlow _ mem_cons_self) hhigh 0
    · rw [length_map, length_range] at hpred
      rw [show items.length / 2 - 1 = rm.maxCt - 1 by omega]
      exact hpred.symm
    · intro a ha
      rcases mem_map.mp ha with ⟨k, hk, rfl⟩
      rw [mem_range] at hk
      refine (h.ordered .max).heap.from_root (k := k + 2) (by omega) ?_
      change k + 2 ≤ rm.maxCt
      omega

end

/-! ## Runs -/

/-- An operation. -/
inductive Op (α : Type) where
  | insert (v : α)
  | clear

section

variable {α : Type}

/-- An operation on the object. -/
def apply [LT α] [DecidableLT α] (rm : RollingMedian α) : Op α → RollingMedian α
  | .insert v => rm.insert v
  | .clear => rm.clear

/-- A run of operations. -/
def run [LT α] [DecidableLT α] (ops : List (Op α)) (rm : RollingMedian α) : RollingMedian α :=
  ops.foldl apply rm

/-- The items inserted since the last `clear`, after one more operation. -/
def sinceClearStep (items : List α) : Op α → List α
  | .insert v => items ++ [v]
  | .clear => []

/-- The items inserted since the last `clear`. -/
def sinceClear (ops : List (Op α)) : List α :=
  ops.foldl sinceClearStep []

/-- The last items of a list, at most `N`. -/
def lastItems (N : Nat) (items : List α) : List α :=
  items.drop (items.length - N)

/-- The last items inserted since the last `clear`, at most `N`. -/
def windowAfter (N : Nat) (ops : List (Op α)) : List α :=
  lastItems N (sinceClear ops)

theorem lastItems_nil (N : Nat) : lastItems N ([] : List α) = [] :=
  drop_nil

variable (N : Nat) (items : List α)

theorem length_lastItems : (lastItems N items).length = min items.length N := by
  rw [lastItems, length_drop]
  omega

theorem slide_lastItems (v : α) : slide N (lastItems N items) v = lastItems N (items ++ [v]) := by
  have hlen := length_lastItems N items
  rw [slide, hlen, lastItems, lastItems, length_append, length_singleton,
    ← drop_append_of_le_length (by omega), drop_drop]
  congr 1
  omega

end

section

variable {α : Type} [LinearOrder α] {rm : RollingMedian α}

theorem valid_construct {sizeofItem N : Nat} {data : Nat → α} {pos : Nat → Int}
    {heap : Int → Nat} (hN : 0 < N)
    (h : construct sizeofItem N data pos heap = some rm) : rm.Valid [] ∧ rm.N = N := by
  unfold construct at h
  by_cases hsize : N * (sizeofItem + 4 * 2) < 2 ^ 31
  · rw [if_pos hsize, Option.some.injEq] at h
    rw [← h]
    exact ⟨valid_clear _ hN, (clearLoop_frame _ _).2.1⟩
  · rw [if_neg hsize] at h
    exact absurd h (by simp)

/-- One operation keeps the invariant and the capacity. -/
theorem apply_valid {items : List α} (h : rm.Valid (lastItems rm.N items)) (op : Op α) :
    (rm.apply op).Valid (lastItems rm.N (sinceClearStep items op)) ∧ (rm.apply op).N = rm.N := by
  cases op with
  | insert v =>
    have hinsert := h.insert v
    rw [slide_lastItems] at hinsert
    refine ⟨hinsert, ?_⟩
    by_cases hfill : rm.sz < rm.N
    · exact (h.insert_filling v hfill).1.frame.2.1
    · exact (h.insert_full v hfill).1.frame.2.1
  | clear =>
    rw [sinceClearStep, lastItems_nil]
    exact ⟨valid_clear rm h.pos_N, (clearLoop_frame _ _).2.1⟩

/-- Any run of operations keeps the invariant. -/
theorem run_valid (ops : List (Op α)) (h : rm.Valid []) :
    (run ops rm).Valid (windowAfter rm.N ops) ∧ (run ops rm).N = rm.N := by
  have hgen : ∀ (ops : List (Op α)) (rm : RollingMedian α) (items : List α),
      rm.Valid (lastItems rm.N items) →
        (run ops rm).Valid (lastItems rm.N (ops.foldl sinceClearStep items)) ∧
          (run ops rm).N = rm.N := by
    intro ops
    induction ops with
    | nil =>
      intro rm items hvalid
      exact ⟨hvalid, rfl⟩
    | cons op ops ih =>
      intro rm items hvalid
      rcases apply_valid hvalid op with ⟨hstep, hN⟩
      rw [← hN] at hstep
      have hrest := ih _ _ hstep
      rw [hN] at hrest
      exact hrest
  refine hgen ops rm [] ?_
  rw [lastItems_nil]
  exact h

end

/-! ## Unsigned integers -/

scoped instance instLinearOrderBitVec (w : Nat) : LinearOrder (BitVec w) where
  le_refl := BitVec.le_refl
  le_trans _ _ _ := BitVec.le_trans
  le_antisymm _ _ := BitVec.le_antisymm
  le_total := BitVec.le_total
  toDecidableLE := inferInstance
  toDecidableLT := inferInstance
  toDecidableEq := inferInstance
  lt_iff_le_not_ge a b := by
    rw [BitVec.lt_def, BitVec.le_def, BitVec.le_def]
    omega

scoped instance instAddCommMagmaBitVec (w : Nat) : AddCommMagma (BitVec w) where
  add_comm := BitVec.add_comm

/-- The mean, rounded down, without overflow. -/
theorem toNat_getMid {w : Nat} (hw : 2 ≤ w) (a b : BitVec w) :
    (Epee.getMid a b).toNat = (a.toNat + b.toNat) / 2 := by
  have hpow : 2 ^ 2 ≤ 2 ^ w := Nat.pow_le_pow_right (by omega) hw
  have htwo : (2 : BitVec w).toNat = 2 := by
    change (BitVec.ofNat w 2).toNat = 2
    rw [toNat_ofNat, mod_eq_of_lt (by omega)]
  have hrest : ∀ c : BitVec w, (c - 2 * (c / 2)).toNat = c.toNat % 2 := by
    intro c
    have hhalf : (2 * (c / 2)).toNat = 2 * (c.toNat / 2) := by
      rw [toNat_mul, toNat_udiv, htwo, mod_eq_of_lt (by omega)]
    rw [toNat_sub_of_le (by rw [le_def, hhalf]; omega), hhalf]
    omega
  rw [Epee.getMid, toNat_add, toNat_add, toNat_udiv, toNat_udiv,
    toNat_udiv, toNat_add, hrest, hrest, htwo,
    mod_eq_of_lt (a := a.toNat % 2 + b.toNat % 2) (by omega),
    mod_eq_of_lt (a := a.toNat / 2 + b.toNat / 2) (by omega), mod_eq_of_lt (by omega)]
  omega

/-- With nothing in the window the answer is whatever the first place holds. -/
theorem Valid.median_nil {w : Nat} {rm : RollingMedian (BitVec w)} (h : rm.Valid []) :
    rm.median = rm.data 0 := by
  have hsz : rm.sz = 0 := h.length_items.symm
  have hheap : rm.heap 0 = 0 := h.fresh 0 hsz.le h.pos_N
  rw [median, h.minCt_eq, h.maxCt_eq, hsz, hheap]
  rfl

/-- The median after any run, of unsigned integers of any width. With no item since the last `clear`
    it is what the first place holds. -/
theorem run_median {w : Nat} (hw : 2 ≤ w) (sizeofItem N : Nat) (hN : 0 < N)
    (hsize : N * (sizeofItem + 4 * 2) < 2 ^ 31) (data : Nat → BitVec w) (pos : Nat → Int)
    (heap : Int → Nat) (ops : List (Op (BitVec w))) :
    ∃ rm, construct sizeofItem N data pos heap = some rm ∧
      (run ops rm).N = N ∧ (run ops rm).Tables ∧ (run ops rm).Ordered ∧
      (run ops rm).maxCt = (windowAfter N ops).length / 2 ∧
      (run ops rm).minCt = ((windowAfter N ops).length - 1) / 2 ∧
      (sinceClear ops ≠ [] → (run ops rm).median = Epee.median (windowAfter N ops)) ∧
      (sinceClear ops = [] → (run ops rm).median = (run ops rm).data 0) ∧
      ∀ a b : BitVec w, (Epee.getMid a b).toNat = (a.toNat + b.toNat) / 2 := by
  have hsome : ∃ rm, construct sizeofItem N data pos heap = some rm := by
    rw [construct, if_pos hsize]
    exact ⟨_, rfl⟩
  rcases hsome with ⟨rm, hrm⟩
  rcases valid_construct hN hrm with ⟨hempty, hcap⟩
  rcases run_valid ops hempty with ⟨hvalid, hkeep⟩
  rw [hcap] at hvalid hkeep
  refine ⟨rm, hrm, hkeep, hvalid.tables, hvalid.ordered, ?_, ?_, ?_, ?_, toNat_getMid hw⟩
  · rw [hvalid.length_items, hvalid.maxCt_eq]
  · rw [hvalid.length_items, hvalid.minCt_eq]
  · intro hne
    refine hvalid.median_eq fun hnil => ?_
    -- A window of at least one item is empty only if nothing was inserted.
    have hlen := length_lastItems N (sinceClear ops)
    have hsome : 0 < (sinceClear ops).length := length_pos_iff.mpr hne
    rw [show lastItems N (sinceClear ops) = [] from hnil, length_nil] at hlen
    omega
  · intro hnil
    rw [windowAfter, hnil, lastItems_nil] at hvalid
    exact hvalid.median_nil

theorem run_median_three :
    ∃ rm : RollingMedian (BitVec 64),
      construct 8 3 (fun _ => 0) (fun _ => 0) (fun _ => 0) = some rm ∧
      (run [.insert 9, .insert 4, .insert 6, .insert 8] rm).median = 6 := by
  rcases run_median (w := 64) (by decide) 8 3 (by decide) (by decide) (fun _ => 0) (fun _ => 0)
    (fun _ => 0) [.insert 9, .insert 4, .insert 6, .insert 8] with ⟨rm, hrm, -, -, -, -, -, hmed, -⟩
  refine ⟨rm, hrm, ?_⟩
  rw [hmed (by simp [sinceClear, sinceClearStep])]
  decide

/-- A cleared object still answers with what its first place held. -/
theorem median_after_clear :
    ∃ rm : RollingMedian (BitVec 64),
      construct 8 1 (fun _ => 0) (fun _ => 0) (fun _ => 0) = some rm ∧
      windowAfter 1 [Op.insert (5 : BitVec 64), .clear] = [] ∧
      (run [.insert 5, .clear] rm).median = 5 ∧ Epee.median ([] : List (BitVec 64)) = 0 :=
  ⟨_, rfl, by decide, by decide, by decide⟩

end RollingMedian

end CocaineNode
