import CocaineNode.Core.TreeHash
import Mathlib.Data.List.GetD

/-!
# Branches of the Tree Hash

A layer of the tree is a function from positions to hashes, and the next layer
hashes neighbours. Each loop of the source is shown to compute one layer: the
first from the list of leaves, the others in place, where a pair is read before
its place is written. A leaf that is followed up the tree is in one pair of each
layer, so each loop moves it once, and what has been collected on the way hashes
to the entry it has reached. At the top that is the root.

The path is a 32-bit word, and takes one bit per layer. There are at most 28
layers over 2^28 leaves, so no bit is lost.

## Theorems

* `TreeHash.branchLayers_leads`: The branch leads to an entry of each layer.
* `TreeHash.treeBranch_accepted`: Every leaf has a branch that is accepted.
-/

namespace CocaineNode

open List Nat

namespace TreeHash

/-! ## The size of the first layer -/

theorem doublePow_spec (fuel count k : Nat) (hk : 2 ^ k < count)
    (hfuel : count ≤ 2 ^ (k + 1 + fuel)) :
    ∃ m, k ≤ m ∧ doublePow (fuel + 1) count (2 ^ (k + 1)) = 2 ^ (m + 1) ∧
      2 ^ m < count ∧ count ≤ 2 ^ (m + 1) := by
  induction fuel generalizing k with
  | zero =>
    refine ⟨k, le_refl k, ?_, hk, hfuel⟩
    rw [doublePow, if_neg (not_lt.mpr hfuel)]
  | succ fuel ih =>
    by_cases hlt : 2 ^ (k + 1) < count
    · rcases ih (k + 1) hlt (by rwa [show k + 1 + 1 + fuel = k + 1 + (fuel + 1) by omega]) with
        ⟨m, hm, heq, hbounds⟩
      refine ⟨m, by omega, ?_, hbounds⟩
      rw [doublePow, if_pos hlt, shiftLeft_eq, pow_one, ← pow_succ]
      exact heq
    · refine ⟨k, Nat.le_refl k, ?_, hk, Nat.le_of_not_lt hlt⟩
      rw [doublePow, if_neg hlt]

theorem pow_succ_shiftRight (k : Nat) : 2 ^ (k + 1) >>> 1 = 2 ^ k := by
  rw [Nat.shiftRight_eq_div_pow, pow_one, Nat.pow_succ, Nat.mul_div_cancel _ (by decide)]

/-- The first full layer has the largest power of two of hashes below the count, and at least
    half the count. -/
theorem treeHashCnt_pow (count : Nat) (h : 3 ≤ count) :
    ∃ k, treeHashCnt count = 2 ^ (k + 1) ∧ 2 ^ (k + 1) < count ∧ count ≤ 2 * 2 ^ (k + 1) := by
  have hfuel : count ≤ 2 ^ (0 + 1 + (count - 1)) := by
    rw [show 0 + 1 + (count - 1) = count by omega]
    exact Nat.lt_two_pow_self.le
  rcases doublePow_spec (count - 1) count 0 (by rw [pow_zero]; omega) hfuel with
    ⟨m, -, heq, hlt, hle⟩
  rw [show count - 1 + 1 = count by omega] at heq
  -- Three leaves need more than one pair.
  have hpos : m ≠ 0 := by
    rintro rfl
    omega
  rcases exists_eq_succ_of_ne_zero hpos with ⟨k, rfl⟩
  refine ⟨k, ?_, hlt, by rwa [← Nat.pow_succ']⟩
  exact (congrArg (· >>> 1) heq).trans (pow_succ_shiftRight _)

/-! ## Layers -/

section

variable (H : Hash → Hash → Hash)

/-- The layer above, in which neighbours are hashed. -/
def nextLayer (layer : Nat → Hash) : Nat → Hash :=
  fun i => H (layer (2 * i)) (layer (2 * i + 1))

/-- A buffer as a layer. -/
def layerOf (ints : List Hash) : Nat → Hash :=
  fun i => ints.getD i 0

theorem layerOf_set (ints : List Hash) (j k : Nat) (h : Hash) (hj : j < ints.length) :
    layerOf (ints.set j h) k = if k = j then h else layerOf ints k := by
  rw [layerOf, layerOf, getD_eq_getElem?_getD, getD_eq_getElem?_getD, getElem?_set]
  by_cases hk : k = j
  · subst hk
    rw [if_pos rfl, if_pos hj, if_pos rfl]
    rfl
  · rw [if_neg (Ne.symm hk), if_neg hk]

variable (hashes : List Hash) (n i j : Nat)

/-- What the first loop leaves in the buffer. -/
theorem layerOf_hashPairs (ints : List Hash) (hlen : j + n ≤ ints.length) (k : Nat) :
    layerOf (hashPairs H hashes n i j ints) k = if j ≤ k ∧ k < j + n then
        H (layerOf hashes (i + 2 * (k - j))) (layerOf hashes (i + 2 * (k - j) + 1))
      else layerOf ints k := by
  induction n generalizing i j ints with
  | zero =>
    rw [hashPairs, if_neg (by omega)]
  | succ n ih =>
    rw [hashPairs, ih _ _ _ (by rw [length_set]; omega), layerOf_set _ _ _ _ (by omega)]
    by_cases hk : k = j
    · subst hk
      rw [if_neg (by omega), if_pos rfl, if_pos (by omega), Nat.sub_self]
      rfl
    · by_cases hin : j + 1 ≤ k ∧ k < j + 1 + n
      · rw [if_pos hin, if_pos (by omega),
          show i + 2 + 2 * (k - (j + 1)) = i + 2 * (k - j) by omega]
      · rw [if_neg hin, if_neg hk, if_neg (by omega)]

theorem length_hashPairs (ints : List Hash) :
    (hashPairs H hashes n i j ints).length = ints.length := by
  induction n generalizing i j ints with
  | zero => rfl
  | succ n ih => rw [hashPairs, ih, length_set]

/-- A further loop writes at or before the places it still has to read, so it reads what was there
    at the start. -/
theorem foldPairs_eq (src : List Hash) (n i j : Nat) (ints : List Hash) (hij : j ≤ i)
    (hlen : j + n ≤ ints.length) (h : ∀ k, i ≤ k → layerOf ints k = layerOf src k) :
    foldPairs H n i j ints = hashPairs H src n i j ints := by
  induction n generalizing i j ints with
  | zero => rfl
  | succ n ih =>
    have hleft : ints.getD i 0 = src.getD i 0 := h i (le_refl i)
    have hright : ints.getD (i + 1) 0 = src.getD (i + 1) 0 := h (i + 1) (le_succ i)
    rw [foldPairs, hashPairs, hleft, hright]
    refine ih _ _ _ (by omega) (by rw [length_set]; omega) fun k hk => ?_
    rw [layerOf_set _ _ _ _ (by omega), if_neg (by omega), h k (by omega)]

/-- One turn of the outer loop computes the next layer. -/
theorem layerOf_foldPairs_next (n : Nat) (ints : List Hash) (hlen : n ≤ ints.length) (k : Nat)
    (hk : k < n) : layerOf (foldPairs H n 0 0 ints) k = nextLayer H (layerOf ints) k := by
  rw [foldPairs_eq H ints n 0 0 ints (le_refl 0) (by omega) fun _ _ => rfl,
    layerOf_hashPairs H ints n 0 0 ints (by omega), if_pos (by omega), Nat.sub_zero, Nat.zero_add]
  rfl

/-! ## Paths and branches -/

theorem pathBit_eq_testBit (path : UInt32) (level : Nat) (h : level < 32) :
    pathBit path level = path.toNat.testBit level := by
  have hshift : (path >>> UInt32.ofNat level &&& 1).toNat = path.toNat >>> level % 2 := by
    rw [UInt32.toNat_and, UInt32.toNat_shiftRight, UInt32.toNat_ofNat',
      mod_eq_of_lt (by omega : level < 2 ^ 32), mod_eq_of_lt h]
    exact and_two_pow_sub_one_eq_mod _ 1
  rw [pathBit, testBit_eq_decide_div_mod_eq, ← shiftRight_eq_div_pow, ← hshift]
  rw [decide_eq_decide, ne_eq, ← UInt32.toNat_inj]
  change ¬ _ = 0 ↔ _
  omega

/-- One more bit at the end of a path. -/
theorem toNat_extend (path : UInt32) (right : Bool) (h : path.toNat < 2 ^ 31) :
    (path <<< 1 ||| (if right then 1 else 0)).toNat = 2 * path.toNat + right.toNat := by
  have hshift : (path <<< 1).toNat = path.toNat <<< 1 := by
    change path.toNat <<< 1 % 2 ^ 32 = _
    omega
  have hbit : (if right then 1 else 0 : UInt32).toNat = right.toNat := by
    cases right <;> rfl
  rw [UInt32.toNat_or, hshift, hbit, ← shiftLeft_add_eq_or_of_lt (i := 1) right.toNat_lt,
    shiftLeft_eq, Nat.mul_comm]

/-- One more sibling is hashed last, on the side that the last bit says. -/
theorem treeBranchHash_concat (hash sibling : Hash) (branch : List Hash) (path : UInt32)
    (right : Bool) (hlen : branch.length < 31) (hpath : path.toNat < 2 ^ branch.length) :
    treeBranchHash H hash (branch ++ [sibling]) (branch.length + 1)
        (path <<< 1 ||| (if right then 1 else 0)) =
      if right then H sibling (treeBranchHash H hash branch branch.length path)
      else H (treeBranchHash H hash branch branch.length path) sibling := by
  have hextend := toNat_extend path right
    (hpath.trans_le (Nat.pow_le_pow_right (by decide) hlen.le))
  set path' := path <<< 1 ||| (if right then 1 else 0)
  rw [treeBranchHash, range_succ, foldl_concat]
  -- Below the last level nothing changes.
  have hbelow : (range branch.length).foldl
      (fun acc d =>
        if pathBit path' (branch.length + 1 - d - 1) then H ((branch ++ [sibling]).getD d 0) acc
        else H acc ((branch ++ [sibling]).getD d 0)) hash =
      treeBranchHash H hash branch branch.length path := by
    rw [treeBranchHash]
    refine foldl_ext _ _ _ fun acc d hd => ?_
    rw [mem_range] at hd
    have hbit : pathBit path' (branch.length + 1 - d - 1) =
        pathBit path (branch.length - d - 1) := by
      rw [pathBit_eq_testBit _ _ (by omega), pathBit_eq_testBit _ _ (by omega), hextend,
        show branch.length + 1 - d - 1 = branch.length - d - 1 + 1 by omega, testBit_succ]
      congr 1
      have hright : right.toNat < 2 := Bool.toNat_lt right
      omega
    rw [hbit, getD_append _ _ _ _ hd]
  have hlast : pathBit path' (branch.length + 1 - branch.length - 1) = right := by
    rw [Nat.add_sub_cancel_left, pathBit_eq_testBit _ _ (by decide), hextend, Nat.testBit_zero]
    cases right with
    | false | true => simp
  have hsibling : (branch ++ [sibling]).getD branch.length 0 = sibling := by
    rw [getD_append_right _ _ _ _ (Nat.le_refl _), Nat.sub_self]
    rfl
  rw [hbelow, hlast, hsibling]

/-- What has been collected leads from the leaf to a hash. -/
structure Leads (hash : Hash) (b : Branch) (target : Hash) : Prop where
  hashes : treeBranchHash H hash b.branch b.branch.length b.walk.path = target
  path_lt : b.walk.path.toNat < 2 ^ b.branch.length

/-- A pair that is visited leads on to its hash. -/
theorem Leads.visit {H : Hash → Hash → Hash} {hash : Hash} {b : Branch}
    {src : List Hash} (i j : Nat)
    (h : Leads H hash b (layerOf src b.walk.idx)) (hlen : b.branch.length < 31)
    (hin : b.walk.idx = i ∨ b.walk.idx = i + 1) :
    Leads H hash (b.visit src i j) (H (layerOf src i) (layerOf src (i + 1))) ∧
      (b.visit src i j).walk.idx = j ∧ (b.visit src i j).branch.length = b.branch.length + 1 := by
  set right : Bool := decide (b.walk.idx ≠ i) with hright
  have hbit : (if b.walk.idx = i then 0 else 1 : UInt32) = if right then 1 else 0 := by
    by_cases hidx : b.walk.idx = i
    · simp [hright, hidx]
    · simp [hright, hidx]
  have hvisit : b.visit src i j = ⟨⟨j, b.walk.path <<< 1 ||| (if right then 1 else 0)⟩,
      b.branch ++ [layerOf src (if b.walk.idx = i then i + 1 else i)]⟩ := by
    rw [Branch.visit, Walk.visit, if_pos hin, if_pos hin, hbit]
    rfl
  have hlength : (b.branch ++ [layerOf src (if b.walk.idx = i then i + 1 else i)]).length =
      b.branch.length + 1 := by
    rw [length_append, length_singleton]
  rw [hvisit]
  refine ⟨⟨?_, ?_⟩, rfl, hlength⟩
  · simp only [hlength]
    rw [treeBranchHash_concat H _ _ _ _ _ hlen h.path_lt, h.hashes]
    by_cases hidx : b.walk.idx = i
    · simp [hright, hidx]
    · have hnext : b.walk.idx = i + 1 := hin.resolve_left hidx
      simp [hright, hnext]
  · simp only [hlength]
    rw [toNat_extend _ _ (h.path_lt.trans_le (Nat.pow_le_pow_right (by decide) hlen.le)), pow_succ]
    have hpath := h.path_lt
    have hlt : right.toNat < 2 := Bool.toNat_lt right
    omega

/-! ## The loops -/

/-- The branch part of a loop over pairs, with the hashes it reads fixed. -/
def visitPairs (src : List Hash) : Nat → Nat → Nat → Branch → Branch
  | 0, _, _, b => b
  | n + 1, i, j, b => visitPairs src n (i + 2) (j + 1) (b.visit src i j)

theorem visitPairs_walk (src : List Hash) (n i j : Nat) (b : Branch) :
    (visitPairs src n i j b).walk = walkPairs n i j b.walk := by
  induction n generalizing i j b with
  | zero => rfl
  | succ n ih => exact ih _ _ _

theorem branchHashPairs_eq (b : Branch) (ints : List Hash) : branchHashPairs H hashes n i j b ints =
      (visitPairs hashes n i j b, hashPairs H hashes n i j ints) := by
  induction n generalizing i j b ints with
  | zero => rfl
  | succ n ih => exact ih _ _ _ _

section

variable (src : List Hash) (n i j : Nat) (b : Branch)

/-- The siblings of a layer are read before their places are overwritten. -/
theorem branchFoldPairs_eq (ints : List Hash) (hij : j ≤ i) (hlen : j + n ≤ ints.length)
    (h : ∀ k, i ≤ k → layerOf ints k = layerOf src k) :
    branchFoldPairs H n i j b ints = (visitPairs src n i j b, foldPairs H n i j ints) := by
  induction n generalizing i j b ints with
  | zero => rfl
  | succ n ih =>
    have hvisit : b.visit ints i j = b.visit src i j := by
      have hread : ints.getD (if b.walk.idx = i then i + 1 else i) 0 =
          src.getD (if b.walk.idx = i then i + 1 else i) 0 := by
        refine h _ ?_
        split <;> omega
      rw [Branch.visit, Branch.visit, hread]
    rw [branchFoldPairs, foldPairs, visitPairs, hvisit]
    refine ih _ _ _ _ (by omega) (by rw [length_set]; omega) fun k hk => ?_
    rw [layerOf_set _ _ _ _ (by omega), if_neg (by omega), h k (by omega)]

theorem visitPairs_of_lt (h : b.walk.idx < i) : visitPairs src n i j b = b := by
  induction n generalizing i j with
  | zero => rfl
  | succ n ih =>
    have hvisit : b.visit src i j = b := by
      rw [Branch.visit, Walk.visit, if_neg (by omega), if_neg (by omega)]
    rw [visitPairs, hvisit]
    exact ih _ _ (by omega)

/-- A loop visits the pair the leaf is in, and no other: afterwards the leaf is below all pairs
    that are left. -/
theorem visitPairs_visit (hij : j ≤ i) (hle : i ≤ b.walk.idx) (hlt : b.walk.idx < i + 2 * n) :
    visitPairs src n i j b =
      b.visit src (i + 2 * ((b.walk.idx - i) / 2)) (j + (b.walk.idx - i) / 2) := by
  induction n generalizing i j with
  | zero => omega
  | succ n ih =>
    by_cases hin : b.walk.idx = i ∨ b.walk.idx = i + 1
    · have hzero : (b.walk.idx - i) / 2 = 0 := by omega
      rw [visitPairs, hzero, mul_zero, add_zero, add_zero]
      refine visitPairs_of_lt _ _ _ _ _ ?_
      rw [Branch.visit, Walk.visit, if_pos hin]
      change j < i + 2
      omega
    · have hvisit : b.visit src i j = b := by
        rw [Branch.visit, Walk.visit, if_neg hin, if_neg hin]
      rw [visitPairs, hvisit, ih (i + 2) (j + 1) (by omega) (by omega) (by omega),
        show (b.walk.idx - i) / 2 = (b.walk.idx - (i + 2)) / 2 + 1 by omega]
      congr 1
      · omega
      · omega

end

theorem visitPairs_leads {hash : Hash} {b : Branch} {src : List Hash} (n i j : Nat) (hij : j ≤ i)
    (hle : i ≤ b.walk.idx) (hlt : b.walk.idx < i + 2 * n) (hlen : b.branch.length < 31)
    (h : Leads H hash b (layerOf src b.walk.idx)) :
    Leads H hash (visitPairs src n i j b) (H (layerOf src (i + 2 * ((b.walk.idx - i) / 2)))
          (layerOf src (i + 2 * ((b.walk.idx - i) / 2) + 1))) ∧
      (visitPairs src n i j b).walk.idx = j + (b.walk.idx - i) / 2 ∧
      (visitPairs src n i j b).branch.length = b.branch.length + 1 := by
  rw [visitPairs_visit src n i j b hij hle hlt]
  exact h.visit _ _ hlen (by omega)

/-- The outer loop keeps what has been collected leading to the entry it has reached. -/
theorem branchLayers_leads {hash : Hash} (k fuel : Nat) (b : Branch) (ints : List Hash)
    (hfuel : k ≤ fuel) (hints : 2 ^ (k + 1) ≤ ints.length) (hidx : b.walk.idx < 2 ^ (k + 1))
    (hlen : b.branch.length + k < 31) (h : Leads H hash b (layerOf ints b.walk.idx)) :
    ∃ b', branchLayers H fuel (2 ^ (k + 1)) b ints = (b', foldLayers H fuel (2 ^ (k + 1)) ints) ∧
      b'.walk = walkLayers fuel (2 ^ (k + 1)) b.walk ∧ b'.walk.idx < 2 ∧
      b'.branch.length = b.branch.length + k ∧
      Leads H hash b' (layerOf (foldLayers H fuel (2 ^ (k + 1)) ints) b'.walk.idx) := by
  induction k generalizing fuel b ints with
  | zero =>
    cases fuel with
    | zero => exact ⟨b, rfl, rfl, hidx, rfl, h⟩
    | succ fuel =>
      refine ⟨b, ?_, ?_, hidx, rfl, ?_⟩
      · rw [branchLayers, foldLayers, if_neg (by decide), if_neg (by decide)]
      · rw [walkLayers, if_neg (by decide)]
      · rw [foldLayers, if_neg (by decide)]
        exact h
  | succ k ih =>
    cases fuel with
    | zero => omega
    | succ fuel =>
      have hgt : 2 ^ (k + 1 + 1) > 2 := by
        omega
      have hhalf : 2 ^ (k + 1) ≤ ints.length :=
        (Nat.pow_le_pow_right (by decide) (Nat.le_succ _)).trans hints
      rw [pow_succ] at hidx
      rcases visitPairs_leads H (2 ^ (k + 1)) 0 0 (le_refl 0) (zero_le _) (by omega)
        (by omega) h with ⟨hleads, hreached, hlength⟩
      simp only [zero_add] at hleads hreached
      set b₁ := visitPairs ints (2 ^ (k + 1)) 0 0 b with hb₁
      have hpairs := foldPairs_eq H ints (2 ^ (k + 1)) 0 0 ints (le_refl 0) (by omega)
        fun _ _ => rfl
      have hentry : Leads H hash b₁
          (layerOf (foldPairs H (2 ^ (k + 1)) 0 0 ints) b₁.walk.idx) := by
        rw [hreached, layerOf_foldPairs_next H _ ints hhalf _ (by omega)]
        exact hleads
      rcases ih fuel b₁ (foldPairs H (2 ^ (k + 1)) 0 0 ints) (by omega)
        (by rw [hpairs, length_hashPairs]; exact hhalf) (by omega) (by omega) hentry with
        ⟨b', heq, hwalk, hidx', hlength', hleads'⟩
      refine ⟨b', ?_, ?_, hidx', by omega, ?_⟩
      · rw [branchLayers, if_pos hgt, pow_succ_shiftRight, foldLayers, if_pos hgt,
          pow_succ_shiftRight,
            branchFoldPairs_eq H ints _ _ _ _ _ (le_refl 0) (by omega) fun _ _ => rfl]
        exact heq
      · rw [hwalk, walkLayers, if_pos hgt, pow_succ_shiftRight, hb₁, visitPairs_walk]
      · rw [foldLayers, if_pos hgt, pow_succ_shiftRight]
        exact hleads'

/-! ## Whole trees -/

variable (hashes : List Hash)

theorem length_startInts (cnt : Nat) (hle : hashes.length ≤ 2 * cnt)
    (hlt : cnt < hashes.length) : (startInts hashes cnt).length = cnt := by
  rw [startInts, length_append, length_take, length_replicate]
  omega

theorem layerOf_startInts (cnt k : Nat) (hlt : cnt < hashes.length)
    (hk : k < 2 * cnt - hashes.length) : layerOf (startInts hashes cnt) k = layerOf hashes k := by
  have hlen : k < (hashes.take (2 * cnt - hashes.length)).length := by
    rw [length_take]
    omega
  rw [layerOf, startInts, getD_append _ _ _ _ hlen, getD_eq_getElem?_getD,
    getElem?_take, if_pos hk, ← getD_eq_getElem?_getD]
  rfl

/-- A leaf is either kept in the first layer or hashed into it with its neighbour. -/
theorem firstLayer_leads (idx cnt : Nat) (hidx : idx < hashes.length)
    (hlt : cnt < hashes.length) (hle : hashes.length ≤ 2 * cnt) :
    let kept := 2 * cnt - hashes.length
    let b := visitPairs hashes (cnt - kept) kept kept ⟨⟨idx, 0⟩, []⟩
    b.walk.idx < cnt ∧ b.branch.length ≤ 1 ∧ Leads H (layerOf hashes idx) b
        (layerOf (hashPairs H hashes (cnt - kept) kept kept
          (startInts hashes cnt)) b.walk.idx) := by
  intro kept b
  have hstart : Leads H (layerOf hashes idx) ⟨⟨idx, 0⟩, []⟩ (layerOf hashes idx) :=
    ⟨rfl, zero_lt_one⟩
  have hints := length_startInts hashes cnt hle hlt
  by_cases hin : kept ≤ idx
  · have hend : idx < kept + 2 * (cnt - kept) := by omega
    have hempty : ([] : List Hash).length < 31 := by decide
    rcases visitPairs_leads H (b := ⟨⟨idx, 0⟩, []⟩) (cnt - kept) kept kept (le_refl _) hin hend
      hempty hstart with ⟨hleads, hreached, hlength⟩
    have hreached : b.walk.idx = kept + (idx - kept) / 2 := hreached
    refine ⟨by omega, hlength.le, ?_⟩
    rw [hreached, layerOf_hashPairs H hashes _ _ _ _ (by omega), if_pos (by omega),
      Nat.add_sub_cancel_left]
    exact hleads
  · have hb : b = ⟨⟨idx, 0⟩, []⟩ :=
      visitPairs_of_lt hashes _ _ _ _ (show idx < kept by omega)
    rw [hb]
    refine ⟨show idx < cnt by omega, zero_le 1, ?_⟩
    change Leads H _ _ (layerOf (hashPairs H hashes (cnt - kept) kept kept _) idx)
    rw [layerOf_hashPairs H hashes _ _ _ _ (by omega), if_neg (by omega),
      layerOf_startInts hashes cnt idx hlt (by omega)]
    exact hstart

/-- The branch of a leaf leads to the root, along the path of its first position. -/
def HasBranch (hashes : List Hash) (hash : Hash) : Prop :=
  ∃ branch path, treeBranch H hashes hash = some (branch, branch.length, path) ∧
    treeBranchHash H hash branch branch.length path = treeHash H hashes ∧
    treePath hashes.length (hashes.idxOf hash) = some path

/-- With three leaves or more, the branch of a leaf leads to the root. -/
theorem treeBranch_large (hash : Hash) (hmem : hash ∈ hashes)
    (hlarge : 3 ≤ hashes.length) (hsmall : hashes.length ≤ 2 ^ 28) : HasBranch H hashes hash := by
  rcases treeHashCnt_pow hashes.length hlarge with ⟨k, hcnt, hlt, hle⟩
  have hidx : hashes.idxOf hash < hashes.length := idxOf_lt_length_of_mem hmem
  have hleaf : layerOf hashes (hashes.idxOf hash) = hash := by
    rw [layerOf, getD_eq_getElem _ _ hidx, getElem_idxOf]
  have hdepth : k + 1 < 28 := (Nat.pow_lt_pow_iff_right (by decide)).mp (hlt.trans_le hsmall)
  set cnt := 2 ^ (k + 1)
  set kept := 2 * cnt - hashes.length
  rcases firstLayer_leads H hashes _ cnt hidx hlt hle with ⟨hidx₁, hlen₁, hleads₁⟩
  set b₁ := visitPairs hashes (cnt - kept) kept kept ⟨⟨hashes.idxOf hash, 0⟩, []⟩ with hb₁
  set ints₁ := hashPairs H hashes (cnt - kept) kept kept (startInts hashes cnt) with hints₁
  have hints : ints₁.length = cnt := by
    rw [hints₁, length_hashPairs, length_startInts hashes cnt hle hlt]
  have hfuel : k ≤ cnt := (Nat.lt_two_pow_self (n := k + 1)).le.trans' (Nat.le_succ k)
  rw [hleaf] at hleads₁
  rcases branchLayers_leads H k cnt b₁ ints₁ hfuel hints.ge hidx₁ (by omega) hleads₁ with
    ⟨b₂, heq, hwalk, hidx₂, hlen₂, hleads₂⟩
  set ints₂ := foldLayers H cnt cnt ints₁
  -- The last two hashes are one more pair.
  rcases hleads₂.visit 0 0 (by omega) (by omega) with ⟨hleads, -, -⟩
  refine ⟨(b₂.visit ints₂ 0 0).branch, (b₂.visit ints₂ 0 0).walk.path, ?_, ?_, ?_⟩
  · simp only [treeBranch, hcnt]
    rw [if_neg (by omega), if_neg (by omega), if_neg (by omega), branchHashPairs_eq]
    rw [heq]
  · rw [hleads.hashes]
    simp only [treeHash, hcnt]
    rw [if_neg (by omega), if_neg (by omega)]
    rfl
  · simp only [treePath, hcnt]
    rw [if_neg (by omega), if_neg (by omega), if_neg (by omega)]
    rw [← visitPairs_walk hashes (cnt - kept) kept kept ⟨⟨hashes.idxOf hash, 0⟩, []⟩,
      ← hb₁, ← hwalk]
    rfl

/-- Two leaves. -/
theorem treeBranch_pair (hash : Hash) (hmem : hash ∈ hashes) (hlen : hashes.length = 2) :
    HasBranch H hashes hash := by
  rcases length_eq_two.mp hlen with ⟨a, c, rfl⟩
  by_cases ha : hash = a
  · subst ha
    have hidx : [hash, c].idxOf hash = 0 := idxOf_cons_self
    refine ⟨[c], 0, ?_, ?_, ?_⟩
    · simp [treeBranch, hidx]
    · simp [treeBranchHash, treeHash, pathBit]
    · simp [treePath, hidx]
  · have hc : hash = c := by simpa [ha] using hmem
    subst hc
    have hidx : [a, hash].idxOf hash = 1 := by
      rw [idxOf_cons_ne _ (Ne.symm ha), idxOf_cons_self]
    refine ⟨[a], 1, ?_, ?_, ?_⟩
    · simp [treeBranch, hidx]
    · simp [treeBranchHash, treeHash, pathBit]
    · simp [treePath, hidx]

/-- Every leaf of a tree has a branch that is accepted, and its path is the path of the leaf's
    first position. -/
theorem treeBranch_accepted (hashes : List Hash) (hne : hashes ≠ [])
    (hlen : hashes.length ≤ 2 ^ 28) (hash : Hash) (hmem : hash ∈ hashes) :
    ∃ branch depth path, treeBranch H hashes hash = some (branch, depth, path) ∧
      treeBranchHash H hash branch depth path = treeHash H hashes ∧
      isBranchInTree H hash (treeHash H hashes) branch depth path = true ∧
      treePath hashes.length (hashes.idxOf hash) = some path := by
  have hpos : 0 < hashes.length := length_pos_iff.mpr hne
  have hbranch : HasBranch H hashes hash := by
    by_cases hlarge : 3 ≤ hashes.length
    · exact treeBranch_large H hashes hash hmem hlarge hlen
    · by_cases hpair : hashes.length = 2
      · exact treeBranch_pair H hashes hash hmem hpair
      · rcases length_eq_one_iff.mp (show hashes.length = 1 by omega) with ⟨a, rfl⟩
        have ha : hash = a := by simpa using hmem
        subst ha
        refine ⟨[], 0, ?_, rfl, ?_⟩
        · simp [treeBranch]
        · simp [treePath]
  rcases hbranch with ⟨branch, path, heq, hroot, hpath⟩
  exact ⟨branch, branch.length, path, heq, hroot, decide_eq_true hroot, hpath⟩

end

/-- Five leaves, one of them twice. -/
theorem treeBranch_accepted_five :
    ([3, 1, 4, 1, 5] : List Hash) ≠ [] ∧ (1 : Hash) ∈ ([3, 1, 4, 1, 5] : List Hash) ∧
      ∃ branch depth path,
        treeBranch (fun a b => 3 * a + b) [3, 1, 4, 1, 5] 1 = some (branch, depth, path) ∧
        treeBranchHash (fun a b => 3 * a + b) 1 branch depth path =
          treeHash (fun a b => 3 * a + b) [3, 1, 4, 1, 5] ∧
        isBranchInTree (fun a b => 3 * a + b) 1 (treeHash (fun a b => 3 * a + b) [3, 1, 4, 1, 5])
          branch depth path = true ∧
        treePath 5 (([3, 1, 4, 1, 5] : List Hash).idxOf 1) = some path :=
  ⟨by decide, by decide, treeBranch_accepted (fun a b => 3 * a + b) [3, 1, 4, 1, 5] (by decide)
    (by decide) 1 (by decide)⟩

end TreeHash

end CocaineNode
