import Mathlib.Algebra.Group.Nat.Defs
import Mathlib.Data.List.Sort

/-!
# The Rolling Median

`rolling_median_t` (`contrib/epee/include/rolling_median.h`): the median of the
last `N` items, kept in place. The items stand in a circular queue `data`. The
array `heap` holds queue indices at positions from `-(N / 2)` to `(N - 1) / 2`:
the median at 0, a heap of the items above it at the positive positions and one
of the items below it at the negative ones. `pos` is the inverse of `heap`.

The two heaps are mirror images, and the functions that sort them come in pairs.
A pair is one definition here, with the side as a parameter; a position is its
distance from the median. The two branches of `insert` differ, and are written
out.

The arrays are functions on indices. What `malloc` returns is arbitrary. The
constructor computes the size of its allocation as an `int`; an object whose
size does not fit is not built.

## Main definitions

* `RollingMedian`: The object.
* `RollingMedian.insert`, `RollingMedian.clear`, `RollingMedian.median`: Its operations.
-/

namespace CocaineNode

/-! ## The median of a vector -/

namespace Epee

section

variable {α : Type} [Add α] [Sub α] [Mul α] [Div α] [OfNat α 2]

/-- `epee::misc_utils::get_mid`. -/
def getMid (a b : α) : α :=
  a / 2 + b / 2 + ((a - 2 * (a / 2)) + (b - 2 * (b / 2))) / 2

/-- `epee::misc_utils::median`. -/
def median [LE α] [DecidableLE α] [OfNat α 0] (v : List α) : α :=
  match v with
  | [] => 0
  | [x] => x
  | _ =>
    let n := v.length / 2
    let sorted := v.insertionSort (· ≤ ·)
    if v.length % 2 = 1 then sorted.getD n 0 else getMid (sorted.getD (n - 1) 0) (sorted.getD n 0)

end

end Epee

/-! ## The object -/

/-- `rolling_median_t`. -/
structure RollingMedian (α : Type) where
  data : Nat → α
  pos : Nat → Int
  heap : Int → Nat
  N : Nat
  idx : Nat
  minCt : Nat
  maxCt : Nat
  sz : Nat

namespace RollingMedian

/-- The heap of the items above the median, and that of the items below it. -/
inductive Side where
  | min
  | max
  deriving DecidableEq

/-- The position at a distance from the median. -/
def Side.at : Side → Nat → Int
  | .min, k => k
  | .max, k => -k

section

variable {α : Type}

/-- `minCt` or `maxCt`. -/
def ct (rm : RollingMedian α) : Side → Nat
  | .min => rm.minCt
  | .max => rm.maxCt

/-- `mmexchange`. -/
def mmexchange (rm : RollingMedian α) (i j : Int) : RollingMedian α :=
  let t := rm.heap i
  let heap := Function.update (Function.update rm.heap i (rm.heap j)) j t
  { rm with heap, pos := Function.update (Function.update rm.pos (heap i) i) (heap j) j }

/-- The position an item is first put at: median, max, min, max, and so on. -/
def startPos (n : Nat) : Int :=
  ((n + 1) / 2 : Nat) * (if n % 2 = 1 then -1 else 1)

/-- The loop of `clear`. -/
def clearLoop : Nat → RollingMedian α → RollingMedian α
  | 0, rm => rm
  | n + 1, rm =>
    let pos := Function.update rm.pos n (startPos n)
    clearLoop n { rm with pos, heap := Function.update rm.heap (pos n) n }

/-- `clear`. -/
def clear (rm : RollingMedian α) : RollingMedian α :=
  clearLoop rm.N { rm with idx := 0, minCt := 0, maxCt := 0, sz := 0 }

/-- The constructor, on a fresh allocation for items of a given size. -/
def construct (sizeofItem N : Nat) (data : Nat → α) (pos : Nat → Int) (heap : Int → Nat) :
    Option (RollingMedian α) :=
  if N * (sizeofItem + 4 * 2) < 2 ^ 31 then
    some (clear { data, pos, heap, N, idx := 0, minCt := 0, maxCt := 0, sz := 0 })
  else none

variable [LT α] [DecidableLT α]

/-- `mmless`. -/
def mmless (rm : RollingMedian α) (i j : Int) : Bool :=
  rm.data (rm.heap i) < rm.data (rm.heap j)

/-- `mmCmpExch`. -/
def mmCmpExch (rm : RollingMedian α) (i j : Int) : Bool × RollingMedian α :=
  if rm.mmless i j then (true, rm.mmexchange i j) else (false, rm)

/-- Whether the item at one distance belongs nearer to the median than that at another. -/
def nearer (rm : RollingMedian α) (side : Side) (k l : Nat) : Bool :=
  match side with
  | .min => rm.mmless (Side.min.at k) (Side.min.at l)
  | .max => rm.mmless (Side.max.at l) (Side.max.at k)

/-- The call of `mmCmpExch` on an item and one nearer to the median. -/
def cmpExch (rm : RollingMedian α) (side : Side) (k l : Nat) : Bool × RollingMedian α :=
  match side with
  | .min => rm.mmCmpExch (Side.min.at k) (Side.min.at l)
  | .max => rm.mmCmpExch (Side.max.at l) (Side.max.at k)

/-- The loop of `minSortDown` and `maxSortDown`. -/
def sortDown (side : Side) : Nat → Nat → RollingMedian α → RollingMedian α
  | 0, _, rm => rm
  | fuel + 1, k, rm =>
    let i := 2 * k
    if i ≤ rm.ct side then
      let i := if i < rm.ct side && rm.nearer side (i + 1) i then i + 1 else i
      let r := rm.cmpExch side i (i / 2)
      if r.1 then sortDown side fuel i r.2 else rm
    else rm

/-- `minSortDown`. -/
def minSortDown (rm : RollingMedian α) (k : Nat) : RollingMedian α :=
  sortDown .min rm.N k rm

/-- `maxSortDown`, at the position `-k`. -/
def maxSortDown (rm : RollingMedian α) (k : Nat) : RollingMedian α :=
  sortDown .max rm.N k rm

/-- The loop of `minSortUp` and `maxSortUp`; whether it came to the median. -/
def sortUp (side : Side) : Nat → Nat → RollingMedian α → Bool × RollingMedian α
  | 0, k, rm => (k = 0, rm)
  | fuel + 1, k, rm =>
    if k > 0 then
      let r := rm.cmpExch side k (k / 2)
      if r.1 then sortUp side fuel (k / 2) r.2 else (false, rm)
    else (true, rm)

/-- `minSortUp`. -/
def minSortUp (rm : RollingMedian α) (k : Nat) : Bool × RollingMedian α :=
  sortUp .min k k rm

/-- `maxSortUp`, at the position `-k`. -/
def maxSortUp (rm : RollingMedian α) (k : Nat) : Bool × RollingMedian α :=
  sortUp .max k k rm

/-- The queue with the new item. -/
def enqueue (rm : RollingMedian α) (v : α) : RollingMedian α :=
  { rm with
    data := Function.update rm.data rm.idx v
    idx := (rm.idx + 1) % rm.N
    sz := min (rm.sz + 1) rm.N }

def withMinCt (rm : RollingMedian α) (minCt : Nat) : RollingMedian α :=
  { rm with minCt }

def withMaxCt (rm : RollingMedian α) (maxCt : Nat) : RollingMedian α :=
  { rm with maxCt }

/-- An item in the min heap moves up, and past the median if it has to. -/
def raiseMin (rm : RollingMedian α) (k : Nat) : RollingMedian α :=
  let r := rm.minSortUp k
  if r.1 then
    let e := r.2.mmCmpExch 0 (-1)
    if e.1 then e.2.maxSortDown 1 else e.2
  else r.2

/-- An item in the max heap moves up, and past the median if it has to. Here the other heap may be
    empty. -/
def raiseMax (rm : RollingMedian α) (k : Nat) : RollingMedian α :=
  let r := rm.maxSortUp k
  if r.1 && r.2.minCt ≠ 0 then
    let e := r.2.mmCmpExch 1 0
    if e.1 then e.2.minSortDown 1 else e.2
  else r.2

/-- A new item at the median. -/
def sortMedian (rm : RollingMedian α) : RollingMedian α :=
  let rm :=
    if rm.maxCt ≠ 0 then
      let r := rm.maxSortUp 1
      if r.1 then r.2.maxSortDown 1 else r.2
    else rm
  if rm.minCt ≠ 0 then
    let r := rm.minSortUp 1
    if r.1 then r.2.minSortDown 1 else r.2
  else rm

/-- `insert`. -/
def insert (rm : RollingMedian α) (v : α) : RollingMedian α :=
  let p := rm.pos rm.idx
  let old := rm.data rm.idx
  let rm := rm.enqueue v
  if p > 0 then
    if rm.minCt < (rm.N - 1) / 2 then (rm.withMinCt (rm.minCt + 1)).raiseMin p.natAbs
    else if v > old then rm.minSortDown p.natAbs
    else rm.raiseMin p.natAbs
  else if p < 0 then
    if rm.maxCt < rm.N / 2 then (rm.withMaxCt (rm.maxCt + 1)).raiseMax p.natAbs
    else if v < old then rm.maxSortDown p.natAbs
    else rm.raiseMax p.natAbs
  else rm.sortMedian

/-- `median`. -/
def median [Add α] [Sub α] [Mul α] [Div α] [OfNat α 2] (rm : RollingMedian α) : α :=
  let v := rm.data (rm.heap 0)
  if rm.minCt < rm.maxCt then Epee.getMid v (rm.data (rm.heap (-1))) else v

end

end RollingMedian

end CocaineNode
