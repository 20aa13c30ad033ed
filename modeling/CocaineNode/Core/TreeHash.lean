import CocaineNode.Core.Types

/-!
# The Tree Hash

The Merkle tree over the transaction ids of a block (`crypto/tree-hash.c`).
With more than two hashes, the last of them are first hashed in pairs so that
a power of two remains, and that layer is then halved in place until two hashes
are left.

`tree_path` follows one leaf up the same tree without hashing anything.
`tree_branch` does both, and collects the sibling at each layer. `tree_branch_hash`
goes back from a leaf to the root. Each of the four has its own loops in the
source, and so it has here.

`cn_fast_hash` is only called on two hashes side by side, and is the
parameter `H`. A path is a 32-bit word. A buffer index the source computes is a
natural number.

## Main definitions

* `TreeHash.treeHash`: The root.
* `TreeHash.treePath`, `TreeHash.treeBranch`: The way from a leaf to the root.
-/

namespace CocaineNode

namespace TreeHash

/-- The loop of `tree_hash_cnt`. -/
def doublePow : Nat → Nat → Nat → Nat
  | 0, _, pow => pow
  | fuel + 1, count, pow => if pow < count then doublePow fuel count (pow <<< 1) else pow

/-- `tree_hash_cnt`. -/
def treeHashCnt (count : Nat) : Nat :=
  doublePow count count 2 >>> 1

section

variable (H : Hash → Hash → Hash)

/-! ## The root -/

/-- The first layer: `n` more pairs of the list, from `i` on, are hashed to `j` on. -/
def hashPairs (hashes : List Hash) : Nat → Nat → Nat → List Hash → List Hash
  | 0, _, _, ints => ints
  | n + 1, i, j, ints =>
    hashPairs hashes n (i + 2) (j + 1) (ints.set j (H (hashes.getD i 0) (hashes.getD (i + 1) 0)))

/-- A further layer, in place. -/
def foldPairs : Nat → Nat → Nat → List Hash → List Hash
  | 0, _, _, ints => ints
  | n + 1, i, j, ints =>
    foldPairs n (i + 2) (j + 1) (ints.set j (H (ints.getD i 0) (ints.getD (i + 1) 0)))

/-- The layers from `cnt` hashes down to two. -/
def foldLayers : Nat → Nat → List Hash → List Hash
  | 0, _, ints => ints
  | fuel + 1, cnt, ints =>
    if cnt > 2 then foldLayers fuel (cnt >>> 1) (foldPairs H (cnt >>> 1) 0 0 ints) else ints

/-- The buffer after the `calloc` and the `memcpy`. -/
def startInts (hashes : List Hash) (cnt : Nat) : List Hash :=
  let kept := 2 * cnt - hashes.length
  hashes.take kept ++ List.replicate (cnt - kept) 0

/-- `tree_hash`, of a list that is not empty. -/
def treeHash (hashes : List Hash) : Hash :=
  if hashes.length = 1 then hashes.getD 0 0
  else if hashes.length = 2 then H (hashes.getD 0 0) (hashes.getD 1 0)
  else
    let cnt := treeHashCnt hashes.length
    let kept := 2 * cnt - hashes.length
    let ints := hashPairs H hashes (cnt - kept) kept kept (startInts hashes cnt)
    let ints := foldLayers H cnt cnt ints
    H (ints.getD 0 0) (ints.getD 1 0)

/-! ## The path -/

/-- The variables of `tree_path`: where the leaf is, and how it got there. -/
structure Walk where
  idx : Nat
  path : UInt32
  deriving DecidableEq, Repr

/-- The body of each loop: the pair at `i` goes to `j`. -/
def Walk.visit (w : Walk) (i j : Nat) : Walk :=
  if w.idx = i ∨ w.idx = i + 1 then
    ⟨j, w.path <<< 1 ||| (if w.idx = i then 0 else 1)⟩
  else w

/-- The loop over the pairs of one layer. -/
def walkPairs : Nat → Nat → Nat → Walk → Walk
  | 0, _, _, w => w
  | n + 1, i, j, w => walkPairs n (i + 2) (j + 1) (w.visit i j)

/-- The layers from `cnt` hashes down to two. -/
def walkLayers : Nat → Nat → Walk → Walk
  | 0, _, w => w
  | fuel + 1, cnt, w =>
    if cnt > 2 then walkLayers fuel (cnt >>> 1) (walkPairs (cnt >>> 1) 0 0 w) else w

/-- `tree_path`, with `none` for false. -/
def treePath (count idx : Nat) : Option UInt32 :=
  if count = 0 then none
  else if count = 1 then some 0
  else if count = 2 then some (if idx = 0 then 0 else 1)
  else
    let cnt := treeHashCnt count
    let kept := 2 * cnt - count
    let w := walkPairs (cnt - kept) kept kept ⟨idx, 0⟩
    let w := walkLayers cnt cnt w
    some (w.visit 0 0).path

/-! ## The branch -/

/-- The variables of `tree_branch` next to the buffer. `depth` is the length of `branch`. -/
structure Branch where
  walk : Walk
  branch : List Hash
  deriving DecidableEq, Repr

/-- The body of each loop, which reads the sibling from `hashes`. -/
def Branch.visit (b : Branch) (hashes : List Hash) (i j : Nat) : Branch where
  walk := b.walk.visit i j
  branch :=
    if b.walk.idx = i ∨ b.walk.idx = i + 1 then
      b.branch ++ [hashes.getD (if b.walk.idx = i then i + 1 else i) 0]
    else b.branch

/-- The first layer. -/
def branchHashPairs (hashes : List Hash) : Nat → Nat → Nat → Branch → List Hash → Branch × List Hash
  | 0, _, _, b, ints => (b, ints)
  | n + 1, i, j, b, ints =>
    branchHashPairs hashes n (i + 2) (j + 1) (b.visit hashes i j)
      (ints.set j (H (hashes.getD i 0) (hashes.getD (i + 1) 0)))

/-- A further layer, in place. The sibling is read before it is overwritten. -/
def branchFoldPairs : Nat → Nat → Nat → Branch → List Hash → Branch × List Hash
  | 0, _, _, b, ints => (b, ints)
  | n + 1, i, j, b, ints =>
    branchFoldPairs n (i + 2) (j + 1) (b.visit ints i j)
      (ints.set j (H (ints.getD i 0) (ints.getD (i + 1) 0)))

/-- The layers from `cnt` hashes down to two. -/
def branchLayers : Nat → Nat → Branch → List Hash → Branch × List Hash
  | 0, _, b, ints => (b, ints)
  | fuel + 1, cnt, b, ints =>
    if cnt > 2 then
      let r := branchFoldPairs H (cnt >>> 1) 0 0 b ints
      branchLayers fuel (cnt >>> 1) r.1 r.2
    else (b, ints)

/-- `tree_branch`: the branch, its depth and the path; `none` for false. -/
def treeBranch (hashes : List Hash) (hash : Hash) : Option (List Hash × Nat × UInt32) :=
  let idx := hashes.idxOf hash
  if idx = hashes.length then none
  else if hashes.length = 1 then some ([], 0, 0)
  else if hashes.length = 2 then
    some ([hashes.getD (idx ^^^ 1) 0], 1, if idx = 0 then 0 else 1)
  else
    let cnt := treeHashCnt hashes.length
    let kept := 2 * cnt - hashes.length
    let r := branchHashPairs H hashes (cnt - kept) kept kept ⟨⟨idx, 0⟩, []⟩ (startInts hashes cnt)
    let r := branchLayers H cnt cnt r.1 r.2
    let b := r.1.visit r.2 0 0
    some (b.branch, b.branch.length, b.walk.path)

/-! ## The branch checked -/

/-- The bit of the path for one level: whether the sibling is on the left. -/
def pathBit (path : UInt32) (level : Nat) : Bool :=
  (path >>> UInt32.ofNat level) &&& 1 ≠ 0

/-- `tree_branch_hash`. -/
def treeBranchHash (hash : Hash) (branch : List Hash) (depth : Nat) (path : UInt32) : Hash :=
  (List.range depth).foldl
    (fun acc d =>
      if pathBit path (depth - d - 1) then H (branch.getD d 0) acc else H acc (branch.getD d 0))
    hash

/-- `is_branch_in_tree`. -/
def isBranchInTree (hash root : Hash) (branch : List Hash) (depth : Nat) (path : UInt32) : Bool :=
  treeBranchHash H hash branch depth path = root

end

end TreeHash

end CocaineNode
