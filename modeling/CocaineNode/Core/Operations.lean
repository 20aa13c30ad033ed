import CocaineNode.Core.IncomingBlocks

/-!
# What Is Done to a Node

Blocks are added between `prepare_handle_incoming_blocks` and
`cleanup_handle_incoming_blocks`, or one at a time; `pop_blocks` takes some off
again; and the difficulty of the next block is asked for at any time.
`Node.CallOf` lists these calls, by what holds of every block that is offered.
Threads take turns under the blockchain
lock, so a run of the node is a sequence of them. A thread that has to wait for
the batch of another has nothing done meanwhile, so the waits of `PrepareEnv`
do not appear here.

`pop_blocks` reads `m_cancel` before each block, and it expects the database to
throw: then it aborts its batch. Both are in `PopEnv`. A block that could not be
popped is taken to be still there. The seed of the proof of work that is set at
the end is left out.

## Main definitions

* `Node.popBlocks`: Several blocks popped in a batch.
* `Node.CallOf`: One call.
-/

namespace CocaineNode

/-- What `pop_blocks` does not decide itself, by the number of blocks popped so far: what
    `m_cancel` holds, and whether the database throws. -/
structure PopEnv where
  cancel : Nat → Bool := fun _ => false
  dbThrows : Nat → Bool := fun _ => false

/-- The loop of `pop_blocks`, with so many blocks popped before: whether it ended without an
    exception. The windows of the difficulty cache are given up before the pop that throws. -/
def Blockchain.popLoop (E : Externals) (env : PopEnv) (now : UInt64) :
    Nat → Nat → Blockchain → Bool × Blockchain
  | 0, _, s => (true, s)
  | n + 1, popped, s =>
    if env.cancel popped then (true, s)
    else if env.dbThrows popped then (false, s.resetDifficulties)
    else
      match s.popBlockFromBlockchain E now with
      | none => (false, s.resetDifficulties)
      | some (_, s) => popLoop E env now n (popped + 1) s

namespace Node

/-- `pop_blocks`. The genesis block stays. A batch that was open before is not closed here. -/
def popBlocks (E : Externals) (env : PopEnv) (now : UInt64) (n : Node) (nblocks : Nat) : Node :=
  let stopBatch := n.batch.isNone
  let before := n.chain.db
  let n := if stopBatch then n.batchStart else n
  let nblocks := if n.chain.height > 0 then min nblocks (n.chain.height - 1) else nblocks
  let r := Blockchain.popLoop E env now nblocks 0 n.chain
  if r.1 then
    let n := n.withChain r.2.updateNextCumulativeWeightLimit
    if stopBatch then n.batchStop else n
  else
    let n := n.withChain r.2
    if stopBatch then n.batchAbort before else n

/-- One call. A block that is offered, parsed beforehand or not, has the property. -/
inductive CallOf (E : Externals) (G : Block → Prop) : Node → Node → Prop
  | add (n : Node) (now : UInt64) (depth : Nat) (blob : Blob) (b : Option Block)
      (ps : PoolSupplement) : (∀ bl, b.or (E.parseBlock blob) = some bl → G bl) →
      CallOf E G n (n.handleIncomingBlock E now depth blob b ps).2
  | prepare (n : Node) (env : PrepareEnv) (entries : List BlockCompleteEntry) : n.batch = none →
      env.waits = [] → CallOf E G n (n.prepareHandleIncomingBlocks E env entries).2.2
  | cleanup (n : Node) : CallOf E G n n.cleanupHandleIncomingBlocks.2
  | pop (n : Node) (env : PopEnv) (now : UInt64) (nblocks : Nat) :
      CallOf E G n (n.popBlocks E env now nblocks)
  | difficulty (n : Node) : CallOf E G n (n.withChain n.chain.getDifficultyForNextBlock.2)

/-- One call, whatever is offered. -/
def Operation (E : Externals) : Node → Node → Prop :=
  CallOf E fun _ => True

end Node

end CocaineNode
