import CocaineNode.Core.Db

/-!
# Finding Where Two Chains Split

`get_short_chain_history` and `find_blockchain_supplement` of
`cryptonote_core/blockchain.cpp`. A node that syncs sends some ids of its own
chain, from the tip down to the genesis block: the last eleven, and then with
gaps that double. Its peer looks for the first of them that it has too.

The counters of the first function are 64 bits wide. Its loop is a `while`, so
the model runs it for a given number of turns.

## Main definitions

* `BlockchainDB.getShortChainHistory`: The ids that are sent.
* `BlockchainDB.findBlockchainSupplement`: The height that the peer answers from.
-/

namespace CocaineNode

/-- The counters of the loop of `get_short_chain_history`. -/
structure HistoryCounters where
  i : UInt64
  currentMultiplier : UInt64
  currentBackOffset : UInt64
  deriving DecidableEq, Repr

namespace HistoryCounters

/-- The counters before the loop. -/
def start : HistoryCounters := ⟨0, 1, 1⟩

/-- The counters after one turn. -/
def next (c : HistoryCounters) : HistoryCounters :=
  if c.i < 10 then { c with currentBackOffset := c.currentBackOffset + 1, i := c.i + 1 }
  else
    let multiplier := c.currentMultiplier * 2
    ⟨c.i + 1, multiplier, c.currentBackOffset + multiplier⟩

end HistoryCounters

namespace BlockchainDB

/-- The loop of `get_short_chain_history`: the ids it collects and whether the genesis block is
    among them. It is `none` when the loop is not over after the given number of turns. -/
def shortHistoryLoop (db : BlockchainDB) (sz : UInt64) :
    Nat → HistoryCounters → Option (List Hash × Bool)
  | 0, _ => none
  | fuel + 1, c =>
    if c.currentBackOffset < sz then
      (shortHistoryLoop db sz fuel c.next).map fun r =>
        (db.blockIdByHeight (sz - c.currentBackOffset).toNat :: r.1,
          sz - c.currentBackOffset = 0 || r.2)
    else some ([], false)

/-- `get_short_chain_history`. -/
def getShortChainHistory (db : BlockchainDB) (fuel : Nat) : Option (List Hash) :=
  let sz := UInt64.ofNat db.height
  if sz = 0 then some []
  else
    (db.shortHistoryLoop sz fuel .start).map fun r =>
      if r.2 then r.1 else r.1 ++ [db.blockIdByHeight 0]

/-- `find_blockchain_supplement` with a list of ids. It fails on an empty list, or when the last id
    is not that of the genesis block. -/
def findBlockchainSupplement (db : BlockchainDB) (qblockIds : List Hash) : Option Nat :=
  match qblockIds.getLast?, db.ids.head? with
  | some back, some genHash =>
    if back ≠ genHash then none else qblockIds.findSome? db.blockHeight?
  | _, _ => none

end BlockchainDB

end CocaineNode
