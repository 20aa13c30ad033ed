import CocaineNode.Core.Db
import Mathlib.Data.UInt

/-!
# The Hard Fork State Machine

`HardFork` of `cryptonote_basic/hardfork.cpp`: the table of forks, the window
of votes cast by the last blocks, and the index of the fork in force. The
object holds a reference to the database; here the database is an argument and,
where `set_hard_fork_version` is called, a result.

The table is built by `add_fork`, which accepts an entry only when its version
and its height are above the last ones. `HardFork` carries that fact.

## Main definitions

* `HardFork`: The state, with its table in order.
* `HardFork.add`: One block counted, and the fork index moved when a vote passes.
-/

namespace CocaineNode

open List

/-- `hardfork_t`. -/
structure HardforkT where
  version : UInt8
  height : Nat
  threshold : UInt8
  time : Int
  deriving DecidableEq, Repr

/-- The order `add_fork` enforces between an entry and every later one. -/
def HardforkT.Before (a b : HardforkT) : Prop :=
  a.version < b.version ∧ a.height < b.height

/-- The `HardFork` object. `lastVersions` is the array of 256 counters. -/
structure HardFork where
  originalVersion : UInt8
  windowSize : Nat
  defaultThresholdPercent : UInt8
  heights : List HardforkT
  versions : List UInt8
  lastVersions : UInt8 → UInt32
  currentForkIndex : Nat
  window_pos : 0 < windowSize
  heights_sorted : heights.Pairwise HardforkT.Before

/-- `get_block_vote`: a minor version of 0 is a vote for version 1. -/
def Block.vote (b : Block) : UInt8 :=
  if b.minorVersion = 0 then 1 else b.minorVersion

namespace HardFork

/-- The constructor, which throws on an empty window or a threshold over 100. -/
def create (originalVersion : UInt8) (windowSize : Nat) (defaultThresholdPercent : UInt8) :
    Option HardFork :=
  if hw : 0 < windowSize then
    if defaultThresholdPercent > 100 then none
    else some
      { originalVersion, windowSize, defaultThresholdPercent
        heights := [], versions := [], lastVersions := fun _ => 0, currentForkIndex := 0
        window_pos := hw, heights_sorted := List.Pairwise.nil }
  else none

/-- `heights[n]`. -/
def entry (hf : HardFork) (n : Nat) : HardforkT :=
  hf.heights.getD n ⟨0, 0, 0, 0⟩

/-- An entry above the last one keeps the table in order. -/
theorem sorted_snoc {l : List HardforkT} {f : HardforkT} (hl : l.Pairwise HardforkT.Before)
    (hf : ∀ b ∈ l.getLast?, b.version < f.version ∧ b.height < f.height) :
    (l ++ [f]).Pairwise HardforkT.Before := by
  refine pairwise_append.mpr ⟨hl, pairwise_singleton _ _, ?_⟩
  intro a ha x hx
  rw [mem_singleton.mp hx]
  obtain ⟨pre, b, rfl⟩ := eq_nil_or_concat l |>.resolve_left (ne_nil_of_mem ha)
  have hb := hf b (by simp)
  rw [concat_eq_append, mem_append, mem_singleton] at ha
  rcases ha with hpre | rfl
  · have hab : HardforkT.Before a b :=
      (pairwise_append.mp (concat_eq_append ▸ hl)).2.2 a hpre b (mem_singleton_self b)
    exact ⟨UInt8.lt_trans hab.1 hb.1, hab.2.trans hb.2⟩
  · exact hb

/-- `add_fork`: the new table, or `none` when the entry is refused. -/
def addFork (hf : HardFork) (version : UInt8) (height : Nat) (threshold : UInt8) (time : Int) :
    Option HardFork :=
  if version = 0 then none
  else if hlast : ∀ b ∈ hf.heights.getLast?, b.version < version ∧ b.height < height then
    if ∃ b ∈ hf.heights.getLast?, time ≤ b.time then none
    else if threshold > 100 then none
    else some
      { hf with
        heights := hf.heights ++ [⟨version, height, threshold, time⟩]
        heights_sorted := sorted_snoc hf.heights_sorted hlast }
  else none

/-- `get_effective_version`: votes are capped at the last version of the table. -/
def getEffectiveVersion (hf : HardFork) (votingVersion : UInt8) : UInt8 :=
  match hf.heights.getLast? with
  | some last => if votingVersion > last.version then last.version else votingVersion
  | none => votingVersion

/-- `do_check`. -/
def doCheck (hf : HardFork) (blockVersion votingVersion : UInt8) : Bool :=
  blockVersion = (hf.entry hf.currentForkIndex).version &&
    votingVersion ≥ (hf.entry hf.currentForkIndex).version

/-- `check`. -/
def check (hf : HardFork) (b : Block) : Bool :=
  hf.doCheck b.majorVersion b.vote

/-- The threshold of an entry in blocks, in 32 bits. -/
def thresholdOf (hf : HardFork) (f : HardforkT) : UInt32 :=
  UInt32.ofNat ((hf.windowSize * f.threshold.toNat + 99) % 2 ^ 64 / 100)

/-- The loop of `get_voted_fork_index` over the entries below `n`, from the last one
    down, with the votes accumulated so far. -/
def votedForkIndexLoop (hf : HardFork) (height : Nat) : Nat → UInt32 → Option Nat
  | 0, _ => none
  | n + 1, accumulatedVotes =>
    let votes := accumulatedVotes + hf.lastVersions (hf.entry n).version
    if height ≥ (hf.entry n).height ∧ votes ≥ hf.thresholdOf (hf.entry n) then some n
    else votedForkIndexLoop hf height n votes

/-- `get_voted_fork_index`. -/
def getVotedForkIndex (hf : HardFork) (height : Nat) : Nat :=
  (hf.votedForkIndexLoop height hf.heights.length 0).getD hf.currentForkIndex

/-- `do_check_for_height` of a block, through `check_for_height`. -/
def checkForHeight (hf : HardFork) (b : Block) (height : Nat) : Bool :=
  b.majorVersion = (hf.entry (hf.getVotedForkIndex height)).version &&
    b.vote ≥ (hf.entry (hf.getVotedForkIndex height)).version

/-- The step `uint8_t voted = get_voted_fork_index(height)` and the move it triggers. -/
def advance (hf : HardFork) (height : Nat) : HardFork :=
  let voted := hf.getVotedForkIndex height % 256
  if voted > hf.currentForkIndex then { hf with currentForkIndex := voted } else hf

/-- One vote pushed at the back of the window. -/
def pushVote (hf : HardFork) (v : UInt8) : HardFork :=
  { hf with
    versions := hf.versions ++ [v]
    lastVersions := Function.update hf.lastVersions v (hf.lastVersions v + 1) }

/-- The oldest vote dropped. -/
def popVote (hf : HardFork) : HardFork :=
  match hf.versions with
  | [] => hf
  | old :: rest =>
    { hf with
      versions := rest
      lastVersions := Function.update hf.lastVersions old (hf.lastVersions old - 1) }

/-- `while (versions.size() >= window_size)`: at most as many turns as there are votes. -/
def trimWindow (hf : HardFork) : Nat → HardFork
  | 0 => hf
  | n + 1 => if hf.versions.length ≥ hf.windowSize then trimWindow hf.popVote n else hf

/-- `add`: the block is checked, its version recorded, its vote counted, and the fork
    index moved forward when a later fork has its votes. -/
def add (hf : HardFork) (db : BlockchainDB) (b : Block) (height : Nat) :
    Bool × HardFork × BlockchainDB :=
  if !hf.check b then (false, hf, db)
  else
    let db' := db.setHardForkVersion height (hf.entry hf.currentForkIndex).version
    let v := hf.getEffectiveVersion b.vote
    let hf' := ((hf.trimWindow hf.versions.length).pushVote v).advance (height + 1)
    (true, hf', db')

/-- The votes and the counters cleared. -/
def clearVotes (hf : HardFork) : HardFork :=
  { hf with versions := [], lastVersions := fun _ => 0 }

/-- The votes of a list of blocks counted with no trimming. -/
def countVotes (hf : HardFork) (blocks : List StoredBlock) : HardFork :=
  blocks.foldl (fun hf b => hf.pushVote (hf.getEffectiveVersion b.block.vote)) hf

/-- `while (current_fork_index + 1 < heights.size() && heights[..].version != lastv)`. -/
def indexOfVersion (lastv : UInt8) : List HardforkT → Nat
  | [] => 0
  | [_] => 0
  | f :: g :: rest => if f.version = lastv then 0 else indexOfVersion lastv (g :: rest) + 1

/-- `rescan_from_block_height`. -/
def rescanFromBlockHeight (hf : HardFork) (db : BlockchainDB) (height : Nat) : HardFork :=
  if height ≥ db.height then hf
  else
    let counted := hf.clearVotes.countVotes (db.blocks.drop height)
    let lastv := db.getHardForkVersion (db.height - 1)
    { counted with currentForkIndex := indexOfVersion lastv counted.heights }.advance db.height

/-- `rescan_from_chain_height`. -/
def rescanFromChainHeight (hf : HardFork) (db : BlockchainDB) (height : Nat) : HardFork :=
  if height = 0 then hf else hf.rescanFromBlockHeight db (height - 1)

/-- The placeholder `init` adds to an empty table. -/
def withPlaceholder (hf : HardFork) : HardFork :=
  if hf.heights = [] then
    { hf with
      heights := [⟨hf.originalVersion, 0, 0, 0⟩]
      heights_sorted := List.pairwise_singleton _ _ }
  else hf

/-- `init`. -/
def init (hf : HardFork) (db : BlockchainDB) : HardFork :=
  let hf := { hf.withPlaceholder.clearVotes with currentForkIndex := 0 }
  let height := if db.height > hf.windowSize then db.height - (hf.windowSize - 1) else 1
  hf.rescanFromChainHeight db height

/-- `while (current_fork_index > 0 && heights[current_fork_index].version > start_version)`. -/
def indexDownTo (hf : HardFork) (startVersion : UInt8) : Nat → Nat
  | 0 => 0
  | n + 1 => if (hf.entry (n + 1)).version > startVersion then indexDownTo hf startVersion n
      else n + 1

/-- The last loop of `reorganize_from_block_height`: the blocks above are added again. -/
def addAll (hf : HardFork) (db : BlockchainDB) : List StoredBlock → Nat → HardFork × BlockchainDB
  | [], _ => (hf, db)
  | b :: rest, h =>
    let r := hf.add db b.block h
    addAll r.2.1 r.2.2 rest (h + 1)

/-- `reorganize_from_block_height`. -/
def reorganizeFromBlockHeight (hf : HardFork) (db : BlockchainDB) (height : Nat) :
    Bool × HardFork × BlockchainDB :=
  if height ≥ db.height then (false, hf, db)
  else
    let rescan := height - (hf.windowSize - 1)
    let startVersion := if height = 0 then hf.originalVersion else db.getHardForkVersion height
    let moved := { hf.clearVotes with
      currentForkIndex := hf.indexDownTo startVersion hf.currentForkIndex }
    let counted := moved.countVotes ((db.blocks.take (height + 1)).drop rescan)
    let r := (counted.advance (height + 1)).addAll db (db.blocks.drop (height + 1)) (height + 1)
    (true, r.1, r.2)

/-- `reorganize_from_chain_height`. -/
def reorganizeFromChainHeight (hf : HardFork) (db : BlockchainDB) (height : Nat) :
    Bool × HardFork × BlockchainDB :=
  if height = 0 then (false, hf, db) else hf.reorganizeFromBlockHeight db (height - 1)

/-- One turn of the loop of `on_block_popped`: the newest vote is dropped and the version
    recorded at `height` is put back in front. -/
def unpopVote (hf : HardFork) (db : BlockchainDB) (height : Nat) : HardFork :=
  match hf.versions.getLast? with
  | none => hf
  | some newest =>
    let counts := Function.update hf.lastVersions newest (hf.lastVersions newest - 1)
    let v := db.getHardForkVersion height
    { hf with
      versions := v :: hf.versions.dropLast
      lastVersions := Function.update counts v (counts v + 1) }

/-- The loop of `on_block_popped` that looks for the fork of a chain height, without votes. -/
def indexByHeight (hf : HardFork) (height : Nat) : Nat → Nat
  | 0 => 0
  | n + 1 => if height ≥ (hf.entry (n + 1)).height then n + 1 else indexByHeight hf height n

/-- `on_block_popped` after `nblocks` blocks have left the database. -/
def onBlockPopped (hf : HardFork) (db : BlockchainDB) (nblocks : Nat) : HardFork :=
  let hf := (List.range nblocks).foldl
    (fun hf i => hf.unpopVote db (db.height + nblocks - 1 - i)) hf
  { hf with currentForkIndex := hf.indexByHeight db.height (hf.heights.length - 1) }

/-- `get_current_version`. -/
def getCurrentVersion (hf : HardFork) : UInt8 :=
  (hf.entry hf.currentForkIndex).version

/-- `get`: the version in force for the block at `height`, recorded below the chain height
    and current at it. -/
def get (hf : HardFork) (db : BlockchainDB) (height : Nat) : UInt8 :=
  if height > db.height then 255
  else if height = db.height then hf.getCurrentVersion
  else db.getHardForkVersion height

/-- The loop of `get_ideal_version(height)`, which stops above index 0. -/
def idealVersionLoop (hf : HardFork) (height : Nat) : Nat → UInt8
  | 0 => hf.originalVersion
  | n + 1 => if height ≥ (hf.entry (n + 1)).height then (hf.entry (n + 1)).version
      else idealVersionLoop hf height n

/-- `get_ideal_version(height)`. -/
def getIdealVersion (hf : HardFork) (height : Nat) : UInt8 :=
  hf.idealVersionLoop height (hf.heights.length - 1)

/-- A table built by `add_fork` calls that all succeed. -/
def addForks (hf : HardFork) : List HardforkT → Option HardFork
  | [] => some hf
  | f :: rest => (hf.addFork f.version f.height f.threshold f.time).bind (addForks · rest)

end HardFork

/-- `mainnet_hard_forks`. -/
def mainnetHardForks : List HardforkT :=
  [⟨12, 0, 0, 1733900000⟩]

/-- The object `Blockchain::init` builds for mainnet, before its `init`: original version 1,
    the default window and threshold, and the compiled-in table. -/
def HardFork.mainnet : HardFork where
  originalVersion := 1
  windowSize := 10080
  defaultThresholdPercent := 80
  heights := mainnetHardForks
  versions := []
  lastVersions := fun _ => 0
  currentForkIndex := 0
  window_pos := by decide
  heights_sorted := List.pairwise_singleton _ _

theorem HardFork.mainnet_addForks :
    (HardFork.create 1 10080 80).bind (·.addForks mainnetHardForks) = some HardFork.mainnet :=
  rfl

end CocaineNode
