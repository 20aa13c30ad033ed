import CocaineNode.Theory.LongHash
import CocaineNode.Theory.VoteWindow

/-!
# Blocks Added and Popped

The hard fork state along a chain that grows block by block, and what is left of
it when blocks are popped again.

Adding keeps it in step with the database. After any number of accepted blocks
it is the state that a node computes when it starts on the same database
(`history_synced`), so a restart changes nothing. The counters are 32 bits wide
and count the window modulo 2³².

Popping does not. `on_block_popped` takes the votes of the popped blocks off the
back of the window and fills it up at the front. What has to come back there
are the votes that the popped blocks had pushed out; what it puts there is the
version on record at the height of each popped block. It puts one back for every
block, also where nothing had been pushed out. And it finds the fork by height
alone. `onBlockPopped_eq_iff` says when all of this comes to the state before.

## Theorems

* `HardFork.versions_onBlockPopped`: The window after a pop.
* `HardFork.onBlockPopped_eq_iff`: When popping blocks undoes adding them.
-/

namespace CocaineNode

open List Nat

namespace HardFork

/-! ## Accepted blocks -/

/-- A block stored on top of a chain, before the hard fork state is told. -/
structure Stored (db : BlockchainDB) (b : StoredBlock) (db' : BlockchainDB) : Prop where
  blocks : db'.blocks = db.blocks ++ [b]
  hfVersions : db'.hfVersions = db.hfVersions

/-- So many blocks stored and accepted by `add`, one by one. -/
inductive Adds (hf : HardFork) (db : BlockchainDB) : Nat → HardFork → BlockchainDB → Prop
  | zero : Adds hf db 0 hf db
  | succ {n : Nat} {hf' : HardFork} {db' db₁ : BlockchainDB} {b : StoredBlock}
      (hbefore : Adds hf db n hf' db') (hstored : Stored db' b db₁)
      (hadd : (hf'.add db₁ b.block db'.height).1 = true) :
      Adds hf db (n + 1) (hf'.add db₁ b.block db'.height).2.1
        (hf'.add db₁ b.block db'.height).2.2

theorem add_accepted {hf : HardFork} {db : BlockchainDB} {b : Block} {height : Nat}
    (h : (hf.add db b height).1 = true) : hf.check b = true := by
  by_contra hcheck
  rw [add, if_pos (by simpa using hcheck)] at h
  cases h

theorem blocks_add (hf : HardFork) (db : BlockchainDB) (b : Block) (height : Nat) :
    (hf.add db b height).2.2.blocks = db.blocks := by
  unfold add
  split <;> rfl

namespace Adds

variable {hf hf' : HardFork} {db db' : BlockchainDB} {n : Nat} (h : Adds hf db n hf' db')
include h

theorem synced (hsynced : hf.Synced db) : hf'.Synced db' := by
  induction h with
  | zero => exact hsynced
  | succ _ hstored hadd ih =>
    exact add_synced ih hstored.blocks (add_accepted hadd)

theorem sameTable : SameTable hf hf' := by
  induction h with
  | zero => exact sameTable_refl hf
  | succ _ _ _ ih => exact ih.trans (sameTable_add _ _ _ _)

/-- The chain has grown by the blocks that were added. -/
theorem blocks : ∃ added, db'.blocks = db.blocks ++ added ∧ added.length = n := by
  induction h with
  | zero => exact ⟨[], (append_nil _).symm, rfl⟩
  | @succ n hf' db' db₁ b _ hstored _ ih =>
    rcases ih with ⟨added, hblocks, hlen⟩
    refine ⟨added ++ [b], ?_, by rw [length_append, hlen]; rfl⟩
    rw [blocks_add, hstored.blocks, hblocks, append_assoc]

theorem height : db'.height = db.height + n := by
  rcases h.blocks with ⟨added, hblocks, hlen⟩
  rw [BlockchainDB.height, hblocks, length_append, hlen]
  rfl

end Adds

/-! ## A fresh start -/

/-- A start reads the table and the database, and nothing else of the state. -/
theorem init_congr {hf hf' : HardFork} (h : SameTable hf hf') (hne : hf.heights ≠ [])
    (db : BlockchainDB) : hf'.init db = hf.init db := by
  have hne' : hf'.heights ≠ [] := by
    rw [h.heights]
    exact hne
  have htable := ((sameTable_init hf db hne).symm.trans h).trans (sameTable_init hf' db hne')
  have hsynced := init_synced hf db
  have hsynced' := init_synced hf' db
  refine eq_of_votes htable hsynced.counted hsynced'.counted ?_ ?_
  · rw [hsynced.versions_eq, hsynced'.versions_eq]
    exact voteWindow_congr htable db
  · by_cases hempty : db.height = 0
    · rw [init_empty hf hne hempty, init_empty hf' hne' hempty]
    · have hpos := Nat.pos_of_ne_zero hempty
      rw [init_eq hf hne hpos, init_eq hf' hne' hpos, recount_congr h]

/-- Accepted blocks lead to the state that a fresh start computes. -/
theorem Adds.eq_init {hf₀ hf : HardFork} {db₀ db : BlockchainDB} {n : Nat}
    (h : Adds (hf₀.init db₀) db₀ n hf db) : hf₀.init db = hf := by
  have hne := hf₀.withPlaceholder_ne
  have htable : SameTable hf₀.withPlaceholder hf := by
    rw [← init_withPlaceholder] at h
    exact (sameTable_init _ _ hne).trans h.sameTable
  rw [← init_withPlaceholder, ← init_congr htable hne]
  exact h.synced (init_synced hf₀ db₀)

/-- The state in memory after any number of accepted blocks is the one that a fresh object with the
    same table computes from the database. The counters count the window in 32 bits, and the window
    is as long as the chain until it is full. -/
theorem history_synced {original percent : UInt8} {window n : Nat} {forks : List HardforkT}
    {hf₀ hf : HardFork} {db₀ db : BlockchainDB}
    (htable : (create original window percent).bind (·.addForks forks) = some hf₀)
    (h : Adds (hf₀.init db₀) db₀ n hf db) :
    hf₀.init db = hf ∧ (∀ v, (hf.lastVersions v).toNat = hf.versions.count v % 2 ^ 32) ∧
      hf.versions.length = min db.height window := by
  have hinit := h.eq_init
  have hsynced := h.synced (init_synced hf₀ db₀)
  refine ⟨hinit, fun v => ?_, ?_⟩
  · rw [hsynced.counted, tally, UInt32.toNat_ofNat']
  · rcases Option.bind_eq_some_iff.mp htable with ⟨hf₁, hcreate, hforks⟩
    have hsize : hf.windowSize = window := by
      rw [h.sameTable.windowSize, ← init_withPlaceholder,
        (sameTable_init _ _ hf₀.withPlaceholder_ne).windowSize, ← (create_heights hcreate).2.2,
        ← (addForks_heights hforks).2.2]
      unfold withPlaceholder
      split <;> rfl
    rw [hsynced.versions_eq, length_voteWindow, hsize]

/-! ## Chains of equal votes -/

/-- A table with one fork, at version 12 from the first block on. -/
def oneForkTable (window : Nat) (hwindow : 0 < window) : HardFork :=
  { mainnet with windowSize := window, window_pos := hwindow }

/-- Block `n` of a ramp. -/
def rampTop (n : Nat) : StoredBlock where
  block := ⟨12, 12, 0, BitVec.ofNat 256 n, 0, {}, []⟩
  hash := BitVec.ofNat 256 (n + 1)
  minerTxHash := 0
  txs := []
  weight := 0
  longTermWeight := 0
  cumulativeDifficulty := 0
  coins := 0

theorem ramp_blocks_succ (n : Nat) (hn : n + 1 < 2 ^ 256) : (Blockchain.ramp (n + 1) hn).blocks =
      (Blockchain.ramp n (by omega)).blocks ++ [rampTop n] := by
  change map _ (range (n + 1)) = _
  rw [range_succ, map_append]
  rfl

/-- Every block of a ramp is accepted. -/
theorem ramp_next {f : HardforkT} {hf : HardFork} {db : BlockchainDB} {n : Nat}
    (hn : n + 1 < 2 ^ 256) (hone : OneFork f 1 hf) (hversion : f.version = 12)
    (hblocks : db.blocks = (Blockchain.ramp n (by omega)).blocks) :
    ∃ hf' db', Adds hf db 1 hf' db' ∧ OneFork f 1 hf' ∧
      db'.blocks = (Blockchain.ramp (n + 1) hn).blocks ∧ db'.getHardForkVersion n = 12 := by
  set db₁ : BlockchainDB := { Blockchain.ramp (n + 1) hn with hfVersions := db.hfVersions }
  have hlast : db₁.blocks = db.blocks ++ [rampTop n] := by
    rw [hblocks]
    exact ramp_blocks_succ n hn
  have hentry : hf.entry hf.currentForkIndex = f := by
    rw [hone.currentForkIndex, entry, hone.heights]
    rfl
  have hheight : db.height = n := by
    rw [BlockchainDB.height, hblocks]
    exact (length_map _).trans length_range
  have hcheck : hf.check (rampTop n).block = true := by
    rw [check, doCheck, hentry, hversion]
    rfl
  have hstored : Stored db (rampTop n) db₁ := ⟨hlast, rfl⟩
  refine ⟨_, _, .succ .zero hstored ?_, hone.add _ _ _, by rw [blocks_add], ?_⟩
  · rw [add, hcheck]
    rfl
  · rw [add, hcheck, hheight, hentry, hversion]
    exact congrArg (Option.getD · 0) (Function.update_self n (some 12) db.hfVersions)

theorem Adds.trans {hf hf' hf'' : HardFork} {db db' db'' : BlockchainDB} {m n : Nat}
    (h : Adds hf db m hf' db') (h' : Adds hf' db' n hf'' db'') : Adds hf db (m + n) hf'' db'' := by
  induction h' with
  | zero => exact h
  | succ _ hstored hadd ih => exact ih.succ hstored hadd

theorem ramp_adds (window : Nat) (hwindow : 0 < window) (n : Nat) (hn : n < 2 ^ 256) :
    ∃ hf db, Adds ((oneForkTable window hwindow).init .empty) .empty n hf db ∧
      OneFork ⟨12, 0, 0, 1733900000⟩ 1 hf ∧ db.blocks = (Blockchain.ramp n hn).blocks := by
  induction n with
  | zero => exact ⟨_, _, .zero, ⟨rfl, rfl, rfl⟩, rfl⟩
  | succ n ih =>
    rcases ih (by omega) with ⟨hf, db, hadds, hone, hblocks⟩
    rcases ramp_next hn hone rfl hblocks with ⟨hf', db', hnext, hone', hblocks', -⟩
    exact ⟨hf', db', hadds.trans hnext, hone', hblocks'⟩

/-- All the votes of a ramp are for version 12. -/
theorem ramp_votes {hf : HardFork} (hone : OneFork ⟨12, 0, 0, 1733900000⟩ 1 hf) (n : Nat)
    (hn : n < 2 ^ 256) : hf.votes (Blockchain.ramp n hn).blocks = replicate n 12 := by
  induction n with
  | zero => rfl
  | succ n ih =>
    have hvote : hf.getEffectiveVersion (rampTop n).block.vote = 12 := by
      rw [getEffectiveVersion, hone.heights]
      rfl
    unfold votes at ih ⊢
    rw [ramp_blocks_succ, map_append, replicate_succ', ih, map_singleton, hvote]

theorem history_synced_ramp : (create 1 5 80).bind (·.addForks mainnetHardForks) =
        some (oneForkTable 5 (by decide)) ∧
      ∃ hf db, Adds ((oneForkTable 5 (by decide)).init .empty) .empty 7 hf db ∧
        (oneForkTable 5 (by decide)).init db = hf ∧ hf.versions.length = 5 := by
  have htable : (create 1 5 80).bind (·.addForks mainnetHardForks) =
      some (oneForkTable 5 (by decide)) := rfl
  rcases ramp_adds 5 (by decide) 7 (by decide) with ⟨hf, db, hadds, -, -⟩
  rcases history_synced htable hadds with ⟨hinit, -, hlen⟩
  refine ⟨htable, hf, db, hadds, hinit, ?_⟩
  rw [hlen, hadds.height]
  rfl

/-- With a window of 2³² blocks and as many votes for version 12, the counter says there are none.
    -/
theorem counter_wraps : (create 1 (2 ^ 32) 80).bind (·.addForks mainnetHardForks) =
        some (oneForkTable (2 ^ 32) (by decide)) ∧
      ∃ hf db, Adds ((oneForkTable (2 ^ 32) (by decide)).init .empty) .empty (2 ^ 32) hf db ∧
        hf.versions.count 12 = 2 ^ 32 ∧ hf.lastVersions 12 = 0 := by
  refine ⟨rfl, ?_⟩
  rcases ramp_adds (2 ^ 32) (by decide) (2 ^ 32) (by decide) with ⟨hf, db, hadds, hone, hblocks⟩
  have hsynced := hadds.synced (init_synced _ _)
  have hsize : hf.windowSize = 2 ^ 32 := hadds.sameTable.windowSize
  have hheight : db.height = 2 ^ 32 := by
    rw [hadds.height]
    rfl
  have hcount : hf.versions.count 12 = 2 ^ 32 := by
    rw [hsynced.versions_eq, voteWindow, hblocks, ramp_votes hone, hheight, hsize, Nat.sub_self,
      drop_zero, count_replicate_self]
  refine ⟨hf, db, hadds, hcount, ?_⟩
  rw [hsynced.counted, tally, hcount]
  rfl

/-! ## Popped blocks -/

end HardFork

namespace BlockchainDB

/-- So many calls of `pop_block`. -/
def popBlocks : Nat → BlockchainDB → Option BlockchainDB
  | 0, db => some db
  | n + 1, db => db.popBlock.bind fun r => popBlocks n r.2

variable (db : BlockchainDB)

theorem take_take {a b : Nat} (h : b ≤ a) : (db.take a).take b = db.take b := by
  simp only [take, List.take_take, min_eq_left h]

theorem height_take_sub (n : Nat) : (db.take (db.height - n)).height = db.height - n := by
  change (db.blocks.take (db.height - n)).length = _
  rw [length_take]
  exact Nat.min_eq_left (Nat.sub_le _ _)

theorem popBlocks_eq (n : Nat) (hn : n ≤ db.height) :
    popBlocks n db = some (db.take (db.height - n)) := by
  induction n generalizing db with
  | zero =>
    have hall : db.take (db.height - 0) = db := by
      simp only [take, height, Nat.sub_zero, take_length]
    rw [hall]
    rfl
  | succ n ih =>
    have hpos : db.blocks ≠ [] := length_pos_iff.mp (Nat.lt_of_lt_of_le n.succ_pos hn)
    rw [popBlocks, popBlock, getLast?_eq_getLast_of_ne_nil hpos]
    change popBlocks n (db.take (db.height - 1)) = _
    rw [ih _ (by rw [height_take_sub]; omega), height_take_sub, take_take db (by omega)]
    congr 2
    omega

end BlockchainDB

namespace HardFork

variable (hf : HardFork) (db : BlockchainDB)

/-- One vote comes in at the front, and the newest one leaves. -/
theorem versions_unpopVote (height : Nat) (hne : hf.versions ≠ []) :
    (hf.unpopVote db height).versions =
      (db.getHardForkVersion height :: hf.versions).take hf.versions.length := by
  unfold unpopVote
  rw [getLast?_eq_getLast_of_ne_nil hne, dropLast_eq_take]
  obtain ⟨k, hk⟩ := exists_eq_succ_of_ne_zero (mt length_eq_zero_iff.mp hne)
  rw [hk, take_succ_cons]
  rfl

theorem tally_cons (v : UInt8) (l : List UInt8) :
    tally (v :: l) = Function.update (tally l) v (tally l v + 1) := by
  rw [← tally_concat]
  funext w
  rw [tally, tally, (perm_append_singleton v l).count_eq]

theorem Counted.unpopVote {hf : HardFork} (h : hf.Counted) (db : BlockchainDB) (height : Nat) :
    (hf.unpopVote db height).Counted := by
  unfold HardFork.unpopVote
  split
  · exact h
  · rename_i newest hlast
    have hsplit : hf.versions.dropLast ++ [newest] = hf.versions :=
      dropLast_append_getLast? newest hlast
    have hperm : tally hf.versions = tally (newest :: hf.versions.dropLast) := by
      funext w
      rw [tally, tally, ← (perm_append_singleton newest _).count_eq, hsplit]
    change Function.update (Function.update hf.lastVersions newest _) _ _ = tally (_ :: _)
    rw [h, hperm, tally_tail, ← tally_cons]

theorem take_append_take (a b : List UInt8) (n : Nat) :
    (a ++ b.take n).take n = (a ++ b).take n := by
  rw [take_append, take_append, take_take, min_eq_left (sub_le _ _)]

/-- The loop fills the window at the front, one vote for each block. -/
theorem unpopVotes (db : BlockchainDB) (heightAt : Nat → Nat) (turns : List Nat) (hf : HardFork)
    (hne : hf.versions ≠ []) (hcounted : hf.Counted) :
    (turns.foldl (fun hf i => hf.unpopVote db (heightAt i)) hf).versions =
        ((turns.map fun i => db.getHardForkVersion (heightAt i)).reverse ++ hf.versions).take
          hf.versions.length ∧
      (turns.foldl (fun hf i => hf.unpopVote db (heightAt i)) hf).Counted := by
  induction turns generalizing hf with
  | nil => exact ⟨(take_length).symm, hcounted⟩
  | cons i rest ih =>
    have hfirst := versions_unpopVote hf db (heightAt i) hne
    have hlen : (hf.unpopVote db (heightAt i)).versions.length = hf.versions.length := by
      rw [hfirst, length_take, length_cons]
      omega
    have hne' : (hf.unpopVote db (heightAt i)).versions ≠ [] := by
      rw [← length_pos_iff, hlen]
      exact length_pos_iff.mpr hne
    rcases ih _ hne' (hcounted.unpopVote db _) with ⟨hversions, hrest⟩
    refine ⟨?_, hrest⟩
    rw [foldl_cons, hversions, hlen, hfirst, take_append_take, map_cons,
      reverse_cons, append_assoc, singleton_append]

/-- After a pop the window begins with the versions on record for the heights that were popped, and
    has kept its length. -/
theorem versions_onBlockPopped (n : Nat) (hne : hf.versions ≠ []) (hcounted : hf.Counted) :
    (hf.onBlockPopped db n).versions =
        ((range n).map (fun i => db.getHardForkVersion (db.height + i)) ++ hf.versions).take
          hf.versions.length ∧
      (hf.onBlockPopped db n).Counted := by
  rcases unpopVotes db (fun i => db.height + n - 1 - i) (range n) hf hne hcounted with
    ⟨hversions, hkept⟩
  refine ⟨?_, hkept⟩
  change ((range n).foldl _ hf).versions = _
  rw [hversions]
  congr 2
  refine ext_getElem (by simp) ?_
  intro i hi hi'
  simp only [length_reverse, length_map, length_range] at hi
  simp only [getElem_reverse, getElem_map, getElem_range, length_map, length_range]
  congr 1
  omega

/-- The fork is found by height alone. -/
theorem index_onBlockPopped (n : Nat) :
    (hf.onBlockPopped db n).currentForkIndex = hf.activeIndex db.height := by
  have hloop : ∀ (hf : HardFork) (k : Nat), hf.indexByHeight db.height k =
      Schedule.active (fun n => (hf.entry n).height) k db.height := by
    intro hf k
    unfold Schedule.active
    induction k with
    | zero => rfl
    | succ k ih => rw [indexByHeight, findGreatest_succ, ih]
  have htable := sameTable_onBlockPopped hf db n
  rw [← (activeIndex_congr htable.heights).2]
  exact hloop _ _

/-! ## When popping undoes adding -/

/-- What popping the last `n` blocks of `db'` down to `db` needs. The window was full before them,
    each of them has on record the vote that it pushed out, and the fork in force was the one that
    the height gives. -/
structure Refills (hf : HardFork) (db db' : BlockchainDB) (n : Nat) : Prop where
  full : hf.windowSize ≤ db.height
  votes : ∀ i < min n hf.windowSize, (hf.votes db.blocks)[db.height - hf.windowSize + i]? =
    some (db'.getHardForkVersion (db.height + i))
  scheduled : hf.currentForkIndex = hf.activeIndex db.height

section Refilled

variable {hf : HardFork} {db db' : BlockchainDB} {added : List StoredBlock}

/-- The window after a pop, vote by vote: what is on record, and then the votes that had stayed. -/
theorem getElem?_refilled (hblocks : db'.blocks = db.blocks ++ added)
    (hfull : hf.windowSize ≤ db.height) (recorded : Nat → UInt8) {i : Nat}
    (hi : i < hf.windowSize) :
    (((range added.length).map recorded ++ hf.voteWindow db').take
        (hf.voteWindow db').length)[i]? =
      if i < added.length then some (recorded i)
      else (hf.votes db.blocks)[db.height - hf.windowSize + i]? := by
  have hheight : db'.height = db.height + added.length := by
    rw [BlockchainDB.height, hblocks, length_append]
    rfl
  have hvotes : hf.votes db'.blocks = hf.votes db.blocks ++ hf.votes added := by
    rw [votes, hblocks, map_append]
    rfl
  have hlen : (hf.votes db.blocks).length = db.height := length_map _
  rw [getElem?_take_of_lt (by rw [length_voteWindow]; omega)]
  split
  · rename_i hlt
    rw [getElem?_append_left (by simpa using hlt)]
    simp [hlt]
  · rename_i hge
    rw [getElem?_append_right (by simpa using hge), voteWindow, getElem?_drop, hvotes,
      length_map, length_range, hheight, getElem?_append_left (by omega)]
    congr 1
    omega

theorem refilled_iff (hf : HardFork) (hblocks : db'.blocks = db.blocks ++ added)
    (hpos : 0 < added.length) (recorded : Nat → UInt8) :
    ((range added.length).map recorded ++ hf.voteWindow db').take
        (hf.voteWindow db').length = hf.voteWindow db ↔
      hf.windowSize ≤ db.height ∧ ∀ i < min added.length hf.windowSize,
        (hf.votes db.blocks)[db.height - hf.windowSize + i]? = some (recorded i) := by
  have hheight : db'.height = db.height + added.length := by
    rw [BlockchainDB.height, hblocks, length_append]
    rfl
  constructor
  · intro heq
    -- The window has kept its length, so it was full before.
    have hfull : hf.windowSize ≤ db.height := by
      have hlen := congrArg length heq
      rw [length_take, length_append, length_voteWindow, length_voteWindow, hheight] at hlen
      omega
    refine ⟨hfull, fun i hi => ?_⟩
    have hat := getElem?_refilled hblocks hfull recorded (hi.trans_le (min_le_right _ _))
    rw [if_pos (hi.trans_le (min_le_left _ _)), heq, voteWindow, getElem?_drop] at hat
    exact hat
  · intro hrefills
    rcases hrefills with ⟨hfull, hvotes⟩
    refine ext_getElem? fun i => ?_
    by_cases hi : i < hf.windowSize
    · rw [getElem?_refilled hblocks hfull recorded hi, voteWindow, getElem?_drop]
      split
      · rename_i hlt
        exact (hvotes i (Nat.lt_min.mpr ⟨hlt, hi⟩)).symm
      · rfl
    · rw [getElem?_eq_none, getElem?_eq_none]
      · rw [length_voteWindow]
        omega
      · rw [length_take, length_voteWindow]
        omega

end Refilled

/-- Popping the blocks that were added last gives the state before them exactly when the window can
    be filled up from what is on record and the fork was the one that the height gives. -/
theorem onBlockPopped_eq_iff {hf₀ hf hf' : HardFork} {db₀ db db' : BlockchainDB} {m n : Nat}
    (hchain : Adds (hf₀.init db₀) db₀ m hf db) (hadds : Adds hf db n hf' db') (hpos : 0 < n)
    (hn : n < db'.height) :
    ∃ db'', db'.popBlocks n = some db'' ∧
      (hf'.onBlockPopped db'' n = hf ↔ Refills hf db db' n) := by
  have hsynced := hchain.synced (init_synced hf₀ db₀)
  have hsynced' := hadds.synced hsynced
  have htable := hadds.sameTable
  rcases hadds.blocks with ⟨added, hblocks, rfl⟩
  refine ⟨_, db'.popBlocks_eq _ hn.le, ?_⟩
  set db'' := db'.take (db'.height - added.length) with hdb''
  have hback : db''.blocks = db.blocks := by
    change db'.blocks.take (db'.height - added.length) = _
    rw [hadds.height, hblocks, Nat.add_sub_cancel]
    exact take_left
  have hheight : db''.height = db.height := by rw [BlockchainDB.height, hback]; rfl
  have hwindow : hf'.versions = hf.voteWindow db' := by
    rw [hsynced'.versions_eq, voteWindow_congr htable]
  have hne : hf'.versions ≠ [] := by
    rw [← length_pos_iff, hwindow, length_voteWindow]
    have hsize := hf.window_pos
    omega
  rcases versions_onBlockPopped hf' db'' added.length hne hsynced'.counted with
    ⟨hversions, hcounted⟩
  have hindex := index_onBlockPopped hf' db'' added.length
  rw [(activeIndex_congr htable.heights).2, hheight] at hindex
  rw [hwindow, hheight] at hversions
  have hfilled := refilled_iff hf hblocks hpos
    (fun i => db'.getHardForkVersion (db.height + i))
  constructor
  · intro heq
    rw [heq] at hversions hindex
    rcases hfilled.mp (hversions.symm.trans hsynced.versions_eq) with ⟨hfull, hvotes⟩
    exact ⟨hfull, hvotes, hindex⟩
  · intro hrefills
    refine eq_of_votes (htable.trans (sameTable_onBlockPopped _ _ _)) hsynced.counted hcounted ?_
      (hindex.trans hrefills.scheduled.symm)
    rw [hversions, hsynced.versions_eq]
    exact hfilled.mpr ⟨hrefills.full, hrefills.votes⟩

/-- The first two blocks of a ramp. -/
theorem ramp_two (window : Nat) (hwindow : 0 < window) :
    ∃ hf hf' db db', Adds ((oneForkTable window hwindow).init .empty) .empty 1 hf db ∧
      Adds hf db 1 hf' db' ∧ OneFork ⟨12, 0, 0, 1733900000⟩ 1 hf ∧
      hf.votes db.blocks = [12] ∧ hf.votes db'.blocks = [12, 12] ∧
      db'.getHardForkVersion 1 = 12 := by
  rcases ramp_adds window hwindow 1 (by decide) with ⟨hf, db, hfirst, hone, hblocks⟩
  have htwo : 1 + 1 < 2 ^ 256 := by decide
  rcases ramp_next htwo hone rfl hblocks with ⟨hf', db', hsecond, -, hblocks', hrecorded⟩
  refine ⟨hf, hf', db, db', hfirst, hsecond, hone, ?_, ?_, hrecorded⟩
  · rw [hblocks, ramp_votes hone]
    rfl
  · rw [hblocks', ramp_votes hone]
    rfl

/-- With a window of one vote, popping the second block of a chain gives back the state after the
    first. -/
theorem onBlockPopped_eq_iff_ramp :
    ∃ hf hf' db db' db'', Adds ((oneForkTable 1 (by decide)).init .empty) .empty 1 hf db ∧
      Adds hf db 1 hf' db' ∧ db'.popBlocks 1 = some db'' ∧ hf'.onBlockPopped db'' 1 = hf := by
  rcases ramp_two 1 (by decide) with ⟨hf, hf', db, db', hfirst, hsecond, hone, hvotes, -, hrecorded⟩
  have hheight : db.height = 1 := hfirst.height
  have hsize : hf.windowSize = 1 := hfirst.sameTable.windowSize
  have hlong : 1 < db'.height := by
    rw [hsecond.height, hheight]
    decide
  rcases onBlockPopped_eq_iff hfirst hsecond one_pos hlong with ⟨db'', hpop, hiff⟩
  refine ⟨hf, hf', db, db', db'', hfirst, hsecond, hpop, hiff.mpr ⟨?_, ?_, ?_⟩⟩
  · rw [hsize, hheight]
  · intro i hi
    rw [hsize, min_self, lt_one_iff] at hi
    rw [hvotes, hsize, hheight, hi, hrecorded]
    rfl
  · rw [hone.currentForkIndex, activeIndex, hone.heights]
    rfl

/-- With the mainnet table, popping the second block of a chain leaves two votes in the window. -/
theorem popped_vote_stays :
    ∃ hf hf' db db' db'', Adds (mainnet.init .empty) .empty 1 hf db ∧ Adds hf db 1 hf' db' ∧
      db'.popBlocks 1 = some db'' ∧ hf.versions = [12] ∧
      (hf'.onBlockPopped db'' 1).versions = [12, 12] := by
  rcases ramp_two 10080 (by decide) with ⟨hf, hf', db, db', hfirst, hsecond, -, hvotes, hvotes',
    hrecorded⟩
  have hsynced := hfirst.synced (init_synced _ _)
  have hsynced' := hsecond.synced hsynced
  have hsize : hf.windowSize = 10080 := hfirst.sameTable.windowSize
  have hheight : db.height = 1 := hfirst.height
  have hheight' : db'.height = 2 := by rw [hsecond.height, hheight]
  have hwindow : hf.versions = [12] := by
    rw [hsynced.versions_eq, voteWindow, hvotes, hheight, hsize]
    rfl
  have hwindow' : hf'.versions = [12, 12] := by
    rw [hsynced'.versions_eq, voteWindow_congr hsecond.sameTable, voteWindow, hvotes', hheight',
      hsize]
    rfl
  have hpop := db'.popBlocks_eq 1 (by omega)
  refine ⟨hf, hf', db, db', _, hfirst, hsecond, hpop, hwindow, ?_⟩
  have hback : (db'.take (db'.height - 1)).height = 1 := by rw [db'.height_take_sub, hheight']
  rw [(versions_onBlockPopped hf' _ 1 (by simp [hwindow']) hsynced'.counted).1, hwindow', hback]
  change ([db'.getHardForkVersion 1] ++ [12, 12]).take 2 = _
  rw [hrecorded]
  rfl

end HardFork

end CocaineNode
