import CocaineNode.Core.ChainHistory
import CocaineNode.Lib.Backoff
import CocaineNode.Theory.LongHash

/-!
# The Split Point from a Short History

Two nodes that share the first `f` blocks find each other's split point. The
first sends some ids of its chain; the second answers from the first of them
that it has. The heights of the ids go down by one for a while and then in
steps that double, so the answer is below the split by no more than the first
node's own blocks above it (`shortHistory_supplement`).

The offsets of the loop are those of `Backoff`, in 64 bits. They wrap after 72
turns, at an offset of `2 ^ 63 + 9`. On a chain that is longer the loop goes
back to offset 9 and collects the same id again and again
(`long_history_repeats`).

## Theorems

* `SharesBelow.blockHeight?_eq`: Which ids of one chain the other has.
* `shortHistory_supplement`: The history and the answer to it.
-/

namespace CocaineNode

open List UInt64 Blockchain BlockchainDB Nat

open Backoff

/-! ## The loop -/

namespace HistoryCounters

/-- The counters after `n` turns. -/
def after (n : Nat) : HistoryCounters :=
  ⟨ofNat n, ofNat (2 ^ (n - 10)), ofNat (offset 10 n)⟩

theorem next_after {n : Nat} (hn : n < 2 ^ 64) : (after n).next = after (n + 1) := by
  have hi : (after n).i < 10 ↔ n < 10 := by
    change (ofNat n).toNat < 10 ↔ _
    rw [toNat_ofNat', mod_eq_of_lt hn]
  have hoffset : offset 10 (n + 1) = offset 10 n + step 10 n := offset_succ (by decide) n
  unfold next
  by_cases hdense : n < 10
  · rw [if_pos (hi.mpr hdense)]
    unfold after
    rw [hoffset, step, if_pos hdense, ofNat_add, ofNat_add, show n + 1 - 10 = n - 10 by omega]
    rfl
  · have hdouble : (after n).currentMultiplier * 2 = ofNat (2 ^ (n - 10 + 1)) := by
      rw [pow_succ, ofNat_mul]
      rfl
    rw [if_neg (mt hi.mp hdense)]
    simp only [hdouble]
    unfold after
    rw [hoffset, step, if_neg hdense, ofNat_add, ofNat_add, show n + 1 - 10 = n - 10 + 1 by omega]
    rfl

theorem toNat_offset (n : Nat) : (after n).currentBackOffset.toNat = offset 10 n % 2 ^ 64 :=
  toNat_ofNat'

end HistoryCounters

namespace BlockchainDB

/-- The loop from its `n`-th turn on, when it ends before an offset wraps. -/
theorem shortHistoryLoop_eq (db : BlockchainDB) {sz : UInt64} {n k fuel : Nat}
    (hbefore : ∀ j < n + k, offset 10 j < sz.toNat) (hend : sz.toNat ≤ offset 10 (n + k))
    (hfit : offset 10 (n + k) < 2 ^ 64) (hfuel : k < fuel) :
    db.shortHistoryLoop sz fuel (.after n) =
      some ((range' n k).map fun j => db.blockIdByHeight (sz.toNat - offset 10 j), false) := by
  induction k generalizing n fuel with
  | zero =>
    obtain ⟨fuel, rfl⟩ := Nat.exists_eq_add_of_lt hfuel
    rw [add_zero] at hend hfit
    have hstop : ¬ (HistoryCounters.after n).currentBackOffset < sz := by
      rw [lt_iff_toNat_lt, HistoryCounters.toNat_offset, mod_eq_of_lt hfit]
      exact not_lt.mpr hend
    rw [zero_add, shortHistoryLoop, if_neg hstop]
    rfl
  | succ k ih =>
    obtain ⟨fuel, rfl⟩ := Nat.exists_eq_add_of_lt hfuel
    have hlt := hbefore n (by omega)
    have hoffset : (HistoryCounters.after n).currentBackOffset.toNat = offset 10 n := by
      exact mod_eq_of_lt (by omega)
    have hgo : (HistoryCounters.after n).currentBackOffset < sz := by
      rw [lt_iff_toNat_lt, hoffset]
      exact hlt
    have hheight : (sz - (HistoryCounters.after n).currentBackOffset).toNat =
        sz.toNat - offset 10 n := by
      rw [UInt64.toNat_sub_of_le _ _ (UInt64.le_of_lt hgo), hoffset]
    have hgenesis : sz - (HistoryCounters.after n).currentBackOffset ≠ 0 := by
      intro hzero
      rw [hzero] at hheight
      change 0 = _ at hheight
      omega
    have hturn : n < 2 ^ 64 := by
      have hself := lt_offset_self 10 n
      omega
    rw [shortHistoryLoop, if_pos hgo, HistoryCounters.next_after hturn,
      ih (n := n + 1) (fun j hj => hbefore j (by omega)) (by rwa [add_right_comm])
        (by rwa [add_right_comm]) (by omega), hheight, decide_eq_false hgenesis]
    rfl

theorem ten_pos : 0 < 10 := by
  decide

/-- The heights that are sent from a chain of length `n`. -/
def historyHeights (n : Nat) : List Nat :=
  (range (first ten_pos n)).map (fun j => n - offset 10 j) ++ [0]

/-- The ids that are sent. -/
theorem getShortChainHistory_eq (db : BlockchainDB) (hpos : 0 < db.height)
    (hlen : db.height ≤ 2 ^ 63 + 9) {fuel : Nat} (hfuel : Nat.log 2 db.height + 10 < fuel) :
    db.getShortChainHistory fuel = some ((historyHeights db.height).map db.blockIdByHeight) := by
  have hsz : (ofNat db.height).toNat = db.height := by
    exact mod_eq_of_lt (by omega)
  have hne : ofNat db.height ≠ 0 := by
    intro hzero
    rw [hzero] at hsz
    change 0 = _ at hsz
    omega
  have hlog := first_le_log ten_pos db.height
  -- The loop ends at turn 72 at the latest.
  have hfit : offset 10 (first ten_pos db.height) < 2 ^ 64 := by
    have hturns : first ten_pos db.height ≤ 72 := Nat.find_min' _ hlen
    have hmono := (offset_strictMono ten_pos).monotone hturns
    exact hmono.trans_lt (by decide)
  have hbefore : ∀ j < 0 + first ten_pos db.height, offset 10 j < (ofNat db.height).toNat := by
    intro j hj
    rw [hsz]
    exact offset_lt_of_lt_first ten_pos (by omega)
  have hend : (ofNat db.height).toNat ≤ offset 10 (0 + first ten_pos db.height) := by
    rw [hsz, zero_add]
    exact le_offset_first ten_pos _
  have hloop := db.shortHistoryLoop_eq hbefore hend (by rwa [zero_add])
    (show first ten_pos db.height < fuel by omega)
  simp only [getShortChainHistory, if_neg hne]
  rw [show HistoryCounters.start = .after 0 from rfl, hloop, historyHeights, map_append,
    map_map, range_eq_range', hsz]
  rfl

theorem historyHeights_length (n : Nat) : (historyHeights n).length ≤ Nat.log 2 n + 11 := by
  have hlog := first_le_log ten_pos n
  rw [historyHeights, length_append, length_map, length_range, length_singleton]
  omega

/-- The heights go down, and only the last one is 0. -/
theorem historyHeights_pairwise (n : Nat) : (historyHeights n).Pairwise (· > ·) := by
  refine pairwise_append.mpr ⟨?_, pairwise_singleton _ _, ?_⟩
  · refine pairwise_map.mpr (pairwise_lt_range.imp_of_mem ?_)
    intro i j _ hj hij
    have hlt := offset_lt_of_lt_first ten_pos (mem_range.mp hj)
    have hmono := offset_strictMono ten_pos hij
    omega
  · intro a ha b hb
    rcases mem_map.mp ha with ⟨j, hj, rfl⟩
    have hlt := offset_lt_of_lt_first ten_pos (mem_range.mp hj)
    rw [mem_singleton.mp hb]
    omega

theorem historyHeights_head? {n : Nat} (hn : 0 < n) : (historyHeights n).head? = some (n - 1) := by
  unfold historyHeights
  cases hfirst : first ten_pos n with
  | zero =>
    have hone := le_offset_first ten_pos n
    rw [hfirst, offset_zero] at hone
    rw [show n - 1 = 0 by omega]
    rfl
  | succ k =>
    rw [range_succ_eq_map, map_cons, cons_append, head?_cons, offset_zero]

theorem historyHeights_lt {n : Nat} (hn : 0 < n) : ∀ h ∈ historyHeights n, h < n := by
  intro h hh
  rcases mem_append.mp hh with hmem | hmem
  · rcases mem_map.mp hmem with ⟨j, -, rfl⟩
    have hself := lt_offset_self 10 j
    omega
  · rw [mem_singleton.mp hmem]
    exact hn

/-- The first height below `f` is not further below it than the end of the chain is above. -/
theorem historyHeights_find? {n f : Nat} (hpos : 0 < f) (hf : f ≤ n) :
    ∃ s, (historyHeights n).find? (· < f) = some s ∧ s ≤ f - 1 ∧ f - 1 - s ≤ n - f := by
  -- The offset of the last height below `f`, and the first step that reaches it.
  have hreach := le_offset_first ten_pos (n - f + 1)
  have hclose := offset_first_le ten_pos (show 0 < n - f + 1 by omega)
  have hskip : ∀ j < first ten_pos (n - f + 1), ¬ n - offset 10 j < f := by
    intro j hj
    have hlt := offset_lt_of_lt_first ten_pos hj
    omega
  unfold historyHeights
  rw [find?_append]
  by_cases hin : first ten_pos (n - f + 1) < first ten_pos n
  · refine ⟨n - offset 10 (first ten_pos (n - f + 1)), ?_, by omega, by omega⟩
    rw [Option.or_eq_some_iff]
    refine Or.inl (find?_eq_some_iff_getElem.mpr ⟨by simpa using by omega, ?_⟩)
    refine ⟨first ten_pos (n - f + 1), by simpa using hin, by simp, ?_⟩
    intro j hj
    simpa using not_lt.mp (hskip j hj)
  · -- The loop was over before, and the genesis block is the answer.
    have hend := le_offset_first ten_pos n
    have hmono := (offset_strictMono ten_pos).monotone (not_lt.mp hin)
    refine ⟨0, ?_, zero_le _, by omega⟩
    rw [Option.or_eq_some_iff]
    refine Or.inr ⟨find?_eq_none.mpr ?_, by simp [hpos]⟩
    intro h hh
    rcases mem_map.mp hh with ⟨j, hj, rfl⟩
    have hlt := hskip j (by have hj' := mem_range.mp hj; omega)
    simpa using hlt

end BlockchainDB

/-! ## Two chains -/

/-- Two chains that have exactly the blocks below `f` in common, with ids that no two different
    blocks share. -/
structure SharesBelow (A B : BlockchainDB) (f : Nat) : Prop where
  pos : 0 < f
  shared : ∀ h, h < f ↔ ∃ id, A.ids[h]? = some id ∧ B.ids[h]? = some id
  collisionFree : ∀ a ∈ A.blocks, ∀ b ∈ B.blocks, a.hash = b.hash → a.block = b.block

/-- The id below a block is the one it names as its parent. -/
theorem BlockchainDB.ids_prevId (db : BlockchainDB) {h : Nat} {b : StoredBlock}
    (hb : db.blocks[h + 1]? = some b) : db.ids[h]? = some b.block.prevId := by
  rcases List.getElem?_eq_some_iff.mp hb with ⟨hlt, hget⟩
  have hlink := isChain_iff_getElem.mp db.linked h hlt
  rw [hget] at hlink
  rw [ids, getElem?_map, getElem?_eq_getElem (lt_of_succ_lt hlt), hlink]
  rfl

namespace SharesBelow

variable {A B : BlockchainDB} {f : Nat} (h : SharesBelow A B f)
include h

/-- A block of both chains has the same height in both. Going down to the parents, one of the two
    walks comes to its genesis block first, which is the genesis block of the other chain too. -/
theorem same_height {i j : Nat} {id : Hash} (hi : A.ids[i]? = some id)
    (hj : B.ids[j]? = some id) : i = j := by
  rcases (h.shared 0).mp h.pos with ⟨genesis, hA, hB⟩
  induction i generalizing j id with
  | zero =>
    rw [hA] at hi
    cases hi
    exact ids_inj B hB hj
  | succ i ih =>
    cases j with
    | zero =>
      rw [hB] at hj
      cases hj
      exact ids_inj A hi hA
    | succ j =>
      rw [ids, getElem?_map, Option.map_eq_some_iff] at hi hj
      rcases hi with ⟨a, ha, hahash⟩
      rcases hj with ⟨b, hb, hbhash⟩
      have hblock := h.collisionFree a (mem_of_getElem? ha) b (mem_of_getElem? hb)
        (hahash.trans hbhash.symm)
      have hparent := A.ids_prevId ha
      rw [hblock] at hparent
      rw [ih hparent (B.ids_prevId hb)]

/-- Of the first chain's ids the second has those below the split, at the same heights. -/
theorem blockHeight?_eq {k : Nat} (hk : k < A.height) :
    B.blockHeight? (A.blockIdByHeight k) = if k < f then some k else none := by
  have hid : A.ids[k]? = some (A.blockIdByHeight k) := by
    have hlt : k < A.ids.length := by rwa [ids, length_map]
    rw [blockIdByHeight, getElem?_eq_getElem hlt]
    rfl
  split
  · rename_i hbelow
    rcases (h.shared k).mp hbelow with ⟨id, hA, hB⟩
    rw [hid] at hA
    cases hA
    exact blockHeight?_eq_some B hB
  · rename_i hsplit
    refine findIdx?_eq_none_iff.mpr fun id hmem => decide_eq_false fun heq => hsplit ?_
    rcases mem_iff_getElem?.mp hmem with ⟨j, hj⟩
    rw [heq] at hj
    have hsame := h.same_height hid hj
    rw [← hsame] at hj
    exact (h.shared k).mpr ⟨_, hid, hj⟩

theorem le_height : f ≤ A.height := by
  by_contra hlong
  rcases (h.shared A.height).mp (by omega) with ⟨id, hA, -⟩
  have hlt := (List.getElem?_eq_some_iff.mp hA).1
  rw [ids, length_map] at hlt
  exact lt_irrefl _ hlt

/-- The peer answers from the first height of the list that is below the split. -/
theorem findBlockchainSupplement_eq {heights : List Nat}
    (hlt : ∀ k ∈ heights, k < A.height) (hlast : heights.getLast? = some 0) :
    B.findBlockchainSupplement (heights.map A.blockIdByHeight) = heights.find? (· < f) := by
  rcases (h.shared 0).mp h.pos with ⟨genesis, hA, hB⟩
  have hback : (heights.map A.blockIdByHeight).getLast? = some genesis := by
    rw [getLast?_map, hlast, Option.map_some, blockIdByHeight, hA]
    rfl
  have hsearch : ∀ heights : List Nat, (∀ k ∈ heights, k < A.height) →
      (heights.map A.blockIdByHeight).findSome? B.blockHeight? = heights.find? (· < f) := by
    intro heights hlt
    induction heights with
    | nil => rfl
    | cons k rest ih =>
      have hrest := ih fun j hj => hlt j (mem_cons_of_mem k hj)
      rw [map_cons, findSome?_cons, h.blockHeight?_eq (hlt k mem_cons_self), find?_cons]
      split_ifs with hk
      · rw [decide_eq_true hk]
      · rw [decide_eq_false hk]
        exact hrest
  unfold findBlockchainSupplement
  rw [hback, head?_eq_getElem?, hB]
  simp only [ne_eq, not_true_eq_false, if_false]
  exact hsearch heights hlt

end SharesBelow

/-- The history is a list of ids of the chain at decreasing heights, from the tip to the genesis
    block and of logarithmic length. The peer's answer to it is a height of a block that both have,
    below the split by no more than the sender's own blocks above it. -/
theorem shortHistory_supplement {A B : BlockchainDB} {f : Nat} (hshares : SharesBelow A B f)
    (hlen : A.height ≤ 2 ^ 63 + 9) :
    ∃ heights : List Nat,
      (∀ fuel, Nat.log 2 A.height + 10 < fuel →
        A.getShortChainHistory fuel = some (heights.map A.blockIdByHeight)) ∧
      heights.Pairwise (· > ·) ∧ heights.head? = some (A.height - 1) ∧
      heights.getLast? = some 0 ∧ heights.length ≤ Nat.log 2 A.height + 11 ∧
      ∃ s, B.findBlockchainSupplement (heights.map A.blockIdByHeight) = some s ∧ s ≤ f - 1 ∧
        f - 1 - s ≤ A.height - f := by
  have hpos : 0 < A.height := hshares.pos.trans_le hshares.le_height
  have hlast : (historyHeights A.height).getLast? = some 0 := getLast?_concat
  refine ⟨historyHeights A.height, ?_, historyHeights_pairwise _,
    historyHeights_head? hpos, hlast, historyHeights_length _, ?_⟩
  · intro fuel hfuel
    exact A.getShortChainHistory_eq hpos hlen hfuel
  · rw [hshares.findBlockchainSupplement_eq (historyHeights_lt hpos) hlast]
    exact historyHeights_find? hshares.pos hshares.le_height

theorem ramp_height (n : Nat) (hn : n < 2 ^ 256) : (Blockchain.ramp n hn).height = n :=
  (length_map _).trans length_range

/-- A ramp is the beginning of every longer one. -/
theorem ramp_shares {m n : Nat} (hm : m < 2 ^ 256) (hn : n < 2 ^ 256) (hpos : 0 < m) (hle : m ≤ n) :
    SharesBelow (ramp m hm) (ramp n hn) m := by
  refine ⟨hpos, fun h => ?_, ?_⟩
  · rw [ramp_ids, ramp_ids]
    constructor
    · intro hlt
      refine ⟨BitVec.ofNat 256 (h + 1), ?_, ?_⟩
      · rw [getElem?_map, getElem?_range hlt]
        rfl
      · rw [getElem?_map, getElem?_range (hlt.trans_le hle)]
        rfl
    · intro hid
      rcases hid with ⟨id, hA, -⟩
      simpa using (List.getElem?_eq_some_iff.mp hA).1
  · intro a ha b hb hhash
    rcases mem_map.mp ha with ⟨i, hi, rfl⟩
    rcases mem_map.mp hb with ⟨j, hj, rfl⟩
    have hi' := mem_range.mp hi
    have hj' := mem_range.mp hj
    have heq := congrArg BitVec.toNat hhash
    simp only [BitVec.toNat_ofNat] at heq
    rw [mod_eq_of_lt (by omega), mod_eq_of_lt (by omega)] at heq
    rw [show i = j by omega]

theorem shortHistory_supplement_ramp :
    SharesBelow (ramp 40 (by decide)) (ramp 60 (by decide)) 40 ∧
      ∃ heights : List Nat,
        (ramp 40 (by decide)).getShortChainHistory 16 =
          some (heights.map (ramp 40 (by decide)).blockIdByHeight) ∧
        (ramp 60 (by decide)).findBlockchainSupplement
          (heights.map (ramp 40 (by decide)).blockIdByHeight) = some 39 := by
  have hshares := ramp_shares (m := 40) (n := 60) (by decide) (by decide) (by decide) (by decide)
  have hheight := ramp_height 40 (by decide)
  rcases shortHistory_supplement hshares (by rw [hheight]; decide) with
    ⟨heights, hhistory, -, -, -, -, s, hfound, hle, hgap⟩
  rw [hheight] at hgap
  refine ⟨hshares, heights, hhistory 16 (by rw [hheight]; decide), ?_⟩
  rw [hfound, show s = 39 by omega]

/-! ## A chain that is too long -/

/-- What the loop collects in its first turns, with the offsets as they are in 64 bits. -/
theorem BlockchainDB.shortHistoryLoop_getElem? (db : BlockchainDB) {sz : UInt64} {n m fuel : Nat}
    {ids : List Hash} {genesis : Bool}
    (hloop : db.shortHistoryLoop sz fuel (.after n) = some (ids, genesis))
    (hgo : ∀ j < n + m, offset 10 j % 2 ^ 64 < sz.toNat) (hturns : n + m < 2 ^ 64) :
    ∀ j < m, ids[j]? = some (db.blockIdByHeight (sz.toNat - offset 10 (n + j) % 2 ^ 64)) := by
  induction m generalizing n fuel ids genesis with
  | zero =>
    intro j hj
    exact absurd hj (not_lt_zero j)
  | succ m ih =>
    cases fuel with
    | zero => cases hloop
    | succ fuel =>
      have hlt : (HistoryCounters.after n).currentBackOffset < sz := by
        exact hgo n (by omega)
      rw [shortHistoryLoop, if_pos hlt, HistoryCounters.next_after (by omega),
        Option.map_eq_some_iff] at hloop
      rcases hloop with ⟨⟨rest, flag⟩, hrest, heq⟩
      cases heq
      intro j hj
      cases j with
      | zero =>
        rw [getElem?_cons_zero, UInt64.toNat_sub_of_le _ _ (UInt64.le_of_lt hlt),
          HistoryCounters.toNat_offset]
        rfl
      | succ j =>
        rw [getElem?_cons_succ, ih hrest (fun k hk => hgo k (by omega)) (by omega) j
          (by omega), add_assoc, add_comm 1 j]

/-- On a chain of `2 ^ 63 + 10` blocks the loop collects an id a second time, so no history with
    heights that go down comes out of it. -/
theorem long_history_repeats :
    ¬ ∃ fuel ids, (ramp (2 ^ 63 + 10) (by decide)).getShortChainHistory fuel = some ids ∧
      ids.Nodup := by
  rintro ⟨fuel, ids, hids, hnodup⟩
  set db := ramp (2 ^ 63 + 10) (by decide)
  have hheight : db.height = 2 ^ 63 + 10 := ramp_height _ _
  have hsz : (ofNat db.height).toNat = 2 ^ 63 + 10 := by
    rw [hheight]
    rfl
  have hne : ofNat db.height ≠ 0 := by
    rw [hheight]
    decide
  -- At turn 73 the offset has wrapped to that of turn 8.
  have hgo : ∀ j < 0 + 74, offset 10 j % 2 ^ 64 < (ofNat db.height).toNat := by
    intro j hj
    rw [hsz]
    by_cases hlast : j = 73
    · rw [hlast]
      decide
    · have hmono := (offset_strictMono ten_pos).monotone (show j ≤ 72 by omega)
      exact (mod_le _ _).trans_lt (hmono.trans_lt (by decide))
  simp only [getShortChainHistory, if_neg hne, Option.map_eq_some_iff] at hids
  rcases hids with ⟨⟨loopIds, genesis⟩, hloop, hids⟩
  have hget := db.shortHistoryLoop_getElem? (n := 0) (m := 74) hloop hgo (by omega)
  have hlater : ∀ j < 74, ids[j]? = loopIds[j]? := by
    intro j hj
    have hin := (List.getElem?_eq_some_iff.mp (hget j hj)).1
    rw [← hids]
    split
    · rfl
    · exact getElem?_append_left hin
  have hwrapped : offset 10 (0 + 73) % 2 ^ 64 = offset 10 (0 + 8) % 2 ^ 64 := by
    decide
  have hsame : ids[8]? = ids[73]? := by
    rw [hlater 8 (by omega), hlater 73 (by omega), hget 8 (by omega), hget 73 (by omega), hwrapped]
  have hin : 8 < ids.length := by
    have hsome := hget 8 (by omega)
    rw [← hlater 8 (by omega)] at hsome
    exact (List.getElem?_eq_some_iff.mp hsome).1
  exact absurd ((getElem?_inj hin hnodup).mp hsame) (by omega)

end CocaineNode
