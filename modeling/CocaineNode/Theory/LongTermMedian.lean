import CocaineNode.Theory.MedianWindow
import CocaineNode.Theory.NodeRun

/-!
# The Cached Long Term Median

The cache of `get_long_term_block_weight_median` is keyed by the id of the block
its window ends with. The long term weight of a block is bounded by the median
of those below it, by a rule that depends on the version of the block. A block
enters the chain only under the version it names, so the rule depends on the
block, its weight and the weights below, and on nothing the node holds in
memory. So the id determines the window, whatever was pushed, popped or aborted
since the cache was filled.

A block does not carry its weight: its transactions have one, and the block
names them by their ids. `SameWeights` says that a block is always recorded
with the same weight.

## Theorems

* `weightsKept_step`: Every step keeps the invariant.
* `requestMedian_run`: What a request answers after any run.
-/

namespace CocaineNode

open List Option BlockchainDB

open Transition Blockchain RollingMedian

namespace RollingMedian

scoped instance instLinearOrderUInt64 : LinearOrder UInt64 where
  le_refl := UInt64.le_refl
  le_trans _ _ _ := UInt64.le_trans
  le_antisymm _ _ := UInt64.le_antisymm
  le_total := UInt64.le_total
  toDecidableLE := inferInstance
  toDecidableLT := inferInstance
  toDecidableEq := inferInstance
  lt_iff_le_not_ge a b := by
    rw [UInt64.lt_iff_toNat_lt, UInt64.le_iff_toNat_le, UInt64.le_iff_toNat_le]
    omega

end RollingMedian

/-! ## The rule -/

/-- The long term weight of a block over the long term weights in the window below it. -/
def longTermBound (hfVersion : UInt8) (weights : List UInt64) (blockWeight : UInt64) : UInt64 :=
  if hfVersion < 10 then blockWeight
  else if weights = [] then blockWeight
  else
    let effective := max 300000 (Epee.median weights)
    if hfVersion ≥ 15 then
      min (max blockWeight (effective * 10 / 17)) (effective + effective * 7 / 10)
    else min blockWeight (effective + effective * 2 / 5)

/-- The long term weights in the window at the end of a chain. -/
def longTermWindow (window : Nat) (bs : List StoredBlock) : List UInt64 :=
  lastItems window (bs.map StoredBlock.longTermWeight)

/-- A record has the long term weight that the rule gives for its block. -/
def WeightRule (window : Nat) (bs : List StoredBlock) (b : StoredBlock) : Prop :=
  b.longTermWeight = longTermBound b.block.majorVersion (longTermWindow window bs) b.weight

/-- A block is always recorded with the same weight. -/
def SameWeights (log : List StoredBlock) : Prop :=
  ∀ b ∈ log, ∀ c ∈ log, b.block = c.block → b.weight = c.weight

theorem weightRule_determines {log : List StoredBlock} (hsame : SameWeights log) (window : Nat) :
    Determines StoredBlock.longTermWeight (WeightRule window) log := by
  intro bs cs b c hbelow hb hc hblock hrule hrule'
  rw [hrule, hrule', longTermWindow, longTermWindow, hbelow, hblock, hsame b hb c hc hblock]

/-- What is assumed of the blocks a node has seen. -/
structure LogSound (E : Externals) (log : List StoredBlock) : Prop where
  free : CollisionFree E (log.map StoredBlock.block)
  weights : SameWeights log

theorem LogSound.of_suffix {E : Externals} {log log' : List StoredBlock} (h : log <:+ log')
    (hlog : LogSound E log') : LogSound E log :=
  ⟨CollisionFree.of_suffix h hlog.free,
    fun b hb c hc => hlog.weights b (h.subset hb) c (h.subset hc)⟩

/-! ## A request -/

section Refill

variable {α : Type}

theorem sinceClear_insert (items : List α) : sinceClear (items.map Op.insert) = items := by
  have hgen : ∀ start : List α,
      (items.map Op.insert).foldl sinceClearStep start = start ++ items := by
    induction items with
    | nil => exact fun start => (append_nil start).symm
    | cons v rest ih =>
      intro start
      rw [map_cons, foldl_cons, ih, sinceClearStep, append_assoc]
      rfl
  exact hgen []

theorem lastItems_of_le {N : Nat} {items : List α} (h : items.length ≤ N) :
    lastItems N items = items := by
  rw [lastItems, Nat.sub_eq_zero_of_le h, drop_zero]

theorem lastItems_concat_ne_nil {N : Nat} (hN : 0 < N) (items : List α) (v : α) :
    lastItems N (items ++ [v]) ≠ [] := by
  have hlen := length_lastItems N (items ++ [v])
  rw [length_append, length_singleton] at hlen
  intro hnil
  rw [hnil, length_nil] at hlen
  omega

/-- The rolling median, cleared and filled. -/
theorem refill_valid [LinearOrder α] (rm : RollingMedian α) (hN : 0 < rm.N) (items : List α)
    (hle : items.length ≤ rm.N) :
    (items.foldl RollingMedian.insert rm.clear).Valid items ∧
      (items.foldl RollingMedian.insert rm.clear).N = rm.N := by
  have hcap : rm.clear.N = rm.N := (clearLoop_frame _ _).2.1
  have hrun : items.foldl RollingMedian.insert rm.clear =
      run (items.map Op.insert) rm.clear := by
    rw [run, foldl_map]
    rfl
  have hvalid := run_valid (items.map Op.insert) (valid_clear rm hN)
  rw [hcap, windowAfter, sinceClear_insert, lastItems_of_le hle, ← hrun] at hvalid
  exact hvalid

end Refill

/-- The cache is that of a chain the node has seen, or it is empty. -/
structure LongTermReady (E : Externals) (window : Nat) (log : List StoredBlock)
    (c : LongTermCache) : Prop where
  capacity : c.rollingMedian.N = window
  filled : ∃ cs, Known E (WeightRule window) log cs ∧ c.tipHash = lastId cs ∧
    (c.rollingMedian.Valid (longTermWindow window cs) ∨ c.rollingMedian.Valid [])

section Request

variable {E : Externals} {window : Nat} {log : List StoredBlock} {c : LongTermCache}

theorem LongTermReady.cons_log (h : LongTermReady E window log c) (b : StoredBlock) :
    LongTermReady E window (b :: log) c := by
  rcases h.filled with ⟨cs, hknown, htip, hvalid⟩
  exact ⟨h.capacity, cs, hknown.cons_log b, htip, hvalid⟩

/-- The cache that a request leaves, for a chain that ends in a known block. -/
theorem longTermReady_of_valid {bs : List StoredBlock} {rm : RollingMedian UInt64}
    (hknown : Known E (WeightRule window) log bs) (hcap : rm.N = window)
    (hvalid : rm.Valid (longTermWindow window bs)) : LongTermReady E window log ⟨lastId bs, rm⟩ :=
  ⟨hcap, bs, hknown, rfl, Or.inl hvalid⟩

/-- Two known chains with one tip have one window. -/
theorem Known.longTermWindow_eq {bs cs : List StoredBlock} (hlog : LogSound E log)
    (hbs : Known E (WeightRule window) log bs) (hcs : Known E (WeightRule window) log cs)
    (hlast : lastId bs = lastId cs) : longTermWindow window bs = longTermWindow window cs := by
  have hsame := Recorded.unique StoredBlock.longTermWeight hlog.free
    (weightRule_determines hlog.weights window) hbs.recorded hcs.recorded hbs.logged
    hcs.logged hlast
  rw [longTermWindow, longTermWindow, hsame]

/-- One more block moves the window, unless the cache is empty and the window longer than one
    block. -/
theorem insert_longTermWindow {bs cs : List StoredBlock} {b : StoredBlock}
    {rm : RollingMedian UInt64} (hcap : rm.N = window)
    (hsame : longTermWindow window cs = longTermWindow window bs)
    (hvalid : rm.Valid (longTermWindow window cs) ∨ rm.Valid []) (hempty : rm.sz = 0 → window = 1) :
    (rm.insert b.longTermWeight).Valid (longTermWindow window (bs ++ [b])) ∧
      (rm.insert b.longTermWeight).N = window := by
  have hfrom : ∀ items, rm.Valid (lastItems rm.N items) →
      (rm.insert b.longTermWeight).Valid (lastItems window (items ++ [b.longTermWeight])) ∧
        (rm.insert b.longTermWeight).N = window := by
    intro items hitems
    rcases apply_valid hitems (Op.insert b.longTermWeight) with ⟨hnew, hkept⟩
    rw [hcap] at hnew hkept
    exact ⟨hnew, hkept⟩
  rw [longTermWindow, map_append, map_singleton]
  rcases hvalid with hvalid | hvalid
  · refine hfrom _ ?_
    rw [hcap]
    rw [hsame] at hvalid
    exact hvalid
  · -- With a window of one block it does not matter what was there before.
    have hsz : rm.sz = 0 := by rw [← hvalid.length_items, length_nil]
    have hone := hempty hsz
    have hnil := hfrom [] (by rw [lastItems_nil]; exact hvalid)
    have hlast : ∀ items : List UInt64,
        lastItems window (items ++ [b.longTermWeight]) = [b.longTermWeight] := by
      intro items
      rw [lastItems, hone, length_append, length_singleton, Nat.add_sub_cancel, drop_left]
    rw [hlast] at hnil ⊢
    exact hnil

/-- The cached answer, when the cache ends with the same block and is as long as the window. -/
theorem LongTermReady.median_eq (hready : LongTermReady E window log c) (hlog : LogSound E log)
    {bs : List StoredBlock} (hknown : Known E (WeightRule window) log bs)
    (hne : longTermWindow window bs ≠ []) (hhash : lastId bs = c.tipHash)
    (hsz : (longTermWindow window bs).length = c.rollingMedian.sz) :
    c.rollingMedian.median = Epee.median (longTermWindow window bs) := by
  rcases hready.filled with ⟨cs, hcs, htip, hvalid | hvalid⟩
  · rw [Known.longTermWindow_eq hlog hcs hknown (by rw [← htip, hhash])] at hvalid
    exact hvalid.median_eq hne
  · rw [← hvalid.length_items, length_nil, length_eq_zero_iff] at hsz
    exact absurd hsz hne

/-- The weights that the rolling median is filled with. -/
theorem getLongTermBlockWeights_window (db : BlockchainDB) (hwindow : 0 < window)
    (hheight : 0 < db.height) :
    db.getLongTermBlockWeights (db.height - min window db.height) (min window db.height) =
      some (longTermWindow window db.blocks) := by
  rw [getLongTermBlockWeights, if_neg (by omega), longTermWindow, lastItems,
    length_map, map_take, map_drop, take_of_length_le]
  · rw [show db.blocks.length = db.height from rfl,
      show db.height - min window db.height = db.height - window by omega]
  · rw [length_drop, length_map]
    change db.height - _ ≤ _
    omega

/-- A request of the shape the callers make: the window at the end of the chain. -/
theorem getLongTermBlockWeightMedian_ready {db : BlockchainDB} (hwindow : 0 < window)
    (hlog : LogSound E log) (hready : LongTermReady E window log c)
    (hknown : Known E (WeightRule window) log db.blocks) (hheight : 0 < db.height) :
    ∃ c', db.getLongTermBlockWeightMedian c (db.height - min window db.height)
        (min window db.height) = some (Epee.median (longTermWindow window db.blocks), c') ∧
      LongTermReady E window log c' := by
  rcases hready.filled with ⟨cs, hcs, htip, hvalid⟩
  rcases eq_nil_or_concat db.blocks with hnil | ⟨init, top, hconcat⟩
  · rw [BlockchainDB.height, hnil] at hheight
    exact absurd hheight (Nat.lt_irrefl 0)
  rw [concat_eq_append] at hconcat
  have hlen : db.height = init.length + 1 := by
    rw [BlockchainDB.height, hconcat, length_append, length_singleton]
  have htipHeight : db.height - min window db.height + min window db.height - 1 = init.length := by
    omega
  have hcount : min window db.height ≠ 0 := by omega
  have htop : db.blockIdByHeight init.length = lastId db.blocks := by
    rw [blockIdByHeight, ids, hconcat, lastId_concat, getElem?_map, getElem?_concat_length]
    rfl
  have hne : longTermWindow window db.blocks ≠ [] := by
    rw [hconcat, longTermWindow, map_append, map_singleton]
    exact lastItems_concat_ne_nil hwindow _ _
  have hsize : (longTermWindow window db.blocks).length = min window db.height := by
    rw [longTermWindow, length_lastItems, length_map, Nat.min_comm]
    rfl
  simp only [getLongTermBlockWeightMedian, if_neg hcount, htipHeight,
    if_pos (show init.length < db.height by omega), htop]
  split_ifs with hcached hmoved
  · rcases hcached with ⟨-, hsz, hhash⟩
    rw [hready.median_eq hlog hknown hne hhash (hsize.trans hsz)]
    exact ⟨c, rfl, hready⟩
  · rcases hmoved with ⟨hpos, -, hsz, hhash⟩
    have hbelow : Known E (WeightRule window) log init := by
      have hdrop := hknown.dropLast
      rwa [hconcat, dropLast_concat] at hdrop
    have hold : db.blockIdByHeight (init.length - 1) = lastId init := by
      rw [blockIdByHeight, ids, hconcat, getElem?_map,
        getElem?_append_left (by omega), lastId, getLast?_eq_getElem?]
    have hsame := Known.longTermWindow_eq hlog hcs hbelow (by rw [← htip, ← hhash, hold])
    have hweight : db.getBlockLongTermWeight init.length = top.longTermWeight := by
      rw [getBlockLongTermWeight, hconcat, getElem?_concat_length]
      rfl
    rcases insert_longTermWindow (b := top) hready.capacity hsame hvalid (by omega)
      with ⟨hnew, hcap⟩
    rw [hweight]
    rw [hconcat] at hne hknown ⊢
    refine ⟨_, ?_, longTermReady_of_valid hknown hcap hnew⟩
    rw [hnew.median_eq hne]
  · have hcap : 0 < c.rollingMedian.N := by
      rw [hready.capacity]
      exact hwindow
    rcases refill_valid c.rollingMedian hcap (longTermWindow window db.blocks)
      (by rw [hsize, hready.capacity]; omega) with ⟨hnew, hkept⟩
    rw [getLongTermBlockWeights_window db hwindow hheight, map_some]
    refine ⟨_, ?_, longTermReady_of_valid hknown (hkept.trans hready.capacity) hnew⟩
    rw [hnew.median_eq hne]

/-- The long term weight of the next block, through the cache, is that of the rule. -/
theorem nextLongTermBlockWeight_ready {s : Blockchain} (hwindow : 0 < window)
    (hlog : LogSound E log) (hready : LongTermReady E window log c)
    (hknown : Known E (WeightRule window) log s.db.blocks) (blockWeight : UInt64) :
    ∃ c', s.nextLongTermBlockWeight window c blockWeight =
        some (longTermBound s.hardfork.getCurrentVersion (longTermWindow window s.db.blocks)
          blockWeight, c') ∧
      LongTermReady E window log c' := by
  simp only [nextLongTermBlockWeight, boundedBlockWeight, longTermBound]
  by_cases hversion : s.hardfork.getCurrentVersion < 10
  · rw [if_pos hversion, if_pos hversion]
    exact ⟨c, rfl, hready⟩
  rw [if_neg hversion, if_neg hversion]
  have hlen : (longTermWindow window s.db.blocks).length = min window s.height := by
    rw [longTermWindow, length_lastItems, length_map, Nat.min_comm]
    rfl
  by_cases hzero : min window s.height = 0
  · rw [hzero, length_eq_zero_iff] at hlen
    rw [if_pos hzero, if_pos hlen]
    exact ⟨c, rfl, hready⟩
  · have hne : longTermWindow window s.db.blocks ≠ [] := by
      intro hnil
      rw [hnil, length_nil] at hlen
      exact hzero hlen.symm
    have hheight : 0 < s.db.height := by
      change 0 < s.height
      omega
    rcases getLongTermBlockWeightMedian_ready hwindow hlog hready hknown hheight with
      ⟨c', hrequest, hready'⟩
    have hrequest' : s.db.getLongTermBlockWeightMedian c (s.height - min window s.height)
        (min window s.height) =
          some (Epee.median (longTermWindow window s.db.blocks), c') := hrequest
    rw [if_neg hzero, if_neg hne, hrequest', map_some]
    exact ⟨c', rfl, hready'⟩

end Request

/-! ## Every step keeps the invariant -/

/-- The chain, the one an abort would go back to, and the cache. -/
structure WeightsKept (E : Externals) (window : Nat) (n : NodeState) : Prop where
  chain : Known E (WeightRule window) n.log n.chain.db.blocks
  batch : ∀ before, n.batch = some before → Known E (WeightRule window) n.log before.blocks
  ready : LongTermReady E window n.log n.longTerm

section Steps

variable {E : Externals} {window : Nat} {n n' : NodeState}

/-- A chain state with the same blocks. -/
theorem WeightsKept.withChain (h : WeightsKept E window n) {s : Blockchain}
    (hblocks : s.db.blocks = n.chain.db.blocks) : WeightsKept E window (n.withChain s) := by
  refine ⟨?_, h.batch, h.ready⟩
  change Known E (WeightRule window) n.log s.db.blocks
  rw [hblocks]
  exact h.chain

/-- A block that has the version in force. -/
theorem check_version {hf : HardFork} {b : Block} (h : hf.check b = true) :
    hf.getCurrentVersion = b.majorVersion := by
  unfold HardFork.check HardFork.doCheck at h
  rw [Bool.and_eq_true, decide_eq_true_eq] at h
  exact h.1.symm

theorem WeightsKept.push (h : WeightsKept E window n) (hwindow : 0 < window)
    (hlog : LogSound E n.log) {s : Blockchain} {b : StoredBlock} {c : LongTermCache}
    (hchecked : Checked E n.chain b)
    (hweight : n.chain.nextLongTermBlockWeight window n.longTerm b.weight =
      some (b.longTermWeight, c)) (hblocks : s.db.blocks = n.chain.db.blocks ++ [b]) :
    WeightsKept E window { n with chain := s, longTerm := c, log := b :: n.log } := by
  rcases nextLongTermBlockWeight_ready hwindow hlog h.ready h.chain b.weight with
    ⟨c', hnext, hready⟩
  rw [hnext, some.injEq, Prod.mk.injEq] at hweight
  rcases hweight with ⟨hvalue, rfl⟩
  have hrule : WeightRule window n.chain.db.blocks b := by
    rw [WeightRule, ← hvalue, check_version hchecked.version]
  refine ⟨?_, fun before hbefore => (h.batch before hbefore).cons_log b, hready.cons_log b⟩
  rw [hblocks]
  exact h.chain.concat hchecked.hash hchecked.parent hrule

theorem settleDifficulties_blocks (n : NodeState) :
    n.settleDifficulties.chain.db = n.chain.db ∧ n.settleDifficulties.longTerm = n.longTerm := by
  unfold NodeState.settleDifficulties
  split <;> exact ⟨rfl, rfl⟩

/-- Every step keeps the invariant. -/
theorem weightsKept_step (hwindow : 0 < window) (hstep : NodeStep E window n n')
    (hlog : LogSound E n'.log) (h : WeightsKept E window n) : WeightsKept E window n' := by
  have hbefore : LogSound E n.log := hlog.of_suffix hstep.suffixes.1
  have hnone : ∀ before : BlockchainDB, none = some before →
      Known E (WeightRule window) n.log before.blocks := fun _ hsome => by cases hsome
  cases hstep with
  | other s hblocks => exact h.withChain hblocks
  | query =>
    have hdb : n.chain.getDifficultyForNextBlock.2.db.blocks = n.chain.db.blocks := by
      rw [getDifficultyForNextBlock_db]
    exact ⟨(h.withChain hdb).chain, h.batch, h.ready⟩
  | request answer c hheight hanswer =>
    rcases getLongTermBlockWeightMedian_ready hwindow hbefore h.ready h.chain hheight with
      ⟨c', hrequest, hready⟩
    have hsame : n.requestMedian window = some (_, c') := hrequest
    rw [hanswer, some.injEq, Prod.mk.injEq] at hsame
    rw [← hsame.2] at hready
    exact ⟨h.chain, h.batch, hready⟩
  | reset => exact h.withChain rfl
  | push s b db c hchecked hweight hblocks => exact h.push hwindow hbefore hchecked hweight hblocks
  | pop s db hblocks =>
    refine ⟨?_, h.batch, h.ready⟩
    change Known E (WeightRule window) n.log s.db.blocks
    rw [hblocks]
    exact h.chain.dropLast
  | refork height => exact h.withChain (reorganizeHardfork_tables n.chain height).1
  | batchStart =>
    refine ⟨h.chain, fun before hsome => ?_, h.ready⟩
    rw [← some.inj hsome]
    exact h.chain
  | batchStop => exact ⟨h.chain, hnone, h.ready⟩
  | cleanup =>
    rcases settleDifficulties_blocks n with ⟨hdb, hcache⟩
    have hsame := (settleDifficulties_log n).1
    refine ⟨?_, fun _ hsome => (by cases hsome), ?_⟩
    · change Known E (WeightRule window) n.settleDifficulties.log
        n.settleDifficulties.chain.db.blocks
      rw [hsame, hdb]
      exact h.chain
    · change LongTermReady E window n.settleDifficulties.log n.settleDifficulties.longTerm
      rw [hsame, hcache]
      exact h.ready
  | batchAbort before hbatch => exact ⟨h.batch before hbatch, hnone, h.ready⟩
  | restart s tipHash rm hbatch hblocks _ _ _ htip hfresh =>
    rcases hfresh with ⟨data, pos, heap, hrm⟩
    rcases valid_construct hwindow hrm with ⟨hempty, hcap⟩
    refine ⟨(h.withChain hblocks).chain, h.batch, hcap, ?_⟩
    rcases htip with rfl | rfl
    · exact ⟨[], Known.nil, rfl, Or.inr hempty⟩
    · exact ⟨n.chain.db.blocks, h.chain, rfl, Or.inr hempty⟩

/-- And so does a run. -/
theorem weightsKept_run (hwindow : 0 < window) (hfresh : n.Fresh window)
    (hrun : Run (NodeStep E window) n n') (hlog : LogSound E n'.log) : WeightsKept E window n' := by
  have hkeeps : Preserves (NodeStep E window) fun n => LogSound E n.log → WeightsKept E window n :=
    fun _ _ h hstep hlog =>
      weightsKept_step hwindow hstep hlog (h (hlog.of_suffix hstep.suffixes.1))
  refine hkeeps.run hrun (fun _ => ?_) hlog
  rcases hfresh.rollingMedian with ⟨data, pos, heap, hrm⟩
  rcases valid_construct hwindow hrm with ⟨hempty, hcap⟩
  refine ⟨?_, fun before hsome => ?_, hcap, [], Known.nil, hfresh.tipHash, Or.inr hempty⟩
  · rw [hfresh.blocks]
    exact Known.nil
  · rw [hfresh.batch] at hsome
    cases hsome

/-- After any run of a node, a request for the window at the end of the chain answers with the
    median of the long term weights the database holds for it. -/
theorem requestMedian_run (E : Externals) (window : Nat) (hwindow : 0 < window)
    (n n' : NodeState) (hfresh : n.Fresh window) (hrun : Run (NodeStep E window) n n')
    (hlog : LogSound E n'.log) (hheight : 0 < n'.chain.height) :
    ∃ c, n'.chain.db.getLongTermBlockWeightMedian n'.longTerm
        (n'.chain.height - min window n'.chain.height) (min window n'.chain.height) =
      some (Epee.median (((n'.chain.db.blocks.drop
        (n'.chain.height - min window n'.chain.height)).take (min window n'.chain.height)).map
          StoredBlock.longTermWeight), c) := by
  have hkept := weightsKept_run hwindow hfresh hrun hlog
  rcases getLongTermBlockWeightMedian_ready hwindow hlog hkept.ready hkept.chain hheight with
    ⟨c, hrequest, -⟩
  refine ⟨c, hrequest.trans ?_⟩
  have hweights := getLongTermBlockWeights_window n'.chain.db hwindow hheight
  have hinside : ¬ n'.chain.db.height - min window n'.chain.db.height ≥ n'.chain.db.height := by
    have hpos : 0 < n'.chain.db.height := hheight
    omega
  rw [getLongTermBlockWeights, if_neg hinside, some.injEq] at hweights
  rw [← hweights]
  rfl

end Steps

theorem requestMedian_run_second : ∃ c c', Run (NodeStep Externals.sample 3) (emptyNode 3)
      (secondBlockNode c) ∧ (secondBlockNode c).chain.db.getLongTermBlockWeightMedian
        (secondBlockNode c).longTerm 0 2 = some (85, c') := by
  rcases secondBlockNode_run with ⟨c, hrun⟩
  have hweights : SameWeights [secondBlock, firstBlock] := by
    unfold SameWeights
    decide +kernel
  rcases requestMedian_run Externals.sample 3 (by decide) (emptyNode 3) (secondBlockNode c)
    (emptyNode_fresh (by decide)) hrun ⟨secondBlockNode_free c, hweights⟩ Nat.two_pos with
    ⟨c', hanswer⟩
  have hheight : (secondBlockNode c).chain.height = 2 := rfl
  have hblocks : (secondBlockNode c).chain.db.blocks = [firstBlock, secondBlock] := rfl
  rw [hheight, hblocks] at hanswer
  exact ⟨c, c', hrun, hanswer⟩

end CocaineNode
