import CocaineNode.Core.ChainEntry
import CocaineNode.Theory.NodeRun

/-!
# The Blocks Asked of a Peer

What `handle_response_chain_entry` keeps of the ids a peer sends. Every id is
new, and blocks the node has come before those it does not have. A block after
the first that is on the main chain has the height the peer gives it: each of
them is looked up (`ChainKept.concat`).

The first one is not. It only has to be a block the node has, so a peer can put
any block of the main chain at any height below the one that was asked for, and
the blocks that follow are counted from there (`chainEntry_misplaced`).

## Theorems

* `Blockchain.prevalidateBlockHashes_le`: No more ids are used than there are.
* `chainEntry_kept_iff`: What is kept, and when the blocks have their heights.
-/

namespace CocaineNode

open List UInt64 Nat

namespace Blockchain

/-! ## How many ids can be used -/

/-- A count that is below zero, or does not exceed the ids there are. -/
def Within (size : Nat) (usable : UInt64) : Prop :=
  usable.toNat ≤ size ∨ 2 ^ 63 ≤ usable.toNat

/-- What the count says after the groups below `n`: it is what these leave of the ids, or it started
    below zero, or the compiled groups are over. -/
inductive Counted (K : CompiledHashes) (size height n : Nat) (usable : UInt64) : Prop
  | groups : usable.toNat + height = n * 512 → n * 512 ≤ height + size →
    Counted K size height n usable
  | below : usable.toNat + height = 2 ^ 64 + n * 512 → n * 512 < height → height < n * 512 + 512 →
      Counted K size height n usable
  | past : K.hashOfHashes.length ≤ n → usable.toNat ≤ size → Counted K size height n usable

section

variable {K : CompiledHashes} {size height first n : Nat} {ids : List Hash} {weights : List UInt64}

theorem Counted.within {usable : UInt64} (h : Counted K size height n usable) :
    Within size usable := by
  cases h with
  | groups heq hle => exact Or.inl (by omega)
  | below heq hlt hnext => exact Or.inr (by omega)
  | past _ hle => exact Or.inl hle

theorem prevalidateLoop_within (hsize : height + size < 2 ^ 63)
    (hids : ids.length + first * 512 ≤ height + size) (groups : Nat) (hn : first ≤ n)
    (usable : UInt64) (check : List (Hash × UInt64)) (h : Counted K size height n usable) :
    Within size (prevalidateLoop K size first ids weights groups n usable check).1 := by
  induction groups generalizing n usable check with
  | zero => exact h.within
  | succ groups ih =>
    have hadd : (usable + ofNat hashOfHashesStep).toNat = (usable.toNat + 512) % 2 ^ 64 :=
      UInt64.toNat_add _ _
    rw [prevalidateLoop]
    split
    · rename_i hget
      have hin : n < K.hashOfHashes.length := (List.getElem?_eq_some_iff.mp hget).1
      simp only []
      generalize enterGroup _ _ _ check = entered
      split_ifs with hshort hinvalid hentered
      · exact h.within
      · exact h.within
      · -- The group is complete, so the ids reach to its end.
        have hfull : n * 512 + 512 ≤ height + size := by
          rw [show hashOfHashesStep = 512 from rfl] at hshort
          omega
        refine ih (by omega) _ _ (.groups ?_ (by omega))
        cases h with
        | groups heq hle => omega
        | below heq hlt hnext => omega
        | past hover _ => omega
      · exact Or.inl (zero_le _)
    · rename_i hget
      refine ih (by omega) _ _ (.past ?_ ?_)
      · have hover := getElem?_eq_none_iff.mp hget
        omega
      · have hofNat : (ofNat size).toNat = size :=
          toNat_ofNat_of_lt' (show size < 2 ^ 64 by omega)
        split_ifs with hmore
        · exact hofNat.le
        · rw [gt_iff_lt, lt_iff_toNat_lt, hofNat] at hmore
          omega

/-- No more ids are used than there are. -/
theorem prevalidateBlockHashes_le (K : CompiledHashes) (s : Blockchain) (height : Nat)
    (hashes : List Hash) (weights : List UInt64) (hsize : height + hashes.length < 2 ^ 63) :
    (s.prevalidateBlockHashes K height hashes weights).1.toNat ≤ hashes.length := by
  have hofNat : (ofNat hashes.length).toNat = hashes.length :=
    toNat_ofNat_of_lt' (show hashes.length < 2 ^ 64 by omega)
  have hsub : ∀ m ≤ height + 512, (ofNat m - ofNat height).toNat =
      (2 ^ 64 - height + m) % 2 ^ 64 := by
    intro m hm
    rw [UInt64.toNat_sub, UInt64.toNat_ofNat_of_lt' (show m < 2 ^ 64 by omega),
      toNat_ofNat_of_lt' (show height < 2 ^ 64 by omega)]
  have hite {c : Prop} [Decidable c] {r r' : UInt64 × Blockchain} (hr : r.1.toNat ≤ hashes.length)
      (hr' : ¬ c → r'.1.toNat ≤ hashes.length) :
      (if c then r else r').1.toNat ≤ hashes.length := by
    split_ifs with hc
    · exact hr
    · exact hr' hc
  refine hite (zero_le _) fun _ => hite hofNat.le fun _ => hite hofNat.le fun _ => ?_
  refine hite hofNat.le fun hgroups => ?_
  simp only [show hashOfHashesStep = 512 from rfl] at hgroups ⊢
  have hanswer : ∀ r : UInt64 × List (Hash × UInt64), Within hashes.length r.1 →
      (if r.1 < ofNat ((2 ^ 64 - 1) / 2) then r.1 else 0).toNat ≤ hashes.length := by
    intro r hr
    split_ifs with hlt
    · rw [lt_iff_toNat_lt] at hlt
      exact hr.resolve_right (not_le.mpr (hlt.trans (by decide)))
    · exact zero_le _
  -- The first group starts below the ids or after some of them.
  cases hdis : decide (height > s.height) && decide (height % 512 ≠ 0) with
  | false =>
    simp only [Bool.false_eq_true, if_false]
    refine hanswer _ (prevalidateLoop_within hsize ?_ _ (le_refl _) _ _ ?_)
    · rw [length_append, length_map, length_drop, length_take, drop_zero]
      omega
    · have hval := hsub (height / 512 * 512) (by omega)
      by_cases haligned : height % 512 = 0
      · exact .groups (by omega) (by omega)
      · exact .below (by omega) (by omega) (by omega)
  | true =>
    simp only [if_true]
    have hval := hsub ((height / 512 + 1) * 512) (by omega)
    rw [Bool.and_eq_true, decide_eq_true_eq, decide_eq_true_eq] at hdis
    refine hanswer _ (prevalidateLoop_within hsize ?_ _ (le_refl _) _ _
      (.groups (by omega) (by omega)))
    rw [map_nil, nil_append, length_drop]
    omega

/-- Only the table of known hashes changes. -/
theorem prevalidateBlockHashes_state (K : CompiledHashes) (s : Blockchain) (height : Nat)
    (hashes : List Hash) (weights : List UInt64) :
    ∃ check, (s.prevalidateBlockHashes K height hashes weights).2 = s.withHashCheck check := by
  have hite {c : Prop} [Decidable c] {n : UInt64} {r : UInt64 × Blockchain}
      (hr : ∃ check, r.2 = s.withHashCheck check) :
      ∃ check, (if c then (n, s) else r).2 = s.withHashCheck check := by
    split_ifs
    · exact ⟨s.blocksHashCheck, rfl⟩
    · exact hr
  exact hite (hite (hite (hite ⟨_, rfl⟩)))

end

/-! ## The ids that are kept -/

theorem isSome_haveBlockUnlocked (s : Blockchain) (id : Hash) :
    (s.haveBlockUnlocked id).isSome = s.haveBlock id := by
  unfold haveBlockUnlocked haveBlock
  split_ifs with hmain halt hinvalid
  · simp [hmain]
  · simp [halt]
  · simp [hinvalid]
  · simp [hmain, halt, hinvalid]

end Blockchain

variable {s : Blockchain} {q : BlockQueue} {start : UInt64} {expectUnknown next : Bool} {id : Hash}
  {kept : List Hash}

/-- An id that passes is new to the node, or may still be known and has its height. -/
theorem checkChainId_ok {i : Nat} (h : checkChainId s q start i expectUnknown id = .ok next) :
    next = !s.haveBlock id ∧ (0 < i → s.haveBlock id = true → expectUnknown = false ∧
      (id ∈ s.db.ids → s.db.blockIdByHeight (start + ofNat i).toNat = id)) := by
  have hhave := s.isSome_haveBlockUnlocked id
  have hmain : id ∈ s.db.ids → s.haveBlockUnlocked id = some .mainChain := fun hid =>
    if_pos (decide_eq_true hid)
  rw [checkChainId] at h
  rw [← hhave]
  generalize s.haveBlockUnlocked id = found at h hmain
  by_cases hzero : i = 0
  · simp only [if_pos hzero] at h
    split_ifs at h
    cases h
    exact ⟨by rw [Option.not_isSome], fun hpos => by omega⟩
  · simp only [if_neg hzero] at h
    match found with
    | none =>
      cases h
      exact ⟨rfl, fun _ hnone => absurd hnone Bool.false_ne_true⟩
    | some .invalid => cases h
    | some .mainChain =>
      split_ifs at h with hexpect hplace
      cases h
      exact ⟨rfl, fun _ _ => ⟨by simpa using hexpect, fun _ => not_not.mp hplace⟩⟩
    | some .altChain =>
      dsimp only at h
      split_ifs at h with hexpect
      cases h
      exact ⟨rfl, fun _ _ => ⟨by simpa using hexpect, fun hid => by cases hmain hid⟩⟩

/-- What the loop has made sure of. While `expectUnknown` is down, the node has all the blocks. -/
structure ChainKept (s : Blockchain) (start : UInt64) (expectUnknown : Bool) (kept : List Hash) :
    Prop where
  nodup : kept.Nodup
  known : ∃ known unknown, kept = known ++ unknown ∧ (∀ id ∈ known, s.haveBlock id = true) ∧
    (∀ id ∈ unknown, s.haveBlock id = false) ∧ (expectUnknown = false → unknown = [])
  placed : ∀ i id, 0 < i → kept[i]? = some id → id ∈ s.db.ids →
    s.db.blockIdByHeight (start + ofNat i).toNat = id

theorem ChainKept.concat (h : ChainKept s start expectUnknown kept) (hid : id ∉ kept)
    (hcheck : checkChainId s q start kept.length expectUnknown id = .ok next) :
    ChainKept s start next (kept ++ [id]) := by
  rcases checkChainId_ok hcheck with ⟨rfl, hplaced⟩
  refine ⟨nodup_append.mpr ⟨h.nodup, nodup_singleton id, ?_⟩, ?_, ?_⟩
  · rintro a ha b hb rfl
    exact hid (mem_singleton.mp hb ▸ ha)
  · rcases h.known with ⟨known, unknown, hsplit, hknown, hunknown, hflag⟩
    cases hhave : s.haveBlock id with
    | false =>
      refine ⟨known, unknown ++ [id], by rw [hsplit, append_assoc], hknown, ?_, nofun⟩
      simpa [or_imp, forall_and, hhave] using hunknown
    | true =>
      have hnone : unknown = [] := by
        rcases Nat.eq_zero_or_pos kept.length with hzero | hpos
        · rw [hsplit, length_append] at hzero
          exact length_eq_zero_iff.mp (by omega)
        · exact hflag (hplaced hpos hhave).1
      refine ⟨known ++ [id], [], by rw [hsplit, hnone, append_nil, append_nil], ?_, nofun,
        fun _ => rfl⟩
      simpa [or_imp, forall_and, hhave] using hknown
  · intro i id' hpos hget hmain
    by_cases hold : i < kept.length
    · rw [getElem?_append_left hold] at hget
      exact h.placed i id' hpos hget hmain
    · have hlast : i = kept.length := by
        have hlt := (List.getElem?_eq_some_iff.mp hget).1
        rw [length_append, length_singleton] at hlt
        omega
      rw [hlast, getElem?_concat_length, Option.some.injEq] at hget
      subst hget hlast
      have hhave : s.haveBlock id = true := by
        simp [Blockchain.haveBlock, BlockchainDB.blockExists, hmain]
      exact (hplaced hpos hhave).2 hmain

theorem keepChainIds_ok {nUseBlocks : UInt64} {ids out : List Hash}
    (h : ChainKept s start expectUnknown kept) (hlt : kept.length < nUseBlocks.toNat)
    (hle : nUseBlocks.toNat ≤ kept.length + ids.length)
    (hkeep : keepChainIds s q start nUseBlocks ids expectUnknown kept = .ok out) :
    (∃ flag, ChainKept s start flag out) ∧ out.length = nUseBlocks.toNat ∧ out <+: kept ++ ids := by
  induction ids generalizing expectUnknown kept with
  | nil => exact absurd hle (not_le.mpr hlt)
  | cons id rest ih =>
    rw [keepChainIds] at hkeep
    split_ifs at hkeep with hid
    split at hkeep
    · cases hkeep
    · rename_i flag hcheck
      have hkept := h.concat hid hcheck
      have hlen : (kept ++ [id]).length = kept.length + 1 := length_append
      have hword := nUseBlocks.toNat_lt
      have hofNat : (ofNat (kept ++ [id]).length).toNat = kept.length + 1 := by
        rw [hlen, toNat_ofNat_of_lt' (show kept.length + 1 < 2 ^ 64 by omega)]
      dsimp only at hkeep
      rw [length_cons] at hle
      rw [show kept ++ id :: rest = kept ++ [id] ++ rest by simp]
      split_ifs at hkeep with henough
      · cases hkeep
        rw [hlen, ← henough, hofNat]
        exact ⟨⟨flag, hkept⟩, rfl, prefix_append _ _⟩
      · refine ih hkept ?_ (by omega) hkeep
        have hne : kept.length + 1 ≠ nUseBlocks.toNat := by
          rw [← hofNat]
          exact fun heq => henough (UInt64.toNat_inj.mp heq)
        omega

/-- The null hash, which stands for no block, is not the answer for a block of the chain. -/
theorem getElem?_ids_of_blockIdByHeight {db : BlockchainDB} {height : Nat}
    (hnull : nullHash ∉ db.ids)
    (hid : id ∈ db.ids) (h : db.blockIdByHeight height = id) : db.ids[height]? = some id := by
  rw [BlockchainDB.blockIdByHeight] at h
  cases hget : db.ids[height]? with
  | none =>
    rw [hget, Option.getD_none] at h
    exact absurd (h ▸ hid) hnull
  | some x =>
    rw [hget, Option.getD_some] at h
    rw [h]

/-- What is kept when the handler comes to ask for blocks: ids that are all different, known blocks
    before unknown ones, and the height of the last one, always; and main chain blocks at their
    heights exactly when the first block, which is not looked up, is at its own. The null hash,
    which stands for no block, is taken not to be the id of one. -/
theorem chainEntry_kept_iff (K : CompiledHashes) (s s' : Blockchain) (q : BlockQueue)
    (arg : ResponseChainEntry) (c c' : ChainContext)
    (h : handleResponseChainEntry K s q arg c = .ok (c', s')) (hnull : nullHash ∉ s.db.ids) :
    (c'.neededObjects.map Prod.fst).Nodup ∧
      (∃ known unknown, c'.neededObjects.map Prod.fst = known ++ unknown ∧
        (∀ id ∈ known, s.haveBlock id = true) ∧ ∀ id ∈ unknown, s.haveBlock id = false) ∧
      c'.lastResponseHeight.toNat = arg.startHeight.toNat + c'.neededObjects.length - 1 ∧
      c'.lastResponseHeight < arg.totalHeight ∧
      ((∀ i id, (c'.neededObjects.map Prod.fst)[i]? = some id → id ∈ s.db.ids →
          s.db.ids[arg.startHeight.toNat + i]? = some id) ↔
        ∀ id, arg.blockIds.head? = some id → id ∈ s.db.ids →
          s.db.ids[arg.startHeight.toNat]? = some id) := by
  rcases s.prevalidateBlockHashes_state K arg.startHeight.toNat arg.blockIds arg.blockWeights with
    ⟨check, hcheck⟩
  have huse := s.prevalidateBlockHashes_le K arg.startHeight.toNat arg.blockIds arg.blockWeights
  simp only [handleResponseChainEntry, hcheck] at h
  generalize (s.prevalidateBlockHashes K arg.startHeight.toNat arg.blockIds arg.blockWeights).1 =
    nUseBlocks at h huse
  split_ifs at h with hexpect hpast hempty hrange hweights hmany hlast hfew
  split at h
  · cases h
  rename_i kept hkeep
  cases h
  rw [not_or] at hrange hmany hfew
  have htotal : arg.totalHeight.toNat < 500000000 := not_le.mp hmany.1
  have hpos : nUseBlocks.toNat ≠ 0 := fun hzero => hfew.1 (UInt64.toNat_inj.mp hzero)
  have huse := huse (by omega)
  have hnone : ChainKept (s.withHashCheck check) arg.startHeight false [] :=
    ⟨.nil, ⟨[], [], rfl, nofun, nofun, fun _ => rfl⟩, nofun⟩
  rcases keepChainIds_ok hnone (Nat.pos_of_ne_zero hpos) (by simpa using huse) hkeep with
    ⟨⟨flag, hkept⟩, hlen, rest, hrest⟩
  have hweighed : arg.weights.length = arg.blockIds.length := by
    rw [ResponseChainEntry.weights]
    split_ifs with hnoWeights
    · exact length_map _
    · simpa [hnoWeights] using hweights
  have hobjects : (kept.zip arg.weights).map Prod.fst = kept :=
    map_fst_zip (by omega)
  have hcount : (kept.zip arg.weights).length = nUseBlocks.toNat := by
    rw [length_zip, hlen, hweighed]
    exact min_eq_left huse
  simp only [hobjects, hcount]
  -- At least one id is kept, so the first one kept is the first one sent.
  have hhead : arg.blockIds.head? = kept[0]? := by
    rw [← nil_append arg.blockIds, ← hrest, head?_eq_getElem?, getElem?_append_left (by omega)]
  have hheight : (arg.startHeight + ofNat arg.blockIds.length - 1 -
      (ofNat arg.blockIds.length - nUseBlocks)).toNat =
      arg.startHeight.toNat + nUseBlocks.toNat - 1 := by
    have hsize : (ofNat arg.blockIds.length).toNat = arg.blockIds.length :=
      toNat_ofNat_of_lt' (show arg.blockIds.length < 2 ^ 64 by omega)
    simp only [UInt64.toNat_sub, UInt64.toNat_add, hsize, UInt64.toNat_one]
    omega
  refine ⟨hkept.nodup, ?_, hheight, ?_, ?_, ?_⟩
  · rcases hkept.known with ⟨known, unknown, hsplit, hknown, hunknown, -⟩
    exact ⟨known, unknown, hsplit, hknown, hunknown⟩
  · rw [lt_iff_toNat_lt, hheight]
    omega
  · intro hplaced id hid
    rw [hhead] at hid
    exact hplaced 0 id hid
  · intro hfirst i id hget hmain
    rcases Nat.eq_zero_or_pos i with rfl | hi
    · exact hfirst id (hhead.trans hget) hmain
    · have hlt := (List.getElem?_eq_some_iff.mp hget).1
      have hheight : (arg.startHeight + ofNat i).toNat = arg.startHeight.toNat + i := by
        rw [UInt64.toNat_add, UInt64.toNat_ofNat_of_lt' (show i < 2 ^ 64 by omega)]
        omega
      have hplaced := hkept.placed i id hi hget hmain
      rw [hheight] at hplaced
      exact getElem?_ids_of_blockIdByHeight hnull hmain hplaced

/-- A peer that sends two blocks from height 5 on, the first of which the node has at height 0. -/
def misplacedEntry : ResponseChainEntry :=
  ⟨5, 10, [1, 7], []⟩

/-- A peer that was asked for its chain. -/
def askedContext : ChainContext where
  connectionId := 0
  isIncome := false
  neededObjects := []
  lastResponseHeight := 0
  expectResponse := 2007
  expectHeight := 10
  remoteBlockchainHeight := 0
  expectedHeightsStart := 0
  expectedHeights := []

/-- The genesis block at its height, and a block that is new. -/
theorem chainEntry_kept_iff_genesis :
    ∃ c' s', handleResponseChainEntry ⟨[], fun _ => 0, fun _ => 0⟩ firstBlockNode.chain .empty
        { misplacedEntry with startHeight := 0 } askedContext = .ok (c', s') ∧
      ∀ i id, (c'.neededObjects.map Prod.fst)[i]? = some id → id ∈ firstBlockNode.chain.db.ids →
        firstBlockNode.chain.db.ids[0 + i]? = some id := by
  refine ⟨_, _, rfl, (chainEntry_kept_iff ⟨[], fun _ => 0, fun _ => 0⟩ firstBlockNode.chain _ .empty
    { misplacedEntry with startHeight := 0 } askedContext _ rfl (by decide)).2.2.2.2.mpr ?_⟩
  rintro id ⟨⟩ -
  rfl

/-- The block of height 0 is kept at height 5. -/
theorem chainEntry_misplaced :
    ∃ c' s', handleResponseChainEntry ⟨[], fun _ => 0, fun _ => 0⟩ firstBlockNode.chain .empty
        misplacedEntry askedContext = .ok (c', s') ∧
      (c'.neededObjects.map Prod.fst)[0]? = some 1 ∧ 1 ∈ firstBlockNode.chain.db.ids ∧
      firstBlockNode.chain.db.ids[misplacedEntry.startHeight.toNat]? ≠ some 1 := by
  refine ⟨_, _, rfl, rfl, by decide, by decide⟩

end CocaineNode
