import CocaineNode.Theory.Moves

/-!
# Reorganisation

`switch_to_alternative_blockchain` is a transaction written out by hand. It
pops the main chain down to the parent of the alternative chain, connects the
alternative blocks one by one, and then either offers the popped blocks back as
alternative blocks or, when an alternative block is refused, pops again and
reconnects the blocks it started from.

Each loop is described by what it does to the list of main chain blocks and to
the alternative store. Popping keeps a lower part of the chain (`Lowered`),
connecting appends an initial segment of what is offered
(`connectAll_tables`), and offering a block as an alternative one files it or
leaves the store alone, unless it sets off another reorganisation
(`handleAlternativeBlock_filed`).

A refusal undoes everything: the main chain is the one before, and the store
lost the refused block and those above it. A success does not keep every
disconnected block, though. `handle_alternative_block` may refuse a block the
main chain had accepted, because below height 60 only the alternative path
looks at the median of timestamps, and the loop that offers the blocks ignores
what it returns.

## Theorems

* `Blockchain.pushDisconnected_filed`: What the last loop files.
* `Blockchain.switchToAlternativeBlockchain_ends`: All or nothing.
-/

namespace CocaineNode

open List AList BlockchainDB BlockExtendedInfo

/-- Whether a block offered as an alternative one left the main chain as it was. -/
def AltOutcome.leavesMainChain : AltOutcome → Bool
  | .reorganised _ => false
  | .threw => false
  | _ => true

namespace Blockchain

/-- The blocks of the main chain. -/
def mainChain (s : Blockchain) : List Block :=
  s.db.blocks.map StoredBlock.block

theorem length_mainChain (s : Blockchain) : s.mainChain.length = s.height :=
  length_map _

/-! ## Popping -/

/-- `s'` is `s` with some blocks popped: the lower part of the chain, never less than the genesis
    block, and the same alternative store. -/
structure Lowered (s s' : Blockchain) : Prop where
  blocks : s'.db.blocks = s.db.blocks.take s'.height
  altBlocks : s'.db.altBlocks = s.db.altBlocks
  pos : 0 < s.height → 0 < s'.height

namespace Lowered

variable {s s' s'' : Blockchain}

theorem refl (s : Blockchain) : Lowered s s :=
  ⟨(take_length).symm, rfl, id⟩

theorem height_le (h : Lowered s s') : s'.height ≤ s.height := by
  have hlen := congrArg length h.blocks
  rw [length_take] at hlen
  change s'.height = min s'.height s.height at hlen
  omega

theorem trans (h : Lowered s s') (h' : Lowered s' s'') : Lowered s s'' := by
  refine ⟨?_, h'.altBlocks.trans h.altBlocks, fun hs => h'.pos (h.pos hs)⟩
  rw [h'.blocks, h.blocks, take_take, Nat.min_eq_left h'.height_le]

theorem mainChain (h : Lowered s s') : s'.mainChain = s.mainChain.take s'.height := by
  rw [Blockchain.mainChain, h.blocks, map_take]
  rfl

end Lowered

variable {s s' : Blockchain} {b : Block}

theorem Popped.lowered (h : Popped s b s') : Lowered s s' := by
  have hheight : s'.height = s.height - 1 := by
    change s'.db.blocks.length = _
    rw [h.db]
    change (s.db.blocks.take (s.height - 1)).length = s.height - 1
    rw [length_take]
    change min (s.height - 1) s.height = s.height - 1
    omega
  have hlower := h.height
  refine ⟨?_, by rw [h.db]; rfl, fun _ => by omega⟩
  rw [hheight, h.db]
  rfl

variable {E : Externals} {id : Hash} {now : UInt64}

/-- The loop that pops the main chain keeps the part below, and collects the rest in order. -/
theorem popUntil_lowered {n : Nat} {popped popped' : List Block}
    (h : popUntil E id now n s popped = some (popped', s')) :
    Lowered s s' ∧ s'.db.topBlockHash = id ∧ popped' = s.mainChain.drop s'.height ++ popped := by
  induction n generalizing s popped with
  | zero => cases h
  | succ n ih =>
    unfold popUntil at h
    split at h
    · rename_i htop
      cases h
      refine ⟨Lowered.refl _, htop, ?_⟩
      rw [← length_mainChain, drop_length, nil_append]
    · split at h
      · cases h
      · rename_i b s₁ hpop
        have hone := popBlockFromBlockchain_some hpop
        rcases ih h with ⟨hlower, htop, hcollected⟩
        refine ⟨hone.lowered.trans hlower, htop, ?_⟩
        -- The block popped first is the last of the collected ones.
        rcases hone.top with ⟨top, hblocks, htopBlock⟩
        have hmain : s.mainChain = s₁.mainChain ++ [b] := by
          rw [mainChain, hblocks, map_append, map_singleton, htopBlock]
          rfl
        have hle : s'.height ≤ s₁.mainChain.length := by
          rw [length_mainChain]
          exact hlower.height_le
        rw [hcollected, hmain, drop_append_of_le_length hle, append_assoc]
        rfl

variable {height : Nat}

theorem popToHeight_lowered {n : Nat} (h : popToHeight E height now n s = some s') :
    Lowered s s' ∧ s'.height = height := by
  induction n generalizing s with
  | zero => cases h
  | succ n ih =>
    unfold popToHeight at h
    split at h
    · rename_i hheight
      cases h
      exact ⟨Lowered.refl _, hheight⟩
    · split at h
      · cases h
      · rename_i hpop
        rcases ih h with ⟨hlower, hheight⟩
        exact ⟨(popBlockFromBlockchain_some hpop).lowered.trans hlower, hheight⟩

variable {alt : List BlockExtendedInfo}

/-- A chain popped down to the parent of a side chain ends where the side chain leaves it. -/
theorem Attached.height_of_lowered {split : Nat} {front : BlockExtendedInfo}
    (hatt : Attached E s alt split) (hfront : alt.head? = some front) (hlower : Lowered s s')
    (htop : s'.db.topBlockHash = front.bl.prevId) : s'.height = split := by
  have hpos := hlower.pos (Nat.lt_of_lt_of_le hatt.pos hatt.le)
  have hle := hlower.height_le
  have hids : s'.db.ids = s.db.ids.take s'.height := by
    rw [ids, hlower.blocks, map_take]
    rfl
  -- The top id of the lower part is the id at its position in the whole chain.
  have hlast : s.db.ids[s'.height - 1]? = some front.bl.prevId := by
    have hgetLast : s'.db.ids.getLast? = some front.bl.prevId := by
      rw [← htop, topBlockHash, ids, getLast?_map]
      rcases hblocks : s'.db.blocks.getLast? with _ | top
      · rw [getLast?_eq_none_iff] at hblocks
        rw [show s'.height = 0 from by rw [height, BlockchainDB.height, hblocks]; rfl] at hpos
        exact absurd hpos (Nat.lt_irrefl 0)
      · rfl
    rw [hids, getLast?_eq_getElem?, List.length_take, Attached.ids_length,
      Nat.min_eq_left hle, getElem?_take, if_pos (by omega)] at hgetLast
    exact hgetLast
  have hsplit := (hatt.front front hfront).2
  have hsplitLt : split - 1 < s.db.ids.length := by
    have hsplitLe := hatt.le
    rw [Attached.ids_length]
    omega
  have hindex := (getElem?_inj hsplitLt s.db.ids_nodup).mp (hsplit.trans hlast.symm)
  have hsplitPos := hatt.pos
  omega

/-! ## Connecting -/

/-- A block offered to the main chain is appended to it, or the chain stays. -/
theorem connect_tables (E : Externals) (s : Blockchain) (b : Block) (now : UInt64) :
    (s.connect E b now).chain.mainChain =
        s.mainChain ++ (if connected (s.connect E b now) then [b] else []) ∧
      (s.connect E b now).chain.db.altBlocks = s.db.altBlocks := by
  by_cases hconnected : connected (s.connect E b now) = true
  · rcases handleBlockToMainChain_accepted (connected_iff.mp hconnected) with ⟨-, ⟨a⟩, -⟩
    rcases a.tables with ⟨hblocks, halt⟩
    rw [getDifficultyForNextBlock_db] at hblocks halt
    refine ⟨?_, halt⟩
    rw [if_pos hconnected, mainChain, connect, hblocks, map_append]
    rfl
  · rw [if_neg hconnected, append_nil]
    have hdb : (s.connect E b now).chain.db = s.db := by
      rcases handleBlockToMainChain_refused (mt connected_iff.mpr hconnected) with h | h
      · exact h.db
      · rw [connect, h.db, getDifficultyForNextBlock_db]
    exact ⟨by rw [mainChain, hdb]; rfl, by rw [hdb]⟩

section

variable (E : Externals) (now : UInt64) (s : Blockchain) (blocks : List Block)

/-- The loop that connects blocks appends those before the first refusal. -/
theorem connectAll_tables : (connectAll E now s blocks).2.mainChain =
        s.mainChain ++ blocks.take (connectAll E now s blocks).1 ∧
      (connectAll E now s blocks).2.db.altBlocks = s.db.altBlocks := by
  induction blocks generalizing s with
  | nil => exact ⟨by simp [connectAll], rfl⟩
  | cons b rest ih =>
    rcases connect_tables E s b now with ⟨hmain, halt⟩
    simp only [connectAll]
    split
    · rename_i hconnected
      rcases ih (s.connect E b now).chain with ⟨hrest, haltRest⟩
      rw [if_pos hconnected] at hmain
      refine ⟨?_, haltRest.trans halt⟩
      rw [hrest, hmain, take_succ_cons, append_assoc]
      rfl
    · rename_i hrefused
      rw [if_neg hrefused] at hmain
      exact ⟨by simpa using hmain, halt⟩

/-- When the loop stops early, it is at a block that was refused on top of the others. -/
theorem connectAll_stopped (hstopped : (connectAll E now s blocks).1 ≠ blocks.length) :
    ∃ (b : Block) (c : Blockchain), blocks[(connectAll E now s blocks).1]? = some b ∧
      c.mainChain = s.mainChain ++ blocks.take (connectAll E now s blocks).1 ∧
      connected (c.connect E b now) = false := by
  induction blocks generalizing s with
  | nil => exact absurd rfl hstopped
  | cons b rest ih =>
    rcases connect_tables E s b now with ⟨hmain, -⟩
    simp only [connectAll] at hstopped ⊢
    split
    · rename_i hconnected
      rw [if_pos hconnected] at hstopped hmain
      have hrest : (connectAll E now (s.connect E b now).chain rest).1 ≠ rest.length := by
        simpa using hstopped
      rcases ih _ hrest with ⟨b', c, hget, hc, hrefused⟩
      refine ⟨b', c, by simpa using hget, ?_, hrefused⟩
      rw [hc, hmain, take_succ_cons, append_assoc]
      rfl
    · rename_i hrefused
      exact ⟨b, s, rfl, by simp, by simpa using hrefused⟩

end

/-- A rollback that reports success leaves the chain below `height` and the blocks it was given on
    top. -/
theorem rollbackBlockchainSwitching_restores {original : List Block} (hle : height ≤ s.height)
    (h : rollbackBlockchainSwitching E s original height now = some (true, s')) :
    s'.mainChain = s.mainChain.take height ++ original ∧ s'.db.altBlocks = s.db.altBlocks := by
  unfold rollbackBlockchainSwitching at h
  rw [if_neg (Nat.not_lt.mpr hle)] at h
  rcases Option.map_eq_some_iff.mp h with ⟨s₁, hpop, hs'⟩
  rcases popToHeight_lowered hpop with ⟨hlower, hheight⟩
  set s₂ := s₁.updateNextCumulativeWeightLimit.reorganizeHardfork height
  have hfork := reorganizeHardfork_tables s₁.updateNextCumulativeWeightLimit height
  have hbase : s₂.mainChain = s.mainChain.take height := by
    rw [mainChain, hfork.1]
    exact hheight ▸ hlower.mainChain
  rcases connectAll_tables E now s₂ original with ⟨hmain, halt⟩
  simp only at hs'
  split at hs'
  · rename_i hall
    cases hs'
    rcases reorganizeHardfork_tables (connectAll E now s₂ original).2 height with ⟨hblocks, hstore⟩
    refine ⟨?_, hstore.trans (halt.trans (hfork.2.trans hlower.altBlocks))⟩
    rw [mainChain, hblocks]
    change (connectAll E now s₂ original).2.mainChain = _
    rw [hmain, hbase, hall, take_length]
  · cases hs'

/-! ## The alternative store -/

variable {db : BlockchainDB} {ids : List Hash}

/-- What a block offered as an alternative one does when it sets off no reorganisation: it is
    filed under its id, which was not in use, or nothing is. -/
structure Filed (s : Blockchain) (id : Hash) (outcome : AltOutcome) (s' : Blockchain) : Prop where
  blocks : s'.db.blocks = s.db.blocks
  kept : ∀ key bei, s.db.altBlocks.lookup key = some bei → s'.db.altBlocks.lookup key = some bei
  mem : ∀ key, key ∈ s'.db.altBlocks ↔ key ∈ s.db.altBlocks ∨ key = id ∧ outcome = .stored
  fresh : outcome = .stored → id ∉ s.db.altBlocks

theorem Filed.of_db {outcome : AltOutcome} (h : s'.db = s.db) (hout : outcome ≠ .stored) :
    Filed s id outcome s' := by
  refine ⟨by rw [h], fun key bei hkey => by rw [h, hkey], fun key => ?_, fun hs => absurd hs hout⟩
  rw [h]
  simp [hout]

variable {bvc : Bvc} {ps : PoolSupplement}

theorem handleAlternativeBlock_filed {depth : Nat}
    (hquiet : (handleAlternativeBlock E now depth s b id bvc ps).outcome.leavesMainChain) :
    Filed s id (handleAlternativeBlock E now depth s b id bvc ps).outcome
      (handleAlternativeBlock E now depth s b id bvc ps).chain := by
  rcases handleAlternativeBlock_eq E now depth s b id bvc ps with ⟨reorganise, hdepth⟩
  rw [hdepth] at hquiet ⊢
  rcases altBlock_cases E s b id bvc ps now with
    ⟨r, hout, hr, heq⟩ | ⟨s₁, alt, -, bei, hr, hfresh, -, -, -, heq | ⟨discard, heq⟩⟩
  · rw [heq]
    exact Filed.of_db hr.db (by rcases hout with hout | ⟨exit, hout⟩ <;> simp [hout])
  · rw [heq]
    have hdb : s₁.db = s.db := hr.db
    rw [hdb] at hfresh
    refine ⟨by rw [← hdb]; rfl, fun key bei hkey => ?_, fun key => ?_, fun _ => hfresh⟩
    · have hne : key ≠ id := by
        rintro rfl
        exact hfresh (lookup_isSome.mp (by rw [hkey]; rfl))
      change (insert id _ s₁.db.altBlocks).lookup key = some bei
      rw [lookup_insert_ne hne, hdb, hkey]
    · change key ∈ insert id _ s₁.db.altBlocks ↔ _
      rw [mem_insert, hdb]
      simp [or_comm]
  · -- The branch that reorganises is ruled out by its outcome.
    rw [(heq reorganise).2] at hquiet
    split at hquiet <;> simp [AltOutcome.leavesMainChain] at hquiet

/-- What offering blocks in turn does to the store when none sets off a reorganisation. -/
structure FiledAll (E : Externals) (s : Blockchain) (offered : List Block)
    (pushes : List AltOutcome) (s' : Blockchain) : Prop where
  length : pushes.length = offered.length
  blocks : s'.db.blocks = s.db.blocks
  kept : ∀ key bei, s.db.altBlocks.lookup key = some bei → s'.db.altBlocks.lookup key = some bei
  mem : ∀ key, key ∈ s'.db.altBlocks ↔ key ∈ s.db.altBlocks ∨
    ∃ b, (b, AltOutcome.stored) ∈ offered.zip pushes ∧ E.blockHash b = key
  fresh : ∀ b, (b, AltOutcome.stored) ∈ offered.zip pushes → E.blockHash b ∉ s.db.altBlocks

theorem pushDisconnected_filed {push : Blockchain → Block → AltResult}
    (hpush : ∀ s b, (push s b).outcome.leavesMainChain →
      Filed s (E.blockHash b) (push s b).outcome (push s b).chain)
    (s : Blockchain) (blocks : List Block)
    (hquiet : ∀ o ∈ (pushDisconnected push s blocks).1, o.leavesMainChain) :
    FiledAll E s blocks (pushDisconnected push s blocks).1 (pushDisconnected push s blocks).2 := by
  induction blocks generalizing s with
  | nil => exact ⟨rfl, rfl, fun _ _ h => h, by simp [pushDisconnected], by simp⟩
  | cons b rest ih =>
    simp only [pushDisconnected] at hquiet ⊢
    split
    · rename_i hthrew
      rw [if_pos hthrew] at hquiet
      simp [AltOutcome.leavesMainChain] at hquiet
    · rename_i hthrew
      rw [if_neg hthrew] at hquiet
      have hfirst := hpush s b (hquiet _ (mem_cons_self ..))
      have hrest := ih (push s b).chain fun o ho => hquiet o (mem_cons_of_mem _ ho)
      refine ⟨by simp [hrest.length], hrest.blocks.trans hfirst.blocks,
        fun key bei hkey => hrest.kept key bei (hfirst.kept key bei hkey), fun key => ?_, ?_⟩
      · rw [hrest.mem, hfirst.mem]
        simp only [zip_cons_cons, mem_cons, Prod.mk.injEq]
        constructor
        · rintro ((hkey | ⟨rfl, hstored⟩) | ⟨b', hb', rfl⟩)
          · exact Or.inl hkey
          · exact Or.inr ⟨b, Or.inl ⟨rfl, hstored.symm⟩, rfl⟩
          · exact Or.inr ⟨b', Or.inr hb', rfl⟩
        · rintro (hkey | ⟨b', ⟨rfl, hstored⟩ | hb', rfl⟩)
          · exact Or.inl (Or.inl hkey)
          · exact Or.inl (Or.inr ⟨rfl, hstored.symm⟩)
          · exact Or.inr ⟨b', hb', rfl⟩
      · intro b' hb'
        rw [zip_cons_cons, mem_cons, Prod.mk.injEq] at hb'
        rcases hb' with ⟨rfl, hstored⟩ | hb'
        · exact hfirst.fresh hstored.symm
        · exact fun hmem => hrest.fresh b' hb' ((hfirst.mem _).mpr (Or.inl hmem))

theorem removeAltBlocks_mem {db' : BlockchainDB}
    (h : removeAltBlocks db ids = some db') (id : Hash) :
    id ∈ db'.altBlocks ↔ id ∈ db.altBlocks ∧ id ∉ ids := by
  rw [← lookup_isSome, ← lookup_isSome, (removeAltBlocks_some h).2]
  by_cases hmem : id ∈ ids <;> simp [hmem]

/-! ## The two ends of a reorganisation -/

/-- The ids a side chain is filed under. -/
def altIds (E : Externals) (alt : List BlockExtendedInfo) : List Hash :=
  alt.map fun bei => E.blockHash bei.bl

/-- The blocks a reorganisation offers back as alternative ones. -/
def offeredBack (s : Blockchain) (split : Nat) (discard : Bool) : List Block :=
  if discard then [] else s.mainChain.drop split

/-- A reorganisation that came to a block it could not connect, and undid itself: the main chain
    is the one before, and the refused block and those above it are gone from the store. -/
structure RolledBack (E : Externals) (now : UInt64) (s : Blockchain)
    (alt : List BlockExtendedInfo) (split index : Nat) (s' : Blockchain) : Prop where
  refused : ∃ (bei : BlockExtendedInfo) (c : Blockchain), alt[index]? = some bei ∧
    c.mainChain = s.mainChain.take split ++ (alt.map bl).take index ∧
    connected (c.connect E bei.bl now) = false
  chain : s'.mainChain = s.mainChain
  store : ∀ id, s'.db.altBlocks.lookup id =
    if id ∈ altIds E (alt.drop index) then none else s.db.altBlocks.lookup id

/-- A reorganisation that went through: the side chain is the main chain and gone from the store,
    where the disconnected blocks now are whose filing went well. -/
structure Switched (E : Externals) (s : Blockchain) (alt : List BlockExtendedInfo) (split : Nat)
    (discard : Bool) (pushes : List AltOutcome) (s' : Blockchain) : Prop where
  chain : s'.mainChain = s.mainChain.take split ++ alt.map bl
  gone : ∀ bei ∈ alt, E.blockHash bei.bl ∉ s'.db.altBlocks
  offered : pushes.length = (s.offeredBack split discard).length
  kept : ∀ id bei, s.db.altBlocks.lookup id = some bei → id ∉ altIds E alt →
    s'.db.altBlocks.lookup id = some bei
  store : ∀ id, id ∈ s'.db.altBlocks ↔ (id ∈ s.db.altBlocks ∧ id ∉ altIds E alt) ∨
    ∃ b, (b, AltOutcome.stored) ∈ (s.offeredBack split discard).zip pushes ∧ E.blockHash b = id

/-- The stages of a reorganisation along a side chain: the common part is left, and what follows
    depends on how many side blocks could be connected. -/
theorem switchWith_stages {split : Nat} (hatt : Attached E s alt split)
    (push : Blockchain → Block → AltResult) (discard : Bool) (now : UInt64) :
    (switchWith E push s alt discard now).1 = .emptyChain ∨
    (switchWith E push s alt discard now).1 = .notConnected ∨
    (switchWith E push s alt discard now).1 = .threw ∨
    ∃ common : Blockchain, common.mainChain = s.mainChain.take split ∧
      common.height = split ∧ common.db.altBlocks = s.db.altBlocks ∧
      switchWith E push s alt discard now =
        let t := connectAll E now common (alt.map bl)
        if t.1 = alt.length then
          finishSwitch E push t.2 (s.mainChain.drop split) alt split discard
        else rejectSwitch E t.2 (s.mainChain.drop split) alt split t.1 now := by
  simp only [switchWith]
  split
  · exact Or.inl rfl
  · rename_i front rest
    split
    · exact Or.inr (Or.inl rfl)
    · split
      · exact Or.inr (Or.inr (Or.inl rfl))
      · rename_i disconnected s₁ hpop
        rcases popUntil_lowered hpop with ⟨hreset, htop, hcollected⟩
        have hlower : Lowered s s₁ := ⟨hreset.blocks, hreset.altBlocks, hreset.pos⟩
        have hheight := hatt.height_of_lowered rfl hlower htop
        have hdisconnected : disconnected = s.mainChain.drop split := by
          rw [hcollected, append_nil, hheight]
          rfl
        have hlimit : s₁.updateNextCumulativeWeightLimit.height = split := hheight
        refine Or.inr (Or.inr (Or.inr ⟨s₁.updateNextCumulativeWeightLimit,
          hheight ▸ hlower.mainChain, hheight, hlower.altBlocks, ?_⟩))
        rw [hdisconnected, hlimit]

section Ends

variable {E : Externals} {now : UInt64} {s common : Blockchain} {alt : List BlockExtendedInfo}
  {split : Nat}

/-- A refusal undoes everything. -/
theorem rejectSwitch_rolledBack {index : Nat} {s' : Blockchain}
    (hmain : common.mainChain = s.mainChain.take split) (hheight : common.height = split)
    (halt : common.db.altBlocks = s.db.altBlocks)
    (hstopped : (connectAll E now common (alt.map bl)).1 ≠ alt.length)
    (h : rejectSwitch E (connectAll E now common (alt.map bl)).2
      (s.mainChain.drop split) alt split
      (connectAll E now common (alt.map bl)).1 now = (.rejected index true, s')) :
    RolledBack E now s alt split index s' := by
  rcases connectAll_tables E now common (alt.map bl) with ⟨hchain, hstore⟩
  have hrefused := connectAll_stopped E now common (alt.map bl)
    (by rwa [length_map])
  set t := connectAll E now common (alt.map bl)
  have hle : split ≤ t.2.height := by
    rw [← length_mainChain, hchain, length_append, length_mainChain]
    omega
  have hbase : t.2.mainChain.take split = s.mainChain.take split := by
    have hlen : common.mainChain.length = split := by rw [length_mainChain, hheight]
    rw [hchain, take_left' hlen, hmain]
  unfold rejectSwitch at h
  split at h
  · cases h
  · rename_i ok s₁ hrollback
    split at h
    · cases h
    · rename_i db hremove
      cases h
      rcases rollbackBlockchainSwitching_restores hle hrollback with ⟨hrestored, hrestoredAlt⟩
      refine ⟨?_, ?_, fun id => ?_⟩
      · rcases hrefused with ⟨b, c, hget, hc, hno⟩
        rw [getElem?_map] at hget
        rcases Option.map_eq_some_iff.mp hget with ⟨bei, hbei, rfl⟩
        exact ⟨bei, c, hbei, by rw [hc, hmain], hno⟩
      · change (db.blocks.map StoredBlock.block) = _
        rw [(removeAltBlocks_some hremove).1]
        change s₁.mainChain = _
        rw [hrestored, hbase, take_append_drop]
      · change db.altBlocks.lookup id = _
        rw [(removeAltBlocks_some hremove).2, hrestoredAlt, hstore, halt]
        rfl

theorem rejectSwitch_ne_switched (s : Blockchain) (disconnected : List Block) (index : Nat)
    (pushes : List AltOutcome) :
    (rejectSwitch E s disconnected alt split index now).1 ≠ .switched pushes := by
  unfold rejectSwitch
  split
  · simp
  · split <;> simp

theorem finishSwitch_ne_rejected (push : Blockchain → Block → AltResult) (s : Blockchain)
    (disconnected : List Block) (discard : Bool) (index : Nat) (rolledBack : Bool) :
    (finishSwitch E push s disconnected alt split discard).1 ≠ .rejected index rolledBack := by
  simp only [finishSwitch]
  generalize (if discard then ([], s) else pushDisconnected push s disconnected) = pushed
  split
  · simp
  · split <;> simp

/-- A reorganisation that connects every block keeps what could be filed. -/
theorem finishSwitch_switched {push : Blockchain → Block → AltResult} {discard : Bool}
    {pushes : List AltOutcome} {s' : Blockchain}
    (hpush : ∀ s b, (push s b).outcome.leavesMainChain →
      Filed s (E.blockHash b) (push s b).outcome (push s b).chain)
    (hmain : common.mainChain = s.mainChain.take split)
    (halt : common.db.altBlocks = s.db.altBlocks)
    (hstored : ∀ id ∈ altIds E alt, id ∈ s.db.altBlocks)
    (hall : (connectAll E now common (alt.map bl)).1 = alt.length)
    (h : finishSwitch E push (connectAll E now common (alt.map bl)).2
      (s.mainChain.drop split) alt split discard = (.switched pushes, s'))
    (hquiet : ∀ o ∈ pushes, o.leavesMainChain) : Switched E s alt split discard pushes s' := by
  rcases connectAll_tables E now common (alt.map bl) with ⟨hchain, hstore⟩
  rw [hall, ← length_map bl, take_length, hmain] at hchain
  set t := connectAll E now common (alt.map bl)
  -- Nothing is offered when the disconnected blocks are discarded.
  have hoffered : ∀ pushed, (if discard then ([], t.2)
      else pushDisconnected push t.2 (s.mainChain.drop split)) = pushed →
      (∀ o ∈ pushed.1, o.leavesMainChain) →
      FiledAll E t.2 (s.offeredBack split discard) pushed.1 pushed.2 := by
    rintro pushed rfl hquiet
    cases discard with
    | true => exact ⟨rfl, rfl, fun _ _ hkey => hkey, by simp [offeredBack], by simp⟩
    | false => exact pushDisconnected_filed hpush t.2 _ hquiet
  simp only [finishSwitch] at h
  generalize hpushed : (if discard then ([], t.2)
    else pushDisconnected push t.2 (s.mainChain.drop split)) = pushed at h
  split at h
  · cases h
  · split at h
    · cases h
    · rename_i db hremoved
      cases h
      have hremove : removeAltBlocks pushed.2.db (altIds E alt) = some db := hremoved
      have hfiled := hoffered pushed hpushed hquiet
      have hcommon : t.2.db.altBlocks = s.db.altBlocks := hstore.trans halt
      rcases reorganizeHardfork_tables (pushed.2.withDb db) split with ⟨hblocks, hforkStore⟩
      refine ⟨?_, fun bei hbei => ?_, hfiled.length, fun id bei hid hother => ?_, fun id => ?_⟩
      · rw [mainChain, hblocks]
        change db.blocks.map StoredBlock.block = _
        rw [(removeAltBlocks_some hremove).1, hfiled.blocks]
        exact hchain
      · rw [hforkStore]
        exact fun hmem => ((removeAltBlocks_mem hremove _).mp hmem).2
          (mem_map_of_mem hbei)
      · rw [hforkStore]
        change db.altBlocks.lookup id = _
        rw [(removeAltBlocks_some hremove).2, if_neg hother]
        exact hfiled.kept id bei (by rw [hcommon, hid])
      · rw [hforkStore]
        change id ∈ db.altBlocks ↔ _
        rw [removeAltBlocks_mem hremove, hfiled.mem, hcommon]
        constructor
        · rintro ⟨hmem | hnew, hother⟩
          · exact Or.inl ⟨hmem, hother⟩
          · exact Or.inr hnew
        · rintro (⟨hmem, hother⟩ | ⟨b, hb, rfl⟩)
          · exact ⟨Or.inl hmem, hother⟩
          · -- A block that was filed had an id that was not in use, so it is none of the side ones.
            refine ⟨Or.inr ⟨b, hb, rfl⟩, fun hside => hfiled.fresh b hb ?_⟩
            rw [hcommon]
            exact hstored _ hside

end Ends

/-- What a reorganisation along a side chain from the store comes to. If a side block is refused
    and the blocks of the main chain are accepted again, everything is as before except that the
    refused block and those above it are gone. If it goes through and no block offered back sets
    off another, the side chain is the main chain. -/
theorem switchToAlternativeBlockchain_ends (E : Externals) (now : UInt64) (depth : Nat)
    (s : Blockchain) (alt : List BlockExtendedInfo) (split : Nat) (discard : Bool)
    (hatt : Attached E s alt split) (hstored : ∀ id ∈ altIds E alt, id ∈ s.db.altBlocks) :
    (∀ index s', switchToAlternativeBlockchain E now depth s alt discard =
        (.rejected index true, s') → RolledBack E now s alt split index s') ∧
      ∀ pushes s', switchToAlternativeBlockchain E now depth s alt discard =
        (.switched pushes, s') → (∀ o ∈ pushes, o.leavesMainChain) →
          Switched E s alt split discard pushes s' := by
  unfold switchToAlternativeBlockchain
  set push : Blockchain → Block → AltResult :=
    fun s b => handleAlternativeBlock E now depth s b (E.blockHash b) {} {}
  have hpush : ∀ s b, (push s b).outcome.leavesMainChain →
      Filed s (E.blockHash b) (push s b).outcome (push s b).chain :=
    fun s b hquiet => handleAlternativeBlock_filed hquiet
  rcases switchWith_stages hatt push discard now with
    hend | hend | hend | ⟨common, hmain, hheight, halt, hswitch⟩
  · refine ⟨fun index s' h => ?_, fun pushes s' h => ?_⟩ <;> simp [h] at hend
  · refine ⟨fun index s' h => ?_, fun pushes s' h => ?_⟩ <;> simp [h] at hend
  · refine ⟨fun index s' h => ?_, fun pushes s' h => ?_⟩ <;> simp [h] at hend
  · simp only at hswitch
    rw [hswitch]
    split
    · rename_i hall
      refine ⟨fun index s' h => ?_, fun pushes s' h hquiet => ?_⟩
      · exact absurd (congrArg Prod.fst h) (finishSwitch_ne_rejected _ _ _ _ _ _)
      · exact finishSwitch_switched hpush hmain halt hstored hall h hquiet
    · rename_i hstopped
      refine ⟨fun index s' h => ?_, fun pushes s' h => ?_⟩
      · exact rejectSwitch_rolledBack hmain hheight halt hstopped h
      · exact absurd (congrArg Prod.fst h) (rejectSwitch_ne_switched _ _ _ _)

/-! ## A block with an early timestamp -/

/-- A block of the sample interpretation, where ids are nonces plus one. -/
def forkBlock (nonce parent : UInt32) (height : Nat) (timestamp : UInt64) : Block where
  majorVersion := 12
  minorVersion := 12
  timestamp := timestamp
  prevId := BitVec.ofNat 256 parent.toNat
  nonce := nonce
  minerTx := { vin := [.gen (UInt64.ofNat height)], unlockTime := UInt64.ofNat height + 60
               extra := [nonce.toUInt8] }
  txHashes := []

/-- Three blocks, of which the last is stamped before the others. The main chain takes it, since
    it has fewer than 60 blocks. -/
def earlyNode : Blockchain :=
  (connectAll .sample 2000 (start .empty (HardFork.mainnet.init .empty))
    [forkBlock 0 0 0 100, forkBlock 1 1 1 100, forkBlock 2 2 2 50]).2

/-- The node with two blocks beside the last one in its store, `last` above the other. Depth 0
    stops where the reorganisation would begin. -/
def forkedNode (last : Block) : Blockchain :=
  [forkBlock 3 2 2 100, last].foldl
    (fun s b => (handleAlternativeBlock .sample 2000 0 s b
      (Externals.sample.blockHash b) {} {}).chain)
    earlyNode

/-- The side chain of the two blocks, as it is stored. -/
def forkedSide (last : Block) : List BlockExtendedInfo :=
  [⟨forkBlock 3 2 2 100, 2, 1, 3, 0⟩, ⟨last, 3, 1, 63, 0⟩]

/-- The node that has the side chain as its main chain. -/
def sideNode (last : Block) : Blockchain :=
  (connectAll .sample 2000 (start .empty (HardFork.mainnet.init .empty))
    [forkBlock 0 0 0 100, forkBlock 1 1 1 100, forkBlock 3 2 2 100, last]).2

theorem filed_of_lookup (h : ids.all fun id => (db.altBlocks.lookup id).isSome) :
    ∀ id ∈ ids, id ∈ db.altBlocks :=
  fun id hid => lookup_isSome.mp (all_eq_true.mp h id hid)

/-- How a reorganisation ends determines it up to the state it leaves. -/
theorem switch_eq_of_outcome (s : Blockchain) (alt : List BlockExtendedInfo) (o : SwitchOutcome)
    (h : (switchToAlternativeBlockchain .sample 2000 1 s alt false).1 = o) :
    switchToAlternativeBlockchain .sample 2000 1 s alt false =
      (o, (switchToAlternativeBlockchain .sample 2000 1 s alt false).2) :=
  Prod.ext h rfl

/-- When the second side block is stamped in the future, it is refused and all is undone; when it
    is not, the side chain becomes the main chain. -/
theorem forkedNode_switch_ends :
    (∃ s', switchToAlternativeBlockchain .sample 2000 1 (forkedNode (forkBlock 4 4 3 20000))
        (forkedSide (forkBlock 4 4 3 20000)) false = (.rejected 1 true, s') ∧
      RolledBack .sample 2000 (forkedNode (forkBlock 4 4 3 20000))
        (forkedSide (forkBlock 4 4 3 20000)) 2 1 s') ∧
    ∃ s', switchToAlternativeBlockchain .sample 2000 1 (forkedNode (forkBlock 4 4 3 100))
        (forkedSide (forkBlock 4 4 3 100)) false = (.switched [.refused .invalidTimestamp], s') ∧
      Switched .sample (forkedNode (forkBlock 4 4 3 100)) (forkedSide (forkBlock 4 4 3 100)) 2
        false [.refused .invalidTimestamp] s' := by
  have hends : ∀ last, last = forkBlock 4 4 3 20000 ∨ last = forkBlock 4 4 3 100 → _ :=
    fun last hlast => switchToAlternativeBlockchain_ends .sample 2000 1 (forkedNode last)
      (forkedSide last) 2 false
      (by rcases hlast with rfl | rfl <;>
            exact ⟨by decide, by decide +kernel, by decide +kernel, by decide +kernel⟩)
      (filed_of_lookup (by rcases hlast with rfl | rfl <;> decide +kernel))
  constructor
  · have hswitch := switch_eq_of_outcome (forkedNode (forkBlock 4 4 3 20000))
      (forkedSide (forkBlock 4 4 3 20000)) (.rejected 1 true) (by decide +kernel)
    exact ⟨_, hswitch, (hends _ (Or.inl rfl)).1 _ _ hswitch⟩
  · have hswitch := switch_eq_of_outcome (forkedNode (forkBlock 4 4 3 100))
      (forkedSide (forkBlock 4 4 3 100)) (.switched [.refused .invalidTimestamp])
      (by decide +kernel)
    exact ⟨_, hswitch, (hends _ (Or.inr rfl)).2 _ _ hswitch (by decide)⟩

/-- A reorganisation that succeeds loses the block with the early timestamp. -/
theorem switch_loses_earlyBlock : ∃ (E : Externals) (now : UInt64) (depth : Nat) (s s' : Blockchain)
      (alt : List BlockExtendedInfo) (split : Nat) (pushes : List AltOutcome) (b : Block),
      Attached E s alt split ∧ (∀ id ∈ altIds E alt, id ∈ s.db.altBlocks) ∧
        switchToAlternativeBlockchain E now depth s alt false = (.switched pushes, s') ∧
        (∀ o ∈ pushes, o.leavesMainChain) ∧ b ∈ s.mainChain.drop split ∧
        E.blockHash b ∉ s'.db.altBlocks := by
  have hswitch := switch_eq_of_outcome (forkedNode (forkBlock 4 4 3 100))
    (forkedSide (forkBlock 4 4 3 100)) (.switched [.refused .invalidTimestamp]) (by decide +kernel)
  exact ⟨_, _, _, _, _, _, 2, _, forkBlock 2 2 2 50,
    ⟨by decide, by decide +kernel, by decide +kernel, by decide +kernel⟩,
    filed_of_lookup (by decide +kernel), hswitch, by decide, by decide +kernel,
    mt lookup_isSome.mpr (by decide +kernel)⟩

end Blockchain

end CocaineNode
