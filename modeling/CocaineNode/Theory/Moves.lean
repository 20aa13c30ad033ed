import CocaineNode.Lib.Transition
import CocaineNode.Theory.AltChain
import CocaineNode.Theory.MainChain

/-!
# The Moves a Chain Is Made Of

Every operation of a node comes down to a handful of moves as far as its main
chain is concerned: a block is pushed, the top block is popped, the difficulty
is asked for or its cache reset, the hard fork state is rebuilt, the node is
restarted, or something happens elsewhere. `Composes` says what a relation
between states needs in order to hold along every operation: offering a block
to the main chain, popping a block, offering an alternative block and
reorganising. A reorganisation pushes blocks that nobody has just offered. They
come from the database, so whatever holds of every block in it (`Holds`) and of
the block that is offered holds of all that are pushed. `Move` lists the moves,
and runs of moves are such a relation. An invariant of the chain is then a
matter of eight cases.

A move carries a log of every block that was ever pushed. The log is a ghost:
no operation reads it. It is there to say that no two blocks a node has seen
share an id, which is what lets a cache be keyed by the id of the top block.

## Theorems

* `Blockchain.popBlockFromBlockchain_some`: What popping a block does.
* `Blockchain.moves_composes`: Every operation is a run of moves.
-/

namespace CocaineNode

namespace Blockchain

open Transition BlockchainDB Relation.ReflTransGen

/-! ## Popping a block -/

/-- What is left of a state when its top block has been popped. -/
structure Popped (s : Blockchain) (b : Block) (s' : Blockchain) : Prop where
  height : 1 < s.height
  top : ∃ top, s.db.blocks = s'.db.blocks ++ [top] ∧ top.block = b
  db : s'.db = s.db.take (s.height - 1)
  hardfork : s'.hardfork = s.hardfork.onBlockPopped (s.db.take (s.height - 1)) 1
  fixedDifficulty : s'.fixedDifficulty = s.fixedDifficulty
  difficultyCache : s'.difficultyCache = s.resetDifficulties.difficultyCache

theorem foldl_returnPopped_untouched (E : Externals) (now : UInt64) (txs : List Transaction)
    (s : Blockchain) : Untouched s (txs.foldl (returnPopped E now) s) := by
  induction txs generalizing s with
  | nil => exact ⟨rfl, rfl, rfl, rfl⟩
  | cons tx rest ih =>
    have hone : Untouched s (returnPopped E now s tx) := by
      unfold returnPopped
      split
      · exact ⟨rfl, rfl, rfl, rfl⟩
      · exact untouched_withPool s _
    exact hone.trans (ih _)

variable {E : Externals} {s s' : Blockchain}

/-- What popping a block does. -/
theorem popBlockFromBlockchain_some {now : UInt64} {b : Block}
    (h : s.popBlockFromBlockchain E now = some (b, s')) : Popped s b s' := by
  unfold popBlockFromBlockchain at h
  split at h
  · cases h
  · rename_i hheight
    rcases hlast : s.db.blocks.getLast? with _ | top
    · rw [popBlock, hlast] at h
      cases h
    · rw [popBlock, hlast] at h
      simp only [Option.map_some, Option.some.injEq, Prod.mk.injEq] at h
      rcases h with ⟨hb, hs'⟩
      set db := s.db.take (s.db.height - 1) with hdb
      set s₁ := s.resetDifficulties.withChain db (s.hardfork.onBlockPopped db 1)
      have hreturned := foldl_returnPopped_untouched E now (top.txs.map Prod.fst).reverse s₁
      -- The rest touches the pool and the table of hashes only.
      have hrest : Untouched s₁ s' := by
        rw [← hs']
        split
        · exact hreturned.trans ⟨rfl, rfl, rfl, rfl⟩
        · exact hreturned.trans ⟨rfl, rfl, rfl, rfl⟩
      refine ⟨by omega, ⟨top, ?_, hb⟩, hrest.db, hrest.hardfork, hrest.fixedDifficulty,
        hrest.difficultyCache⟩
      rw [hrest.db]
      change s.db.blocks = s.db.blocks.take (s.db.blocks.length - 1) ++ [top]
      rw [← List.dropLast_eq_take]
      exact (List.dropLast_append_getLast? top hlast).symm

/-! ## The tables of the database -/

theorem addSupplement_untouched {hfVersion : UInt8} {now : UInt64} {txs : List (Hash × Transaction)}
    {ok : Bool} (h : addSupplement E hfVersion now txs s = (ok, s')) : Untouched s s' := by
  induction txs generalizing s with
  | nil =>
    cases h
    exact ⟨rfl, rfl, rfl, rfl⟩
  | cons e rest ih =>
    unfold addSupplement at h
    split at h
    · exact ih h
    · simp only at h
      split at h
      · cases h
        exact untouched_withPool s _
      · exact (untouched_withPool s _).trans (ih h)

/-- Removing entries from the store leaves the others as they were. -/
theorem removeAltBlocks_some {db db' : BlockchainDB} {ids : List Hash}
    (h : removeAltBlocks db ids = some db') : db'.blocks = db.blocks ∧
      ∀ id, db'.altBlocks.lookup id = if id ∈ ids then none else db.altBlocks.lookup id := by
  induction ids generalizing db with
  | nil =>
    cases h
    simp
  | cons first rest ih =>
    rcases Option.bind_eq_some_iff.mp h with ⟨db₁, hone, hrest⟩
    obtain ⟨hblocks, hlookup⟩ := ih hrest
    unfold removeAltBlock at hone
    split at hone
    · cases hone
      refine ⟨hblocks, fun id => ?_⟩
      rw [hlookup]
      by_cases hfirst : id = first
      · subst hfirst
        simp
      · simp [hfirst, AList.lookup_erase_ne hfirst]
    · cases hone

/-- Every block in the database has a property, on the main chain and in the alternative store. -/
structure Holds (G : Block → Prop) (db : BlockchainDB) : Prop where
  main : ∀ b ∈ db.blocks, G b.block
  alts : ∀ id bei, db.altBlocks.lookup id = some bei → G bei.bl

section Holds

variable {G : Block → Prop} {db db' : BlockchainDB}

theorem Holds.of_tables (h : Holds G db) (hblocks : db'.blocks ⊆ db.blocks)
    (halts : db'.altBlocks = db.altBlocks) : Holds G db' :=
  ⟨fun b hb => h.main b (hblocks hb), halts ▸ h.alts⟩

theorem Holds.removed {ids : List Hash} (h : Holds G db)
    (hremove : removeAltBlocks db ids = some db') : Holds G db' := by
  obtain ⟨hblocks, hlookup⟩ := removeAltBlocks_some hremove
  refine ⟨hblocks ▸ h.main, fun id bei hid => ?_⟩
  rw [hlookup] at hid
  split_ifs at hid
  exact h.alts id bei hid

/-- What a walk through the alternative store collects. -/
theorem Holds.altWalk (h : Holds G db) (n : Nat) (id : Hash) {acc : List BlockExtendedInfo}
    (hacc : ∀ bei ∈ acc, G bei.bl) : ∀ bei ∈ altWalk db n id acc, G bei.bl := by
  induction n generalizing id acc with
  | zero => exact hacc
  | succ n ih =>
    unfold Blockchain.altWalk
    split
    · exact hacc
    · rename_i hlookup
      exact ih _ (List.forall_mem_cons.mpr ⟨h.alts _ _ hlookup, hacc⟩)

theorem Holds.buildAltChain {prevId : Hash} {alt : List BlockExtendedInfo}
    {timestamps : List UInt64} (h : Holds G s.db)
    (hbuild : s.buildAltChain prevId = some (alt, timestamps)) : ∀ bei ∈ alt, G bei.bl := by
  rw [(buildAltChain_some hbuild).1]
  exact h.altWalk _ prevId (List.forall_mem_nil fun bei : BlockExtendedInfo => G bei.bl)

theorem Popped.holds {b : Block} (h : Popped s b s') (hs : Holds G s.db) : Holds G s'.db := by
  rw [h.db]
  exact hs.of_tables (List.take_subset _ _) rfl

/-- The blocks that are popped. -/
theorem Holds.popUntil {E : Externals} {now : UInt64} {id : Hash} {n : Nat}
    {popped popped' : List Block} (h : Holds G s.db)
    (hpop : popUntil E id now n s popped = some (popped', s'))
    (hpopped : ∀ b ∈ popped, G b) : ∀ b ∈ popped', G b := by
  induction n generalizing s popped with
  | zero => cases hpop
  | succ n ih =>
    unfold popUntil at hpop
    split at hpop
    · cases hpop
      exact hpopped
    · split at hpop
      · cases hpop
      · rename_i hone
        have hs := popBlockFromBlockchain_some hone
        rcases hs.top with ⟨top, htop, rfl⟩
        exact ih (hs.holds h) hpop
          (List.forall_mem_cons.mpr ⟨h.main top (by simp [htop]), hpopped⟩)

end Holds

theorem addAll_tables (hf : HardFork) (db : BlockchainDB) (blocks : List StoredBlock) (h : Nat) :
    (hf.addAll db blocks h).2.blocks = db.blocks ∧
      (hf.addAll db blocks h).2.altBlocks = db.altBlocks := by
  induction blocks generalizing hf db h with
  | nil => exact ⟨rfl, rfl⟩
  | cons b rest ih =>
    rcases ih (hf.add db b.block h).2.1 (hf.add db b.block h).2.2 (h + 1) with ⟨hblocks, halt⟩
    rcases add_tables hf db b.block h with ⟨hadd, haddAlt⟩
    exact ⟨hblocks.trans hadd, halt.trans haddAlt⟩

/-- Rebuilding the hard fork state rewrites recorded versions and nothing else. -/
theorem reorganizeHardfork_tables (s : Blockchain) (height : Nat) :
    (s.reorganizeHardfork height).db.blocks = s.db.blocks ∧
      (s.reorganizeHardfork height).db.altBlocks = s.db.altBlocks := by
  change (s.hardfork.reorganizeFromChainHeight s.db height).2.2.blocks = _ ∧
    (s.hardfork.reorganizeFromChainHeight s.db height).2.2.altBlocks = _
  unfold HardFork.reorganizeFromChainHeight
  split
  · exact ⟨rfl, rfl⟩
  · unfold HardFork.reorganizeFromBlockHeight
    split
    · exact ⟨rfl, rfl⟩
    · exact addAll_tables _ _ _ _

/-! ## Alternative blocks -/

/-- The state with a block in the alternative store. -/
def filed (s : Blockchain) (id : Hash) (bei : BlockExtendedInfo) : Blockchain :=
  s.withDb { s.db with altBlocks := s.db.altBlocks.insert id bei }

/-- At every depth a block goes through the same steps. -/
theorem handleAlternativeBlock_eq (E : Externals) (now : UInt64) (depth : Nat) (s : Blockchain)
    (b : Block) (id : Hash) (bvc : Bvc) (ps : PoolSupplement) : ∃ reorganise,
      handleAlternativeBlock E now depth s b id bvc ps =
        altBlock E reorganise s b id bvc ps now := by
  cases depth with
  | zero | succ depth => exact ⟨_, rfl⟩

/-- How a block offered as an alternative one ends, whatever a reorganisation does: it is an orphan
    or refused, or it is filed, and then there may be a reorganisation. -/
theorem altBlock_cases (E : Externals) (s : Blockchain) (b : Block) (id : Hash) (bvc : Bvc)
    (ps : PoolSupplement) (now : UInt64) :
    (∃ r : AltResult, (r.outcome = .orphaned ∨ ∃ exit, r.outcome = .refused exit) ∧
      Untouched s.resetDifficulties r.chain ∧
      ∀ reorganise, altBlock E reorganise s b id bvc ps now = r) ∨
    ∃ s₁ alt timestamps bei, Untouched s.resetDifficulties s₁ ∧ id ∉ s₁.db.altBlocks ∧
      s.buildAltChain b.prevId = some (alt, timestamps) ∧ bei.bl = b ∧
      bei.alreadyGeneratedCoins =
        addCoins (s.altParent alt b.prevId).2.1 b.minerTx.outsMoneyAmount ∧
      ((∀ reorganise, altBlock E reorganise s b id bvc ps now =
          ⟨.stored, bvc, s₁.filed id bei, {}⟩) ∨
        ∃ discard, ∀ reorganise, let r := reorganise (s₁.filed id bei) (alt ++ [bei]) discard
          (altBlock E reorganise s b id bvc ps now).chain = r.2 ∧
            (altBlock E reorganise s b id bvc ps now).outcome =
              if r.1 = .threw then .threw else .reorganised r.1.ret) := by
  have hreset : Untouched s.resetDifficulties s.resetDifficulties := ⟨rfl, rfl, rfl, rfl⟩
  have hparent : s.resetDifficulties.altParent = s.altParent := rfl
  simp only [altBlock]
  cases s.resetDifficulties.altHeaderExit b with
  | some exit => exact .inl ⟨_, .inr ⟨exit, rfl⟩, hreset, fun _ => rfl⟩
  | none =>
    simp only
    split_ifs with horphan
    · exact .inl ⟨_, .inl rfl, hreset, fun _ => rfl⟩
    · cases hbuild : s.resetDifficulties.buildAltChain b.prevId with
      | none => exact .inl ⟨_, .inr ⟨_, rfl⟩, hreset, fun _ => rfl⟩
      | some built =>
        rcases built with ⟨alt, timestamps⟩
        simp only
        cases s.resetDifficulties.altWorkExit E b id ps alt timestamps _ with
        | some exit => exact .inl ⟨_, .inr ⟨exit, rfl⟩, hreset, fun _ => rfl⟩
        | none =>
          simp only [storeAltBlock]
          rcases hsupplement : addSupplement E _ now _ s.resetDifficulties with ⟨ok, s₁⟩
          have hs₁ := addSupplement_untouched hsupplement
          cases ok with
          | false => exact .inl ⟨_, .inr ⟨_, rfl⟩, hs₁, fun _ => rfl⟩
          | true =>
            simp only
            cases altWeight E s₁ b.txHashes _ with
            | error exit => exact .inl ⟨_, .inr ⟨exit, rfl⟩, hs₁, fun _ => rfl⟩
            | ok weight =>
              simp only [addAltBlock]
              by_cases hid : id ∈ s₁.db.altBlocks
              · simp only [if_pos hid]
                exact .inl ⟨_, .inr ⟨_, rfl⟩, hs₁, fun _ => rfl⟩
              · simp only [if_neg hid]
                refine .inr ⟨s₁, alt, timestamps, ?_⟩
                split
                · exact ⟨_, hs₁, hid, hbuild, by rfl, by rw [← hparent],
                    .inr ⟨_, fun _ => ⟨rfl, rfl⟩⟩⟩
                · exact ⟨_, hs₁, hid, hbuild, by rfl, by rw [← hparent], .inl fun _ => rfl⟩

/-! ## Operations put together -/

theorem Holds.filed {G : Block → Prop} {id : Hash} {bei : BlockExtendedInfo} (h : Holds G s.db)
    (hbei : G bei.bl) : Holds G (s.filed id bei).db := by
  refine ⟨h.main, fun id' bei' hlookup => ?_⟩
  change (s.db.altBlocks.insert id bei).lookup id' = some bei' at hlookup
  by_cases hid : id' = id
  · rw [hid, AList.lookup_insert] at hlookup
    cases hlookup
    exact hbei
  · rw [AList.lookup_insert_ne hid] at hlookup
    exact h.alts id' bei' hlookup

/-- A relation between states that operations are put together from, when all blocks that are there
    and all that are offered have a property. -/
structure Composes (E : Externals) (G : Block → Prop) (P : Blockchain → Blockchain → Prop) :
    Prop where
  refl : ∀ s, P s s
  trans : ∀ {s s' s''}, P s s' → P s' s'' → P s s''
  given : ∀ {s s' : Blockchain}, (Holds G s.db → P s s') → P s s'
  other : ∀ {s s' : Blockchain}, (Holds G s.db → Holds G s'.db) → s'.db.blocks = s.db.blocks →
    s'.hardfork = s.hardfork → s'.fixedDifficulty = s.fixedDifficulty →
    s'.difficultyCache = s.difficultyCache → P s s'
  query : ∀ s : Blockchain, P s s.getDifficultyForNextBlock.2
  reset : ∀ s : Blockchain, P s s.resetDifficulties
  refork : ∀ (s : Blockchain) (height : Nat), P s (s.reorganizeHardfork height)
  pop : ∀ {s s' : Blockchain} {b : Block}, Popped s b s' → P s s'
  accept : ∀ {s chain : Blockchain} {bl : Block} {ps : PoolSupplement} {now : UInt64}, G bl →
    s.headerExit bl now = none → Accepted E s.getDifficultyForNextBlock.2 bl ps now
      s.getDifficultyForNextBlock.1 chain → P s chain

namespace Composes

variable {E : Externals} {G : Block → Prop} {P : Blockchain → Blockchain → Prop}
  {s s' : Blockchain} (h : Composes E G P)
include h

theorem untouched (hs : Untouched s s') : P s s' :=
  h.other (fun hholds => hs.db ▸ hholds) (by rw [hs.db]) hs.hardfork hs.fixedDifficulty
    hs.difficultyCache

/-- Offering a block to the main chain. -/
theorem handleBlockToMainChain (s : Blockchain) {bl : Block} (hbl : G bl) (id : Hash)
    (ps : PoolSupplement) (now : UInt64) :
    P s (s.handleBlockToMainChain E bl id {} ps now).chain := by
  by_cases hexit : (s.handleBlockToMainChain E bl id {} ps now).exit = none
  · rcases handleBlockToMainChain_accepted hexit with ⟨hheader, ⟨a⟩, -⟩
    exact h.accept hbl hheader a
  · rcases handleBlockToMainChain_refused hexit with hs | hs
    · exact h.untouched hs
    · exact h.trans (h.query s) (h.untouched hs)

theorem connectAll (now : UInt64) (s : Blockchain) {blocks : List Block}
    (hblocks : ∀ b ∈ blocks, G b) : P s (connectAll E now s blocks).2 := by
  induction blocks generalizing s with
  | nil => exact h.refl s
  | cons b rest ih =>
    rw [List.forall_mem_cons] at hblocks
    have hfirst : P s (s.connect E b now).chain := h.handleBlockToMainChain s hblocks.1 _ {} now
    simp only [Blockchain.connectAll]
    split
    · exact h.trans hfirst (ih _ hblocks.2)
    · exact hfirst

variable {now : UInt64}

theorem popUntil {id : Hash} {n : Nat} {popped popped' : List Block}
    (hpop : popUntil E id now n s popped = some (popped', s')) : P s s' := by
  induction n generalizing s popped with
  | zero => cases hpop
  | succ n ih =>
    unfold popUntil at hpop
    split at hpop
    · cases hpop
      exact h.refl _
    · split at hpop
      · cases hpop
      · rename_i hone
        exact h.trans (h.pop (popBlockFromBlockchain_some hone)) (ih hpop)

theorem popToHeight {height n : Nat}
    (hpop : popToHeight E height now n s = some s') : P s s' := by
  induction n generalizing s with
  | zero => cases hpop
  | succ n ih =>
    unfold popToHeight at hpop
    split at hpop
    · cases hpop
      exact h.refl _
    · split at hpop
      · cases hpop
      · rename_i hone
        exact h.trans (h.pop (popBlockFromBlockchain_some hone)) (ih hpop)

theorem rollbackBlockchainSwitching {original : List Block} {height : Nat} {ok : Bool}
    (horiginal : ∀ b ∈ original, G b)
    (hroll : rollbackBlockchainSwitching E s original height now = some (ok, s')) :
    P s s' := by
  unfold Blockchain.rollbackBlockchainSwitching at hroll
  split at hroll
  · cases hroll
    exact h.refl s
  · rcases Option.map_eq_some_iff.mp hroll with ⟨s₁, hpop, hs'⟩
    have hpopped : P s s₁ := h.trans (h.reset s) (h.popToHeight hpop)
    have hlimit : P s₁ s₁.updateNextCumulativeWeightLimit := h.other id rfl rfl rfl rfl
    have hconnect := h.connectAll now
      (s₁.updateNextCumulativeWeightLimit.reorganizeHardfork height) horiginal
    have hall := h.trans hpopped (h.trans hlimit (h.trans (h.refork _ height) hconnect))
    simp only at hs'
    split at hs'
    · cases hs'
      exact h.trans hall (h.refork _ height)
    · cases hs'
      exact hall

/-- A block that is filed may trigger a reorganisation. -/
theorem altBlock
    {reorganise : Blockchain → List BlockExtendedInfo → Bool → SwitchOutcome × Blockchain}
    (hre : ∀ s alt discard, (∀ bei ∈ alt, G bei.bl) → P s (reorganise s alt discard).2)
    (s : Blockchain) {b : Block} (hb : G b) (id : Hash) (bvc : Bvc) (ps : PoolSupplement) :
    P s (altBlock E reorganise s b id bvc ps now).chain := by
  refine h.given fun hholds => h.trans (h.reset s) ?_
  rcases altBlock_cases E s b id bvc ps now with
    ⟨r, -, hr, heq⟩ | ⟨s₁, alt, timestamps, bei, hs₁, -, hbuild, rfl, -, hend⟩
  · rw [heq]
    exact h.untouched hr
  · have hfiled : P s₁ (s₁.filed id bei) :=
      h.other (fun hs => hs.filed hb) rfl rfl rfl rfl
    refine h.trans (h.untouched hs₁) (h.trans hfiled ?_)
    rcases hend with heq | ⟨discard, heq⟩
    · rw [heq]
      exact h.refl _
    · rw [(heq reorganise).1]
      exact hre _ _ _ (List.forall_mem_append.mpr
        ⟨hholds.buildAltChain hbuild, List.forall_mem_singleton.mpr hb⟩)

variable {push : Blockchain → Block → AltResult}

theorem pushDisconnected (hpush : ∀ s b, G b → P s (push s b).chain) (s : Blockchain)
    {blocks : List Block} (hblocks : ∀ b ∈ blocks, G b) :
    P s (pushDisconnected push s blocks).2 := by
  induction blocks generalizing s with
  | nil => exact h.refl s
  | cons b rest ih =>
    rw [List.forall_mem_cons] at hblocks
    simp only [Blockchain.pushDisconnected]
    split
    · exact hpush s b hblocks.1
    · exact h.trans (hpush s b hblocks.1) (ih _ hblocks.2)

theorem finishSwitch (hpush : ∀ s b, G b → P s (push s b).chain) (s : Blockchain)
    {disconnected : List Block} (hblocks : ∀ b ∈ disconnected, G b) (alt : List BlockExtendedInfo)
    (split : Nat) (discard : Bool) :
    P s (Blockchain.finishSwitch E push s disconnected alt split discard).2 := by
  simp only [Blockchain.finishSwitch]
  have hpushed : P s
      (if discard then ([], s) else Blockchain.pushDisconnected push s disconnected).2 := by
    split
    · exact h.refl s
    · exact h.pushDisconnected hpush s hblocks
  generalize (if discard then ([], s) else Blockchain.pushDisconnected push s disconnected) = pushed
    at hpushed
  split
  · exact hpushed
  · split
    · exact hpushed
    · rename_i db hremove
      have hremoved : P pushed.2 (pushed.2.withDb db) :=
        h.other (fun hs => hs.removed hremove) (removeAltBlocks_some hremove).1 rfl rfl rfl
      exact h.trans hpushed (h.trans hremoved (h.refork _ _))

theorem rejectSwitch (s : Blockchain) {disconnected : List Block}
    (hblocks : ∀ b ∈ disconnected, G b) (alt : List BlockExtendedInfo) (split index : Nat)
    (now : UInt64) :
    P s (rejectSwitch E s disconnected alt split index now).2 := by
  unfold Blockchain.rejectSwitch
  split
  · exact h.refl s
  · rename_i hrollback
    have hrolled := h.rollbackBlockchainSwitching hblocks hrollback
    split
    · exact hrolled
    · rename_i db hremove
      exact h.trans hrolled
        (h.other (fun hs => hs.removed hremove) (removeAltBlocks_some hremove).1 rfl rfl rfl)

theorem switchWith (hpush : ∀ s b, G b → P s (push s b).chain) (s : Blockchain)
    {alt : List BlockExtendedInfo} (halt : ∀ bei ∈ alt, G bei.bl) (discard : Bool) (now : UInt64) :
    P s (switchWith E push s alt discard now).2 := by
  refine h.given fun hholds => h.trans (h.reset s) ?_
  simp only [Blockchain.switchWith]
  split
  · exact h.refl _
  · split
    · exact h.refl _
    · split
      · exact h.refl _
      · rename_i front rest _ _ disconnected s₁ hpop
        have hpopped := h.popUntil hpop
        have hblocks : ∀ b ∈ disconnected, G b :=
          Holds.popUntil (s := s.resetDifficulties) hholds hpop (List.forall_mem_nil _)
        have hlimit : P s₁ s₁.updateNextCumulativeWeightLimit := h.other id rfl rfl rfl rfl
        have hconnected := h.connectAll now s₁.updateNextCumulativeWeightLimit
          (List.forall_mem_map.mpr halt)
        refine h.trans hpopped (h.trans hlimit (h.trans hconnected ?_))
        split
        · exact h.finishSwitch hpush _ hblocks _ _ _
        · exact h.rejectSwitch _ hblocks _ _ _ _

/-- Offering an alternative block, however deep it makes the chain reorganise. -/
theorem handleAlternativeBlock (now : UInt64) (depth : Nat) (s : Blockchain)
    {b : Block} (hb : G b) (id : Hash) (bvc : Bvc) (ps : PoolSupplement) :
    P s (handleAlternativeBlock E now depth s b id bvc ps).chain := by
  induction depth generalizing s b id bvc ps with
  | zero => exact h.altBlock (fun s _ _ _ => h.refl s) s hb id bvc ps
  | succ depth ih =>
    refine h.altBlock (fun s alt discard halt => ?_) s hb id bvc ps
    exact h.switchWith (fun s b hb => ih s hb _ _ _) s halt discard now

end Composes

/-! ## Moves -/

/-- The work recorded for the top block. -/
def topWork (s : Blockchain) : Difficulty :=
  (s.db.blocks.getLast?.map StoredBlock.cumulativeDifficulty).getD 0

/-- One move of a chain, with the log of the blocks pushed so far. -/
inductive Move (E : Externals) : Blockchain × List Block → Blockchain × List Block → Prop
  | other (s s' : Blockchain) (log : List Block) : s'.db.blocks = s.db.blocks →
      s'.hardfork = s.hardfork → s'.fixedDifficulty = s.fixedDifficulty →
      s'.difficultyCache = s.difficultyCache → Move E (s, log) (s', log)
  | query (s : Blockchain) (log : List Block) : Move E (s, log) (s.getDifficultyForNextBlock.2, log)
  | reset (s : Blockchain) (log : List Block) : Move E (s, log) (s.resetDifficulties, log)
  | keep (s : Blockchain) (log : List Block) : Move E (s, log)
      (s.withCache { s.difficultyCache with resetTimestampsAndDifficultiesHeight := false }, log)
  | push (s s' : Blockchain) (b : StoredBlock) (db : BlockchainDB) (log : List Block) :
      s'.db.blocks = s.db.blocks ++ [b] → b.hash = E.blockHash b.block →
      b.block.prevId = s.db.topBlockHash →
      b.cumulativeDifficulty = s.getDifficultyForNextBlock.1 + s.topWork →
      s'.hardfork = (s.hardfork.add db b.block s.height).2.1 →
      s'.fixedDifficulty = s.fixedDifficulty → s'.difficultyCache = s.difficultyCache →
      Move E (s, log) (s', b.block :: log)
  | pop (s s' : Blockchain) (db : BlockchainDB) (log : List Block) :
      s'.db.blocks = s.db.blocks.dropLast → s'.hardfork = s.hardfork.onBlockPopped db 1 →
      s'.fixedDifficulty = s.fixedDifficulty →
      s'.difficultyCache = s.resetDifficulties.difficultyCache → Move E (s, log) (s', log)
  | refork (s : Blockchain) (height : Nat) (log : List Block) :
      Move E (s, log) (s.reorganizeHardfork height, log)
  | restart (s s' : Blockchain) (log : List Block) : s'.db.blocks = s.db.blocks →
      s'.hardfork = s.hardfork.init s'.db → s'.fixedDifficulty = s.fixedDifficulty →
      s'.difficultyCache = {} → Move E (s, log) (s', log)

/-- A run of moves from one state to another, whatever was pushed before. -/
def Moves (E : Externals) (s s' : Blockchain) : Prop :=
  ∀ log, ∃ log', Run (Move E) (s, log) (s', log')

namespace Moves

variable {E : Externals} {s s' s'' : Blockchain}

theorem trans (h : Moves E s s') (h' : Moves E s' s'') : Moves E s s'' := by
  intro log
  rcases h log with ⟨log₁, hrun₁⟩
  rcases h' log₁ with ⟨log₂, hrun₂⟩
  exact ⟨log₂, hrun₁.trans hrun₂⟩

/-- A single move that pushes nothing. -/
theorem of_move (h : ∀ log, Move E (s, log) (s', log)) : Moves E s s' :=
  fun log => ⟨log, single (h log)⟩

end Moves

/-! ## Operations as runs of moves -/

theorem getDifficultyForNextBlock_fixed (h : s.fixedDifficulty ≠ 0) :
    s.getDifficultyForNextBlock = (if s.height = 0 then 1 else s.fixedDifficulty, s) := by
  unfold getDifficultyForNextBlock
  rw [if_pos h]

theorem getDifficultyForNextBlock_cached (h : s.fixedDifficulty = 0) : s.getDifficultyForNextBlock =
      ((cachedDifficulty s.db s.hardfork s.difficultyCache).1,
        s.withCache (cachedDifficulty s.db s.hardfork s.difficultyCache).2) := by
  unfold getDifficultyForNextBlock
  rw [if_neg (not_not.mpr h)]

/-- After an answer the cache holds the top block, so the next answer is the same. -/
theorem cachedDifficulty_again (db : BlockchainDB) (hf : HardFork) (c : DifficultyCache) :
    (cachedDifficulty db hf (cachedDifficulty db hf c).2).1 = (cachedDifficulty db hf c).1 := by
  simp only [cachedDifficulty]
  split
  · rfl
  · rw [if_pos rfl]

theorem getDifficultyForNextBlock_again (s : Blockchain) :
    s.getDifficultyForNextBlock.2.getDifficultyForNextBlock.1 = s.getDifficultyForNextBlock.1 := by
  by_cases hfixed : s.fixedDifficulty = 0
  · rw [getDifficultyForNextBlock_cached hfixed]
    have hcached : ∀ c, (s.withCache c).getDifficultyForNextBlock.1 =
        (cachedDifficulty s.db s.hardfork c).1 := fun c => by
      rw [getDifficultyForNextBlock_cached (s := s.withCache c) hfixed]
      rfl
    rw [hcached]
    exact cachedDifficulty_again s.db s.hardfork s.difficultyCache
  · rw [getDifficultyForNextBlock_fixed hfixed]
    rw [getDifficultyForNextBlock_fixed hfixed]

/-- After an answer the cache holds the top block. -/
theorem getDifficultyForNextBlock_top (h : s.fixedDifficulty = 0) :
    s.getDifficultyForNextBlock.2.difficultyCache.difficultyForNextBlockTopHash =
      s.db.topBlockHash := by
  rw [getDifficultyForNextBlock_cached h]
  simp only [cachedDifficulty]
  split
  · rename_i htop
    exact htop.symm
  · rfl

namespace Accepted

variable {E : Externals} {s chain : Blockchain} {bl : Block} {ps : PoolSupplement} {now : UInt64}
  {diffic : Difficulty}

/-- The state right after the record was written. -/
def written (a : Accepted E s bl ps now diffic chain) : Blockchain :=
  s.withChain (s.hardfork.add a.db bl s.height).2.2 (s.hardfork.add a.db bl s.height).2.1

theorem written_blocks (a : Accepted E s bl ps now diffic chain) :
    a.written.db.blocks = s.db.blocks ++ [a.stored] := by
  rcases addBlock_ok a.added with ⟨-, -, hadded, -, -⟩
  exact (add_tables s.hardfork a.db bl s.height).1.trans hadded

/-- The work of the record is that of the chain with the difficulty that was answered. -/
theorem stored_work
    (a : Accepted E s.getDifficultyForNextBlock.2 bl ps now s.getDifficultyForNextBlock.1 chain) :
    a.stored.cumulativeDifficulty = s.getDifficultyForNextBlock.2.getDifficultyForNextBlock.1 +
        s.getDifficultyForNextBlock.2.topWork := by
  rw [getDifficultyForNextBlock_again s]
  rfl

/-- An accepted block is a query, a push and another query. -/
theorem run (hparent : bl.prevId = s.db.topBlockHash)
    (a : Accepted E s.getDifficultyForNextBlock.2 bl ps now s.getDifficultyForNextBlock.1 chain)
    (log : List Block) : Run (Move E) (s, log) (chain, bl :: log) := by
  have htop : bl.prevId = s.getDifficultyForNextBlock.2.db.topBlockHash := by
    rw [hparent, getDifficultyForNextBlock_db]
  have hpush : Move E (s.getDifficultyForNextBlock.2, log) (a.written, bl :: log) :=
    Move.push _ a.written a.stored a.db log a.written_blocks rfl htop a.stored_work rfl rfl rfl
  have hend : Move E (a.written.getDifficultyForNextBlock.2, bl :: log) (chain, bl :: log) :=
    Move.other _ _ _ (by rw [a.untouched.db, written]) a.untouched.hardfork
      a.untouched.fixedDifficulty a.untouched.difficultyCache
  exact (((single (Move.query s log)).tail hpush).tail
    (Move.query a.written (bl :: log))).tail hend

end Accepted

theorem Popped.move {b : Block} (h : Popped s b s') (log : List Block) :
    Move E (s, log) (s', log) := by
  have hblocks : s'.db.blocks = s.db.blocks.dropLast := by
    rcases h.top with ⟨top, htop, -⟩
    rw [htop, List.dropLast_concat]
  exact Move.pop s s' _ log hblocks h.hardfork h.fixedDifficulty h.difficultyCache

/-- Operations are put together from runs of moves. -/
theorem moves_composes (E : Externals) : Composes E (fun _ => True) (Moves E) where
  refl _ log := ⟨log, refl⟩
  trans := Moves.trans
  given h := h ⟨fun _ _ => trivial, fun _ _ _ => trivial⟩
  other _ hblocks hhardfork hfixed hcache :=
    Moves.of_move fun log => Move.other _ _ log hblocks hhardfork hfixed hcache
  query s := Moves.of_move (Move.query s)
  reset s := Moves.of_move (Move.reset s)
  refork s height := Moves.of_move (Move.refork s height)
  pop hpopped := Moves.of_move hpopped.move
  accept _ hheader a log := ⟨_, a.run (headerExit_none hheader).1 log⟩

theorem connected_iff {E : Externals} {s : Blockchain} {b : Block} {now : UInt64} :
    connected (s.connect E b now) = true ↔ (s.connect E b now).exit = none := by
  rw [connected, Bool.and_eq_true, Option.isNone_iff_eq_none]
  refine ⟨fun h => h.1, fun h => ⟨h, ?_⟩⟩
  exact (handleBlockToMainChain_accepted h).2.2

/-- When all of them are connected, these are the blocks pushed. -/
theorem connectAll_run (E : Externals) (now : UInt64) (s : Blockchain) (blocks log : List Block)
    (hall : (connectAll E now s blocks).1 = blocks.length) :
    Run (Move E) (s, log) ((connectAll E now s blocks).2, blocks.reverse ++ log) := by
  induction blocks generalizing s log with
  | nil => exact refl
  | cons b rest ih =>
    simp only [connectAll] at hall ⊢
    split at hall
    · rename_i hconnected
      rw [if_pos hconnected]
      rcases handleBlockToMainChain_accepted (connected_iff.mp hconnected) with ⟨hheader, ⟨a⟩, -⟩
      have hrest := ih (s.connect E b now).chain (b :: log) (by simpa using hall)
      rw [List.reverse_cons, List.append_assoc]
      exact (a.run (headerExit_none hheader).1 log).trans hrest
    · simp at hall

end Blockchain

end CocaineNode
