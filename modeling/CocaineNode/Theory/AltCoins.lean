import CocaineNode.Theory.Emission
import CocaineNode.Theory.Reorg

/-!
# The Coins of Alternative Blocks

An alternative block is stored with the coins that were generated up to it. The
main chain adds what a block creates, its coinbase outputs without the fees they
collect. `handle_alternative_block` adds the outputs as they are, so the fees of
an alternative block are counted as new coins.

The two values agree exactly when the block pays no fees, or when both sums are
past the money supply, where they are cut off.

## Theorems

* `Blockchain.altCoins_eq_mainCoins_iff`: When the two paths agree.
* `Blockchain.Beside.coins_eq`: A side chain on which no block pays fees.
-/

namespace CocaineNode

/-- The block was stored, whatever came of a reorganisation. -/
def AltOutcome.accepted : AltOutcome → Bool
  | .refused _ => false
  | .orphaned => false
  | _ => true

namespace Blockchain

/-- `prev_generated_coins`. -/
def altPrevCoins (s : Blockchain) (b : Block) : UInt64 :=
  match s.buildAltChain b.prevId with
  | some (alt, _) => (s.altParent alt b.prevId).2.1
  | none => 0

/-- `handle_alternative_block` up to the reorganisation that it may set off. -/
def fileAlternativeBlock (E : Externals) (s : Blockchain) (b : Block) (id : Hash) (bvc : Bvc)
    (ps : PoolSupplement) (now : UInt64) : Blockchain :=
  (altBlock E (fun s _ _ => (.emptyChain, s)) s b id bvc ps now).chain

section

variable {E : Externals} {s : Blockchain} {b : Block} {id : Hash} {bvc : Bvc} {ps : PoolSupplement}
  {now : UInt64}
  {reorganise : Blockchain → List BlockExtendedInfo → Bool → SwitchOutcome × Blockchain}

theorem handleAlternativeBlock_coins {depth : Nat}
    (h : (handleAlternativeBlock E now depth s b id bvc ps).outcome.accepted = true) :
    ∃ bei, (s.fileAlternativeBlock E b id bvc ps now).db.altBlocks.lookup id = some bei ∧
      bei.bl = b ∧
      bei.alreadyGeneratedCoins = addCoins (s.altPrevCoins b) b.minerTx.outsMoneyAmount := by
  rcases handleAlternativeBlock_eq E now depth s b id bvc ps with ⟨reorganise, hdepth⟩
  rw [hdepth] at h
  unfold fileAlternativeBlock
  rcases altBlock_cases E s b id bvc ps now with
    ⟨r, hout, -, heq⟩ | ⟨s₁, alt, timestamps, bei, -, -, hbuild, hbl, hcoins, hend⟩
  · rw [heq] at h
    rcases hout with hout | ⟨exit, hout⟩ <;> simp [hout, AltOutcome.accepted] at h
  · refine ⟨bei, ?_, hbl, by rw [hcoins, altPrevCoins, hbuild]⟩
    rcases hend with heq | ⟨discard, heq⟩
    · rw [heq]
      exact AList.lookup_insert _
    · rw [(heq _).1]
      exact AList.lookup_insert _

theorem handleBlockToMainChain_coins (h : (s.handleBlockToMainChain E b id {} ps now).exit = none) :
    ∃ record, (s.handleBlockToMainChain E b id {} ps now).chain.db.blocks =
      s.db.blocks ++ [record] ∧
      record.block = b ∧ record.coins = addCoins s.alreadyGeneratedCoins
        (b.minerTx.outsMoneyAmount - feeWord (s.collected E b ps).txs) := by
  obtain ⟨-, ⟨a⟩, -⟩ := handleBlockToMainChain_accepted h
  have hcoins := s.getDifficultyForNextBlock_coins
  have hw : s.collected E b ps = a.w := by simp only [collected, a.loop]
  refine ⟨a.stored, by rw [a.tables.1, getDifficultyForNextBlock_db], rfl, ?_⟩
  have hstored : a.stored.coins = addCoins s.alreadyGeneratedCoins a.baseReward := by
    rw [← hcoins, Accepted.stored, storedBlock]
  obtain ⟨-, -, -, hreward⟩ := validateMinerTransaction_some a.reward
  rw [hstored, hreward, txLoop_fees rfl a.loop, hw]

end

theorem addCoins_sub_iff (coins outs fees : UInt64) :
    addCoins coins outs = addCoins coins (outs - fees) ↔
      fees = 0 ∨ moneySupply.toNat ≤ coins.toNat + outs.toNat ∧
        moneySupply.toNat ≤ coins.toNat + (outs - fees).toNat := by
  have hzero : fees = 0 ↔ outs.toNat = (outs - fees).toNat := by
    have houts := outs.toNat_lt
    have hfees := fees.toNat_lt
    rw [← UInt64.toNat_inj, UInt64.toNat_sub, UInt64.toNat_zero]
    omega
  rw [← UInt64.toNat_inj, addCoins_toNat, addCoins_toNat, hzero]
  omega

/-- An alternative block that is accepted has the coins that the main chain would record for it on
    top of the same coins exactly when it pays no fees, or when all is past the money supply. -/
theorem altCoins_eq_mainCoins_iff (E : Externals) (now : UInt64) (depth : Nat) (s : Blockchain)
    (b : Block) (id : Hash) (bvc : Bvc) (ps : PoolSupplement)
    (haccepted : (handleAlternativeBlock E now depth s b id bvc ps).outcome.accepted = true)
    (m : Blockchain) (id' : Hash) (ps' : PoolSupplement) (now' : UInt64)
    (hmain : (m.handleBlockToMainChain E b id' {} ps' now').exit = none)
    (hprev : m.alreadyGeneratedCoins = s.altPrevCoins b) :
    ∃ bei record, (s.fileAlternativeBlock E b id bvc ps now).db.altBlocks.lookup id = some bei ∧
      bei.bl = b ∧ record.block = b ∧
      (m.handleBlockToMainChain E b id' {} ps' now').chain.db.blocks = m.db.blocks ++ [record] ∧
      (bei.alreadyGeneratedCoins = record.coins ↔ feeWord (m.collected E b ps').txs = 0 ∨
          moneySupply.toNat ≤ (s.altPrevCoins b).toNat + b.minerTx.outsMoneyAmount.toNat ∧
          moneySupply.toNat ≤ (s.altPrevCoins b).toNat +
            (b.minerTx.outsMoneyAmount - feeWord (m.collected E b ps').txs).toNat) := by
  rcases handleAlternativeBlock_coins haccepted with ⟨bei, hlookup, hbl, hcoins⟩
  rcases handleBlockToMainChain_coins hmain with ⟨record, hblocks, hblock, hrecord⟩
  refine ⟨bei, record, hlookup, hbl, hblock, hblocks, ?_⟩
  rw [hcoins, hrecord, hprev]
  exact addCoins_sub_iff _ _ _

/-! ## A side chain -/

section

variable {E : Externals} {s m : Blockchain} {b : Block}

theorem altPrevCoins_of_lookup {bei : BlockExtendedInfo}
    (hlookup : s.db.altBlocks.lookup b.prevId = some bei)
    (hbuild : (s.buildAltChain b.prevId).isSome) :
    s.altPrevCoins b = bei.alreadyGeneratedCoins := by
  obtain ⟨⟨alt, timestamps⟩, hbuild⟩ := Option.isSome_iff_exists.mp hbuild
  have hpos := List.length_pos_of_mem (AList.mem_lookup_iff.mp hlookup)
  obtain ⟨n, hn⟩ := Nat.exists_eq_add_one_of_ne_zero hpos.ne'
  have hlast : alt.getLast? = some bei := by
    rw [(buildAltChain_some hbuild).1, hn, altWalk, hlookup]
    exact altWalk_getLast? s.db n bei.bl.prevId bei []
  simp only [altPrevCoins, hbuild, altParent, hlast]

/-- A side chain without fees that one node files and another connects, up to the parent of a
    block. -/
inductive Beside (E : Externals) : Blockchain → Blockchain → Block → Prop
  | fork (s m : Blockchain) (b : Block) :
      m.alreadyGeneratedCoins = s.altPrevCoins b → Beside E s m b
  | next (s m : Blockchain) (b b' : Block) (id : Hash) (bvc : Bvc) (ps ps' : PoolSupplement)
      (now now' : UInt64) (depth : Nat) : Beside E s m b →
      (handleAlternativeBlock E now depth s b id bvc ps).outcome.accepted = true →
      (m.handleBlockToMainChain E b id {} ps' now').exit = none →
      feeWord (m.collected E b ps').txs = 0 → b'.prevId = id →
      ((s.fileAlternativeBlock E b id bvc ps now).buildAltChain id).isSome →
      Beside E (s.fileAlternativeBlock E b id bvc ps now)
        (m.handleBlockToMainChain E b id {} ps' now').chain b'

/-- The two nodes agree on the coins below the next block, so no excess is carried on. -/
theorem Beside.coins_eq (h : Beside E s m b) : m.alreadyGeneratedCoins = s.altPrevCoins b := by
  induction h with
  | fork s m b hcoins => exact hcoins
  | next s m b b' id bvc ps ps' now now' depth _ haccepted hmain hfees hid hbuild ih =>
    subst hid
    rcases handleAlternativeBlock_coins haccepted with ⟨bei, hlookup, -, hcoins⟩
    rcases handleBlockToMainChain_coins hmain with ⟨record, hblocks, -, hrecord⟩
    rw [altPrevCoins_of_lookup hlookup hbuild, hcoins, ← ih, alreadyGeneratedCoins, hblocks,
      List.getLast?_concat, Option.map_some, Option.getD_some, hrecord, hfees, UInt64.sub_zero]

end

/-! ## A block with a fee -/

/-- A block on top of the first one that pays 1000 to its miner, with some transactions. -/
def payingBlock (txHashes : List Hash) : Block :=
  { forkBlock 2 1 1 100 with
    minerTx := { vin := [.gen 1], unlockTime := 61, vout := [⟨1000, .toKey 7⟩], extra := [2] }
    txHashes }

/-- The node with its first block, and with a second one. -/
def firstNode (n : Nat) : Blockchain :=
  (connectAll .sample 2000 (start .empty (HardFork.mainnet.init .empty))
    ([forkBlock 0 0 0 100, forkBlock 1 1 1 100].take n)).2

theorem altCoins_eq_mainCoins_iff_paying : ∃ bei record,
      ((firstNode 2).fileAlternativeBlock .sample
        (payingBlock []) 3 {} {} 2000).db.altBlocks.lookup 3 =
        some bei ∧
      ((firstNode 1).handleBlockToMainChain .sample (payingBlock []) 3 {} {} 2000).chain.db.blocks =
        (firstNode 1).db.blocks ++ [record] ∧ bei.alreadyGeneratedCoins = record.coins := by
  rcases altCoins_eq_mainCoins_iff .sample 2000 0 (firstNode 2) (payingBlock []) 3 {} {}
    (by decide +kernel) (firstNode 1) 3 {} 2000 (by decide +kernel) (by decide +kernel)
    with ⟨bei, record, hlookup, -, -, hblocks, hiff⟩
  exact ⟨bei, record, hlookup, hblocks, hiff.mpr (.inl (by decide +kernel))⟩

/-- With a transaction that pays a fee of 5, the block is stored as an alternative one with 1000 new
    coins, and the main chain records 995 for it. -/
theorem altCoins_count_fees :
    let r := handleAlternativeBlock .sample 2000 0 (firstNode 2) (payingBlock [263]) 3 {} {}
    let t := (firstNode 1).handleBlockToMainChain .sample
      (payingBlock [263]) 3 {} feeSupplement 2000
    r.outcome = .stored ∧
      (r.chain.db.altBlocks.lookup 3).map BlockExtendedInfo.alreadyGeneratedCoins = some 1000 ∧
      t.exit = none ∧ t.chain.db.blocks.getLast?.map StoredBlock.coins = some 995 := by
  decide +kernel

end Blockchain

end CocaineNode
