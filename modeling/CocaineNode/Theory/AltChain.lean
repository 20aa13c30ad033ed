import CocaineNode.Core.AltChain

/-!
# Chains That Leave the Main Chain

What `build_alt_chain` hands to the rest of `handle_alternative_block`: a list
of stored blocks that hangs off the main chain at some height. `Attached` says
so, and everything that is later asked of a side chain (which block sits at a
height, which blocks fall in a window) is answered from it.

The store is filled by `handle_alternative_block` only, which files a block
under its hash and one above its parent. `StoreOk` is that fact, and
`buildAltChain_attached` is the reason a walk through such a store yields an
attached chain.

## Theorems

* `Blockchain.buildAltChain_attached`: What `build_alt_chain` returns.
* `Blockchain.altParent_height`: The height of the next block.
-/

namespace CocaineNode

open List

namespace Blockchain

/-- Entries of the alternative store are filed under their hash, and one above their parent
    when that is in the store too. -/
structure StoreOk (E : Externals) (db : BlockchainDB) : Prop where
  key : ∀ id bei, db.altBlocks.lookup id = some bei → E.blockHash bei.bl = id
  height : ∀ id bei parent, db.altBlocks.lookup id = some bei →
    db.altBlocks.lookup bei.bl.prevId = some parent → bei.height = parent.height + 1

/-- `b` is the next block above `a` on a side chain. -/
def Above (E : Externals) (a b : BlockExtendedInfo) : Prop :=
  b.bl.prevId = E.blockHash a.bl ∧ b.height = a.height + 1

instance (E : Externals) (a b : BlockExtendedInfo) : Decidable (Above E a b) :=
  inferInstanceAs (Decidable (b.bl.prevId = E.blockHash a.bl ∧ b.height = a.height + 1))

/-- A side chain whose first block would be the main chain's block at `split`. -/
structure Attached (E : Externals) (s : Blockchain) (alt : List BlockExtendedInfo)
    (split : Nat) : Prop where
  pos : 0 < split
  le : split ≤ s.height
  linked : alt.IsChain (Above E)
  front : ∀ f ∈ alt.head?, f.height = split ∧ s.db.ids[split - 1]? = some f.bl.prevId

/-- The ids of the blocks below the next one on a side chain, by height. -/
def ancestors (E : Externals) (s : Blockchain) (alt : List BlockExtendedInfo) (split : Nat) :
    List Hash :=
  s.db.ids.take split ++ alt.map fun bei => E.blockHash bei.bl

/-- Where the side chain under a block with parent `prevId` leaves the main chain. -/
def splitHeight (s : Blockchain) (alt : List BlockExtendedInfo) (prevId : Hash) : Nat :=
  match alt with
  | front :: _ => front.height
  | [] => (s.db.blockHeight? prevId).getD 0 + 1

namespace Attached

variable {E : Externals} {s : Blockchain} {alt : List BlockExtendedInfo} {split : Nat}

theorem ids_length (s : Blockchain) : s.db.ids.length = s.height :=
  length_map _

variable (h : Attached E s alt split)
include h

theorem length_ancestors : (ancestors E s alt split).length = split + alt.length := by
  rw [ancestors, length_append, length_take, ids_length, length_map, Nat.min_eq_left h.le]

theorem getElem?_ancestors_main {k : Nat} (hk : k < split) :
    (ancestors E s alt split)[k]? = s.db.ids[k]? := by
  have hlen : k < (s.db.ids.take split).length := by
    rw [length_take, ids_length, Nat.min_eq_left h.le]
    exact hk
  rw [ancestors, getElem?_append_left hlen, getElem?_take, if_pos hk]

theorem getElem?_ancestors_alt (i : Nat) :
    (ancestors E s alt split)[split + i]? = (alt[i]?).map fun bei => E.blockHash bei.bl := by
  have hlen : (s.db.ids.take split).length = split := by
    rw [length_take, ids_length, Nat.min_eq_left h.le]
  rw [ancestors, getElem?_append_right (by omega), hlen, Nat.add_sub_cancel_left, getElem?_map]

/-- Heights go up by one along a side chain. -/
theorem height_getElem (i : Nat) (hi : i < alt.length) : alt[i].height = split + i := by
  induction i with
  | zero =>
    refine (h.front alt[0] ?_).1
    rw [head?_eq_getElem?]
    exact getElem?_eq_getElem hi
  | succ i ih =>
    have hstep := (isChain_iff_getElem.mp h.linked i hi).2
    rw [hstep, ih (by omega)]
    omega

/-- The parent of an entry is the block one below it, on the side chain or on the main one. -/
theorem ancestors_prevId (i : Nat) (hi : i < alt.length) :
    (ancestors E s alt split)[split + i - 1]? = some alt[i].bl.prevId := by
  have hpos := h.pos
  rcases i with _ | i
  · rw [h.getElem?_ancestors_main (by omega)]
    refine (h.front alt[0] ?_).2
    rw [head?_eq_getElem?]
    exact getElem?_eq_getElem hi
  · have hindex : split + (i + 1) - 1 = split + i := by omega
    rw [hindex, h.getElem?_ancestors_alt, getElem?_eq_getElem (by omega),
      (isChain_iff_getElem.mp h.linked i hi).1]
    rfl

end Attached

/-! ## The walk through the store -/

/-- The walk only puts entries in front of what it has, each the parent of the next. -/
theorem altWalk_linked {E : Externals} {db : BlockchainDB} (hok : StoreOk E db) (n : Nat)
    (id : Hash) (acc : List BlockExtendedInfo) (hacc : acc.IsChain (Above E))
    (hhead : ∀ f ∈ acc.head?, f.bl.prevId = id ∧ ∃ k, db.altBlocks.lookup k = some f) :
    (altWalk db n id acc).IsChain (Above E) := by
  induction n generalizing id acc with
  | zero => exact hacc
  | succ n ih =>
    unfold altWalk
    split
    · exact hacc
    · rename_i bei hbei
      refine ih _ _ ?_ ?_
      · -- The old front names `id`, under which `bei` is filed, as its parent.
        rw [isChain_cons]
        refine ⟨fun f hf => ?_, hacc⟩
        obtain ⟨hprev, k, hk⟩ := hhead f hf
        refine ⟨hprev.trans (hok.key id bei hbei).symm, ?_⟩
        exact hok.height k f bei hk (hprev ▸ hbei)
      · intro f hf
        rw [head?_cons, Option.mem_some_iff] at hf
        subst hf
        exact ⟨rfl, id, hbei⟩

/-- The walk keeps the end of what it has. -/
theorem altWalk_getLast? (db : BlockchainDB) (n : Nat) (id : Hash) (bei : BlockExtendedInfo)
    (acc : List BlockExtendedInfo) :
    (altWalk db n id (bei :: acc)).getLast? = (bei :: acc).getLast? := by
  induction n generalizing id bei acc with
  | zero => rfl
  | succ n ih =>
    unfold altWalk
    split
    · rfl
    · rw [ih, getLast?_cons_cons]

theorem blockHeight?_lt {db : BlockchainDB} {id : Hash} {k : Nat}
    (h : db.blockHeight? id = some k) : k < db.height := by
  have hlt := (findIdx?_eq_some_iff_findIdx_eq.mp h).1
  rwa [BlockchainDB.ids, length_map] at hlt

theorem ids_inj (db : BlockchainDB) {i j : Nat} {id : Hash} (hi : db.ids[i]? = some id)
    (hj : db.ids[j]? = some id) : i = j :=
  (List.getElem?_inj (List.getElem?_eq_some_iff.mp hi).1 db.ids_nodup).mp (hi.trans hj.symm)

theorem blockHeight?_eq_some (db : BlockchainDB) {h : Nat} {id : Hash}
    (hid : db.ids[h]? = some id) : db.blockHeight? id = some h := by
  rcases List.getElem?_eq_some_iff.mp hid with ⟨hlt, hget⟩
  refine findIdx?_eq_some_iff_getElem.mpr ⟨hlt, decide_eq_true hget, ?_⟩
  intro j hj heq
  have hsame := ids_inj db (List.getElem?_eq_some_iff.mpr ⟨hj.trans hlt, of_decide_eq_true heq⟩) hid
  omega

section

variable {E : Externals} {s : Blockchain} {prevId : Hash} {alt : List BlockExtendedInfo}
  {timestamps : List UInt64}

/-- What `build_alt_chain` returns: the blocks of the walk, the last of them above a block of the
    main chain, and the timestamps completed from there. -/
theorem buildAltChain_some (h : s.buildAltChain prevId = some (alt, timestamps)) :
    alt = altWalk s.db s.db.altBlocks.entries.length prevId [] ∧
      0 < s.splitHeight alt prevId ∧ s.splitHeight alt prevId ≤ s.height ∧
      (∀ f ∈ alt.head?, f.height = s.splitHeight alt prevId ∧
        s.db.ids[s.splitHeight alt prevId - 1]? = some f.bl.prevId) ∧
      timestamps = s.completeTimestampsVector (s.splitHeight alt prevId - 1)
        (alt.map fun bei => bei.bl.timestamp).reverse := by
  simp only [buildAltChain] at h
  generalize altWalk _ _ _ _ = walk at h ⊢
  cases walk with
  | nil =>
    cases hk : s.db.blockHeight? prevId with
    | none =>
      rw [hk] at h
      cases h
    | some k =>
      rw [hk] at h
      cases h
      rw [splitHeight, hk]
      exact ⟨rfl, Nat.succ_pos k, blockHeight?_lt hk, by simp, rfl⟩
  | cons front rest =>
    dsimp only at h
    split_ifs at h with hheight hfront
    rw [not_or, not_not] at hfront
    cases h
    refine ⟨rfl, Nat.pos_of_ne_zero hfront.1, (Nat.not_le.mp hheight).le, ?_, ?_⟩
    · rintro f ⟨⟩
      exact ⟨rfl, hfront.2⟩
    · rw [blockHeight?_eq_some s.db hfront.2]
      rfl

/-- `build_alt_chain` returns an attached chain. -/
theorem buildAltChain_attached (hok : StoreOk E s.db)
    (h : s.buildAltChain prevId = some (alt, timestamps)) :
    Attached E s alt (s.splitHeight alt prevId) := by
  obtain ⟨hwalk, hpos, hle, hfront, -⟩ := buildAltChain_some h
  refine ⟨hpos, hle, ?_, hfront⟩
  rw [hwalk]
  exact altWalk_linked hok _ prevId [] isChain_nil (by simp)

end

variable {E : Externals} {s : Blockchain}

/-- The next block of an attached chain sits right above it. -/
theorem altParent_height {alt : List BlockExtendedInfo} {prevId : Hash}
    (h : Attached E s alt (s.splitHeight alt prevId)) :
    (s.altParent alt prevId).1 + 1 = s.splitHeight alt prevId + alt.length := by
  cases hlast : alt.getLast? with
  | none =>
    rw [getLast?_eq_none_iff] at hlast
    subst hlast
    rfl
  | some last =>
    have hget := hlast
    rw [getLast?_eq_getElem?] at hget
    obtain ⟨hlt, heq⟩ := List.getElem?_eq_some_iff.mp hget
    have hheight := h.height_getElem (alt.length - 1) hlt
    rw [heq] at hheight
    simp only [altParent, hlast]
    omega

end Blockchain

end CocaineNode
