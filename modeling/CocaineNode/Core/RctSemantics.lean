import CocaineNode.Core.RctTypes

/-!
# Which Semantics Check a RingCT Signature Gets

`ver_mixed_rct_semantics` of `cryptonote_core/tx_verification_utils.cpp`. Some
types are checked on the spot. The others are gathered at the front of the
vector that is being read, and checked together at the end.

The checks themselves (`ringct/rctSigs.cpp`) are parameters.

## Main definitions

* `RctVerifiers.verMixedRctSemantics`: The function.
* `RctVerifiers.PassesSemantics`: What it is for, one signature at a time.
-/

namespace CocaineNode

open List

/-- The layout both kinds of proof must have, by the commitments of each proof. -/
def isCanonicalLayout (maxOutputs : Nat) : List (List Key) → Bool
  | [V] => !(V.length == 0 || V.length > maxOutputs)
  | _ => false

/-- `is_canonical_bulletproof_layout`. -/
def isCanonicalBulletproofLayout (proofs : List Bulletproof) : Bool :=
  isCanonicalLayout bulletproofMaxOutputs (proofs.map (·.V))

/-- `is_canonical_bulletproof_plus_layout`. -/
def isCanonicalBulletproofPlusLayout (proofs : List BulletproofPlus) : Bool :=
  isCanonicalLayout bulletproofPlusMaxOutputs (proofs.map (·.V))

/-- The verifiers that are called. -/
structure RctVerifiers where
  /-- `verRctSemanticsSimple` of a vector; one signature is a vector of size one. -/
  verRctSemanticsSimple : List RctSig → Bool
  /-- `verRct` with `semantics` set. -/
  verRct : RctSig → Bool

namespace RctVerifiers

variable (R : RctVerifiers)

/-- The switch over the type: `none` rejects, otherwise the flag `is_batchable_rv`. -/
def checkType (rv : RctSig) : Option Bool :=
  if rv.type = rctTypeNull then none
  else if rv.type = rctTypeSimple then
    if R.verRctSemanticsSimple [rv] then some false else none
  else if rv.type = rctTypeFull then
    if R.verRct rv then some false else none
  else if rv.type = rctTypeBulletproof ∨ rv.type = rctTypeBulletproof2 ∨ rv.type = rctTypeCLSAG then
    if isCanonicalBulletproofLayout rv.p.bulletproofs then some true else none
  else if rv.type = rctTypeBulletproofPlus then
    if isCanonicalBulletproofPlusLayout rv.p.bulletproofsPlus then some true else none
  else none

/-- The loop, from position `i` on. The first `batchRvSize` entries are those kept for the batch. -/
def mixedLoop (rvv : List RctSig) (i batchRvSize : Nat) : Option (List RctSig × Nat) :=
  if h : i < rvv.length then
    match R.checkType rvv[i] with
    | none => none
    | some false => mixedLoop rvv (i + 1) batchRvSize
    | some true => mixedLoop (rvv.set batchRvSize rvv[i]) (i + 1) (batchRvSize + 1)
  else some (rvv, batchRvSize)
termination_by rvv.length - i
decreasing_by all_goals grind

/-- `ver_mixed_rct_semantics`. -/
def verMixedRctSemantics (rvv : List RctSig) : Bool :=
  match R.mixedLoop rvv 0 0 with
  | none => false
  | some (rvv, batchRvSize) =>
    if batchRvSize ≠ 0 then R.verRctSemanticsSimple (rvv.take batchRvSize) else true

/-- The semantics check of one signature by itself. Null and unknown types have none to pass. -/
def PassesSemantics (rv : RctSig) : Prop :=
  rv.type = rctTypeSimple ∧ R.verRctSemanticsSimple [rv] ∨
  rv.type = rctTypeFull ∧ R.verRct rv ∨
  (rv.type = rctTypeBulletproof ∨ rv.type = rctTypeBulletproof2 ∨ rv.type = rctTypeCLSAG) ∧
    isCanonicalBulletproofLayout rv.p.bulletproofs ∧ R.verRctSemanticsSimple [rv] ∨
  rv.type = rctTypeBulletproofPlus ∧
    isCanonicalBulletproofPlusLayout rv.p.bulletproofsPlus ∧ R.verRctSemanticsSimple [rv]

instance instDecidablePassesSemantics (rv : RctSig) : Decidable (R.PassesSemantics rv) :=
  inferInstanceAs (Decidable (_ ∨ _ ∨ _ ∨ _))

end RctVerifiers

end CocaineNode
