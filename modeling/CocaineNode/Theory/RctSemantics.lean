import CocaineNode.Core.RctSemantics

/-!
# Mixed Signatures Are Checked One by One

The vector is overwritten while it is read, so the argument is about what the
loop has not spoiled: in front the signatures kept for the batch, then entries
that no longer matter, then those still to be read, untouched. An entry moves to
the front before the place it came from can be needed again, since no more are
kept than have been read.

## Theorems

* `RctVerifiers.mixedLoop_split`: What the loop returns.
* `RctVerifiers.verMixedRctSemantics_iff`: Accepting is accepting every signature.
-/

namespace CocaineNode

namespace RctVerifiers

open List

variable {R : RctVerifiers}

theorem passesSemantics_iff (rv : RctSig) : R.PassesSemantics rv ↔ (R.checkType rv).isSome = true ∧
      (R.checkType rv = some true → R.verRctSemanticsSimple [rv] = true) := by
  unfold PassesSemantics checkType
  split_ifs with hnull hsimple hsem hfull hver hbp hlayout hplus hlayout
  all_goals grind [rctTypeNull, rctTypeSimple, rctTypeFull, rctTypeBulletproof,
    rctTypeBulletproof2, rctTypeCLSAG, rctTypeBulletproofPlus]

/-- The loop over `rest`, behind the signatures `kept` so far and a `gap` of entries already
    read. -/
theorem mixedLoop_split (kept gap rest : List RctSig) : (∃ rv ∈ rest, R.checkType rv = none) ∧
        R.mixedLoop (kept ++ (gap ++ rest)) (kept.length + gap.length) kept.length = none ∨
      (∀ rv ∈ rest, (R.checkType rv).isSome = true) ∧ ∃ left,
        let batch := kept ++ rest.filter fun rv => R.checkType rv = some true
        R.mixedLoop (kept ++ (gap ++ rest)) (kept.length + gap.length) kept.length =
          some (batch ++ left, batch.length) := by
  induction rest generalizing kept gap with
  | nil =>
    refine .inr ⟨by simp, gap, ?_⟩
    rw [mixedLoop, dif_neg (by simp)]
    simp
  | cons rv rest ih =>
    have hlt : kept.length + gap.length < (kept ++ (gap ++ rv :: rest)).length := by
      simp only [length_append, length_cons]
      omega
    have hget : (kept ++ (gap ++ rv :: rest))[kept.length + gap.length] = rv := by simp
    rw [mixedLoop, dif_pos hlt, hget]
    cases hcheck : R.checkType rv with
    | none => exact .inl ⟨⟨rv, mem_cons_self, hcheck⟩, rfl⟩
    | some batchable =>
      cases batchable with
      | false =>
        -- The signature was checked on the spot, and joins the gap.
        simpa [hcheck, add_assoc] using ih kept (gap ++ [rv])
      | true =>
        have hset : (kept ++ (gap ++ rv :: rest)).set kept.length rv =
            kept ++ [rv] ++ ((gap ++ [rv]).tail ++ rest) := by
          cases gap <;> simp
        have hnext := ih (kept ++ [rv]) (gap ++ [rv]).tail
        rw [← hset] at hnext
        simpa [hcheck, add_assoc, add_comm 1] using hnext

/-- If verifying a group is verifying each of its members, then a list is accepted exactly when
    every signature in it passes the check for its type. -/
theorem verMixedRctSemantics_iff (hbatch : ∀ group ≠ [], R.verRctSemanticsSimple group =
      group.all fun rv => R.verRctSemanticsSimple [rv]) (rvv : List RctSig) :
    R.verMixedRctSemantics rvv = true ↔ ∀ rv ∈ rvv, R.PassesSemantics rv := by
  simp only [passesSemantics_iff, verMixedRctSemantics]
  rcases mixedLoop_split (R := R) [] [] rvv with ⟨⟨rv, hrv, hnone⟩, hloop⟩ | ⟨hsome, left, hloop⟩
  · simp only [nil_append, length_nil, add_zero] at hloop
    rw [hloop]
    refine iff_of_false (by simp) fun hall => ?_
    simpa [hnone] using (hall rv hrv).1
  · simp only [nil_append, length_nil, add_zero] at hloop
    rw [hloop]
    generalize hkept : (rvv.filter fun rv => R.checkType rv = some true) = batch
    have hmem : ∀ rv, rv ∈ batch ↔ rv ∈ rvv ∧ R.checkType rv = some true := by
      simp [← hkept]
    have hgroup : (if batch.length ≠ 0 then
        R.verRctSemanticsSimple ((batch ++ left).take batch.length) else true) = true ↔
        ∀ rv ∈ batch, R.verRctSemanticsSimple [rv] = true := by
      rw [take_left]
      by_cases hnil : batch = []
      · simp [hnil]
      · rw [if_pos (by simpa using hnil), hbatch batch hnil, all_eq_true]
    refine hgroup.trans ⟨fun h rv hrv => ⟨hsome rv hrv, fun hkeep => ?_⟩, fun h rv hrv => ?_⟩
    · exact h rv ((hmem rv).mpr ⟨hrv, hkeep⟩)
    · exact (h rv ((hmem rv).mp hrv).1).2 ((hmem rv).mp hrv).2

/-- With verifiers that ask for a fee, a signature of full type is accepted between two that are
    verified as a group, and one without a fee spoils the group. -/
theorem verMixedRctSemantics_iff_sample :
    let R : RctVerifiers := ⟨fun group => group.all (·.txnFee != 0), (·.txnFee != 0)⟩
    let proof : Bulletproof := ⟨[0], 0, 0, 0, 0, 0, 0, [], [], 0, 0, 0⟩
    let batched (txnFee : UInt64) : RctSig :=
      { type := rctTypeCLSAG, txnFee, p := { bulletproofs := [proof] } }
    let full : RctSig := { type := rctTypeFull, txnFee := 5 }
    R.verMixedRctSemantics [batched 5, full, batched 6] = true ∧
      R.verMixedRctSemantics [batched 5, full, batched 0] = false := by
  intro R proof batched full
  have hiff := verMixedRctSemantics_iff (R := R) fun group _ => by simp [R]
  refine ⟨(hiff _).mpr (by decide), Bool.eq_false_iff.mpr fun h => ?_⟩
  exact absurd ((hiff _).mp h) (by decide)

end RctVerifiers

end CocaineNode
