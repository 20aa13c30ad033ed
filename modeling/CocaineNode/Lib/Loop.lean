import Mathlib.Order.Basic

/-!
# Loops That Leave

A `while (1)` loop as a function of one turn: a turn either goes round again or
leaves with a result. The iteration is bounded by a count of turns, and
`run_isSome` says when a count is enough: some measure goes down on every turn
that goes round again.

Everything a loop guarantees is read off its last turn. `run_last` says that
the state this turn started from satisfies whatever every other turn keeps, so
a fact about a whole loop is one lemma about going round and one about leaving.

## Theorems

* `Loop.run_isSome`: A measure that goes down bounds the turns.
* `Loop.run_eq_some_iff`: Which turn a loop leaves from.
* `Loop.run_last`: A loop leaves from a state its turns keep.
-/

namespace Loop

variable {σ ε : Type*}

/-- How one turn ends. -/
inductive Turn (σ ε : Type*) where
  | again (s : σ)
  | leave (e : ε) (s : σ)

/-- At most so many turns; `none` when they are used up. -/
def run (turn : σ → Turn σ ε) : Nat → σ → Option (ε × σ)
  | 0, _ => none
  | n + 1, s =>
    match turn s with
    | .again t => run turn n t
    | .leave e t => some (e, t)

/-- A measure that goes down on every turn that goes round again bounds the turns. -/
theorem run_isSome (turn : σ → Turn σ ε) (μ : σ → Nat)
    (hμ : ∀ s t, turn s = .again t → μ t < μ s) (n : Nat) (s : σ) (hs : μ s < n) :
    (run turn n s).isSome := by
  induction n generalizing s with
  | zero => omega
  | succ n ih =>
    rw [run]
    cases hturn : turn s with
    | leave e t => rfl
    | again t =>
      have hdown : μ t < μ s := hμ s t hturn
      exact ih t (by omega)

/-- The states from which the turns of a loop start. -/
inductive Starts (turn : σ → Turn σ ε) : σ → σ → Prop
  | first (s : σ) : Starts turn s s
  | next {s t r : σ} : turn s = .again t → Starts turn t r → Starts turn s r

theorem Starts.keeps {turn : σ → Turn σ ε} {I : σ → Prop}
    (hI : ∀ s t, I s → turn s = .again t → I t) {s r : σ} (h : Starts turn s r)
    (hs : I s) : I r := by
  induction h with
  | first s => exact hs
  | next hturn _ ih => exact ih (hI _ _ hs hturn)

/-- A turn has one outcome, so a loop that ends does so at the first turn that leaves. -/
theorem run_eq_some_iff (turn : σ → Turn σ ε) (n : Nat) (s t : σ) (e : ε)
    (hends : (run turn n s).isSome) :
    run turn n s = some (e, t) ↔ ∃ r, Starts turn s r ∧ turn r = .leave e t := by
  induction n generalizing s with
  | zero => cases hends
  | succ n ih =>
    rw [run] at hends ⊢
    cases hturn : turn s with
    | again r =>
      rw [hturn] at hends
      refine (ih r hends).trans ⟨fun ⟨q, hq, hleave⟩ => ⟨q, .next hturn hq, hleave⟩, ?_⟩
      rintro ⟨q, hq, hleave⟩
      cases hq with
      | first => rw [hturn] at hleave; cases hleave
      | next hagain hq =>
        rw [hturn] at hagain
        cases hagain
        exact ⟨q, hq, hleave⟩
    | leave e' r =>
      refine ⟨fun h => ⟨s, .first s, by cases h; exact hturn⟩, ?_⟩
      rintro ⟨q, hq, hleave⟩
      cases hq with
      | first => rw [hturn] at hleave; cases hleave; rfl
      | next hagain _ => rw [hturn] at hagain; cases hagain

/-- A loop leaves from a state that satisfies whatever its other turns keep. -/
theorem run_last (turn : σ → Turn σ ε) (I : σ → Prop)
    (hI : ∀ s t, I s → turn s = .again t → I t) (n : Nat) (s t : σ) (e : ε) (hs : I s)
    (h : run turn n s = some (e, t)) : ∃ r, I r ∧ turn r = .leave e t := by
  rcases (run_eq_some_iff turn n s t e (by rw [h]; rfl)).mp h with ⟨r, hstarts, hleave⟩
  exact ⟨r, hstarts.keeps hI hs, hleave⟩

end Loop
