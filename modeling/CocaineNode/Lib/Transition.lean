import Mathlib.Logic.Relation

/-!
# Invariants of Transition Systems

A step relation on a type of states, and the rule that a property which every
step keeps holds after every run.

## Theorems

* `Transition.Preserves.run`: A preserved property holds after every run.
-/

namespace Transition

variable {σ : Type*} {step : σ → σ → Prop} {I J : σ → Prop}

/-- Any number of steps. -/
abbrev Run (step : σ → σ → Prop) : σ → σ → Prop :=
  Relation.ReflTransGen step

/-- Every step keeps the property. -/
def Preserves (step : σ → σ → Prop) (I : σ → Prop) : Prop :=
  ∀ ⦃s t : σ⦄, I s → step s t → I t

/-- A preserved property holds after every run that starts with it. -/
theorem Preserves.run (hI : Preserves step I) {s t : σ} (hr : Run step s t) (hs : I s) : I t := by
  induction hr with
  | refl => exact hs
  | tail _ hstep ih => exact hI ih hstep

end Transition
