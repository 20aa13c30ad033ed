import Mathlib.Data.List.Basic

/-!
# Procedures That Throw

A procedure works on a state and returns a value or throws. The state at a
throw is kept, so that what a failed run did can be asked about as well.

`Ends p s Q E` says where a run of `p` from `s` leaves: in `Q` when it returns
and in `E` when it throws. The rules follow the structure of a procedure, so a
fact about a whole procedure is put together from one fact about each of its
parts.

## Theorems

* `Except.bind_eq_ok_iff`, `Throwing.bind_eq_ok`: A sequence returns when both parts do.
* `Throwing.Ends.bind`, `Throwing.Ends.then`: One part after the other.
-/

namespace Except

variable {ε α β : Type} {x : Except ε α} {b : β}

/-! ## Without a state -/

theorem bind_eq_ok_iff {f : α → Except ε β} : (x >>= f) = .ok b ↔ ∃ a, x = .ok a ∧ f a = .ok b := by
  cases x with
  | ok a =>
    constructor
    · intro h
      exact ⟨a, rfl, h⟩
    · rintro ⟨_, ⟨⟩, h⟩
      exact h
  | error e =>
    constructor
    · intro h
      cases h
    · rintro ⟨_, ⟨⟩, -⟩

/-- Past a check that throws. -/
theorem guard_eq_ok_iff {p : Prop} [Decidable p] {e : ε} {f : α → Except ε β}
    {y : Except ε β} : (if p then throw e >>= f else y) = .ok b ↔ ¬ p ∧ y = .ok b := by
  split_ifs with h
  · exact ⟨nofun, fun hy => absurd h hy.1⟩
  · exact ⟨fun hy => ⟨h, hy⟩, And.right⟩

end Except

namespace Throwing

variable {ε σ α β : Type}

/-! ## Sequences -/

theorem bind_eq_ok (p : EStateM ε σ α) (f : α → EStateM ε σ β) (s u : σ) (b : β) :
    (p >>= f) s = .ok b u ↔ ∃ a t, p s = .ok a t ∧ f a t = .ok b u := by
  change EStateM.bind p f s = _ ↔ _
  rw [EStateM.bind]
  cases p s with
  | ok a t | error e t => simp

theorem bind_of_ok {p : EStateM ε σ α} {s t : σ} {a : α} (h : p s = .ok a t)
    (f : α → EStateM ε σ β) : (p >>= f) s = f a t := by
  change EStateM.bind p f s = _
  rw [EStateM.bind, h]

/-! ## Where a run leaves -/

/-- From `s` the procedure returns in `Q` or throws in `E`. -/
def Ends (p : EStateM ε σ α) (s : σ) (Q : α → σ → Prop) (E : ε → σ → Prop) : Prop :=
  match p s with
  | .ok a t => Q a t
  | .error e t => E e t

variable {p : EStateM ε σ α} {s : σ} {Q Q' : α → σ → Prop} {E E' : ε → σ → Prop}

theorem Ends.ok (h : Ends p s Q E) {a : α} {t : σ} (hp : p s = .ok a t) : Q a t := by
  rw [Ends, hp] at h
  exact h

theorem Ends.error (h : Ends p s Q E) {e : ε} {t : σ} (hp : p s = .error e t) : E e t := by
  rw [Ends, hp] at h
  exact h

theorem Ends.mono (h : Ends p s Q E) (hQ : ∀ a t, Q a t → Q' a t) (hE : ∀ e t, E e t → E' e t) :
    Ends p s Q' E' := by
  rw [Ends] at h ⊢
  cases hp : p s with
  | ok a t =>
    rw [hp] at h
    exact hQ a t h
  | error e t =>
    rw [hp] at h
    exact hE e t h

theorem Ends.pure {a : α} (h : Q a s) : Ends (pure a : EStateM ε σ α) s Q E :=
  h

theorem Ends.throw {e : ε} (h : E e s) : Ends (throw e : EStateM ε σ α) s Q E :=
  h

variable {R : β → σ → Prop} {f : α → EStateM ε σ β}

/-- One part after the other: the second starts where the first returns. -/
theorem Ends.bind (h : Ends p s (fun a t => Ends (f a) t R E) E) : Ends (p >>= f) s R E := by
  change (match EStateM.bind p f s with
    | .ok a t => R a t
    | .error e t => E e t)
  rw [EStateM.bind]
  rw [Ends] at h
  cases hp : p s with
  | ok a t | error e t =>
    rw [hp] at h
    exact h

/-- One part after the other, by what is known of the first. -/
theorem Ends.then (h : Ends p s Q E) (hf : ∀ a t, Q a t → Ends (f a) t R E) :
    Ends (p >>= f) s R E :=
  .bind (h.mono hf fun _ _ he => he)

theorem Ends.ite {c : Prop} [Decidable c] {q : EStateM ε σ α} (hc : c → Ends p s Q E)
    (hn : ¬ c → Ends q s Q E) : Ends (if c then p else q) s Q E := by
  split_ifs with h
  · exact hc h
  · exact hn h

/-- A part that only looks at the state. -/
theorem Ends.get {f : σ → EStateM ε σ β} (h : Ends (f s) s R E) :
    Ends (MonadState.get >>= f) s R E :=
  h

/-! ## Repetition -/

/-- The values of `n` runs, one after the other. -/
def times : Nat → EStateM ε σ α → EStateM ε σ (List α)
  | 0, _ => pure []
  | n + 1, p => do
      let a ← p
      let as ← times n p
      pure (a :: as)

end Throwing
