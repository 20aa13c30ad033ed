import CocaineNode.Lib.Transition
import Mathlib.Order.Lattice

/-!
# Logs of Changes

A set that changes, and a client that has a copy of it. Instead of the whole set
the client is told what was added and what was removed from some time on. The
set remembers when each member was added last, and a log of removals, of which
old parts may be dropped. Both are forgotten from time to time.

The times are read from a clock that does not go back but may stand still, so a
member can leave and come back at one and the same time. The client therefore
takes out what was removed before it puts in what was added. That this gives the
set as it is now rests on two facts. A member of which the log has a removal was
added again no earlier (`Dated`). And a member of the copy is still there, or
the log has its removal, or the log does not go back far enough (`Tracks`).

Some members are hidden. A member that can be seen is not hidden later, but it
may leave and come back hidden; one that was hidden is dated anew when it can be
seen.

## Theorems

* `ChangeLog.tracks_step`: Every change keeps track of a copy.
* `ChangeLog.visible_iff`: What was added and removed makes the copy the set as it is now.
-/

namespace ChangeLog

open Transition Function

/-- A removal in the log. -/
structure Removal (α τ : Type) where
  time : τ
  item : α
  hidden : Bool

/-- A set with its log. Additions are complete after `since`, removals after `horizon`. -/
structure Journal (α τ : Type) where
  /-- Whether something is a member, and if so whether it is hidden. -/
  members : α → Option Bool
  added : α → Option τ
  removed : List (Removal α τ)
  since : τ
  horizon : τ

variable {α τ : Type} [DecidableEq α] [LinearOrder τ]

/-- What can happen to a journal at a time. -/
inductive Change (now : τ) : Journal α τ → Journal α τ → Prop
  | enter (j : Journal α τ) (x : α) (hidden : Bool) : (j.members x = some false → hidden = false) →
      Change now j { j with
        members := update j.members x (some hidden)
        added := update j.added x (some now) }
  -- The removal is logged, and what the log drops is not after its new horizon.
  | leave (j : Journal α τ) (x : α) (hidden : Bool) (removed : List (Removal α τ)) (horizon : τ) :
      j.members x = some hidden →
      (∀ e ∈ removed, e = ⟨now, x, hidden⟩ ∨ e ∈ j.removed) →
      (∀ e, e = ⟨now, x, hidden⟩ ∨ e ∈ j.removed → e ∈ removed ∨ e.time ≤ horizon) →
      j.horizon ≤ horizon →
      Change now j { j with
        members := update j.members x none
        added := update j.added x none
        removed := removed
        horizon := horizon }
  | forget (j : Journal α τ) :
      Change now j { j with added := fun _ => none, removed := [], since := now }

/-- A change, after which the clock goes on. -/
inductive Step : τ × Journal α τ → τ × Journal α τ → Prop
  | change {now later : τ} {j j' : Journal α τ} : Change now j j' → now ≤ later →
      Step (now, j) (later, j')
  | wait {now later : τ} (j : Journal α τ) : now ≤ later → Step (now, j) (later, j)

theorem Step.le {s t : τ × Journal α τ} (h : Step s t) : s.1 ≤ t.1 := by
  cases h with
  | change _ hle | wait _ hle => exact hle

/-! ## Additions follow removals -/

/-- Removals are in the past, and a member that has one was added no earlier. -/
structure Dated (s : τ × Journal α τ) : Prop where
  past : ∀ e ∈ s.2.removed, e.time ≤ s.1
  later : ∀ e ∈ s.2.removed, (s.2.members e.item).isSome →
    ∃ time, s.2.added e.item = some time ∧ e.time ≤ time

/-- A change leaves the other members, and when they were added. -/
theorem dated_change {now : τ} {j j' : Journal α τ} (h : Dated (now, j))
    (hchange : Change now j j') :
    Dated (now, j') := by
  cases hchange with
  | enter x hidden hshown =>
    refine ⟨h.past, fun e he hin => ?_⟩
    change (update j.members x (some hidden) e.item).isSome at hin
    change ∃ time, update j.added x (some now) e.item = some time ∧ e.time ≤ time
    by_cases heq : e.item = x
    · rw [heq, update_self]
      exact ⟨now, rfl, h.past e he⟩
    · rw [update_of_ne heq] at hin ⊢
      exact h.later e he hin
  | leave x hidden removed horizon hmember hsub hkept hle =>
    refine ⟨fun e he => ?_, fun e he hin => ?_⟩
    · rcases hsub e he with rfl | hold
      · exact le_refl now
      · exact h.past e hold
    · change (update j.members x none e.item).isSome at hin
      change ∃ time, update j.added x none e.item = some time ∧ e.time ≤ time
      have hne : e.item ≠ x := by
        intro heq
        rw [heq, update_self] at hin
        cases hin
      rw [update_of_ne hne] at hin ⊢
      rcases hsub e he with rfl | hold
      · exact absurd rfl hne
      · exact h.later e hold hin
  | forget =>
    refine ⟨fun e he => ?_, fun e he => ?_⟩
    · cases he
    · cases he

/-- Removals are followed by later additions. -/
theorem dated_step : Preserves (Step (α := α) (τ := τ)) Dated := by
  intro s t h hstep
  have hwait : ∀ {now later : τ} {j : Journal α τ}, now ≤ later → Dated (now, j) →
      Dated (later, j) :=
    fun hle hdated => ⟨fun e he => (hdated.past e he).trans hle, hdated.later⟩
  cases hstep with
  | change hchange hle => exact hwait hle (dated_change h hchange)
  | wait j hle => exact hwait hle h

/-! ## Copies -/

/-- What a client sees: all members, or those that are not hidden. -/
def Visible (all : Bool) (j : Journal α τ) (x : α) : Prop :=
  ∃ hidden, j.members x = some hidden ∧ (all = true ∨ hidden = false)

/-- What a client is told has left since a time. -/
def Reported (all : Bool) (start : τ) (j : Journal α τ) (x : α) : Prop :=
  ∃ e ∈ j.removed, e.item = x ∧ start ≤ e.time ∧ (all = true ∨ e.hidden = false)

/-- A copy of a journal can still be brought up to date with what has changed since a time, or
    the journal does not go back that far. -/
structure Tracks (all : Bool) (start : τ) (copy : Journal α τ) (j : Journal α τ) : Prop where
  old : ∀ x, Visible all j x → (∀ time, j.added x = some time → time < start) →
    Visible all copy x ∧ ¬ Reported all start j x
  gone : ∀ x, Visible all copy x → Visible all j x ∨ Reported all start j x ∨ start ≤ j.horizon

omit [DecidableEq α] in
theorem Dated.tracks {now start : τ} {j : Journal α τ} (h : Dated (now, j)) (all : Bool) :
    Tracks all start j j := by
  refine ⟨fun x hx hadded => ⟨hx, fun hreported => ?_⟩, fun x hx => Or.inl hx⟩
  rcases hreported with ⟨e, he, rfl, hstart, _⟩
  rcases hx with ⟨hidden, hmember, _⟩
  have hin : (j.members e.item).isSome := by rw [hmember]; rfl
  rcases h.later e he hin with ⟨time, htime, hle⟩
  exact absurd (hstart.trans hle) (not_le.mpr (hadded time htime))

section

variable {all : Bool} {start now : τ} {copy j : Journal α τ}

/-- Something enters, or is dated anew. -/
theorem Tracks.enter (h : Tracks all start copy j) (hnow : start ≤ now) (x : α) (hidden : Bool)
    (hshown : j.members x = some false → hidden = false) :
    Tracks all start copy { j with
      members := update j.members x (some hidden)
      added := update j.added x (some now) } := by
  refine ⟨fun y hy hadded => ?_, fun y hy => ?_⟩
  · have hne : y ≠ x := by
      intro heq
      have hlt := hadded now (by rw [heq]; exact update_self ..)
      exact absurd hnow (not_le.mpr hlt)
    rcases hy with ⟨hid, hmember, hvisible⟩
    change update j.members x (some hidden) y = some hid at hmember
    rw [update_of_ne hne] at hmember
    refine h.old y ⟨hid, hmember, hvisible⟩ fun time htime => hadded time ?_
    change update j.added x (some now) y = some time
    rw [update_of_ne hne]
    exact htime
  · rcases h.gone y hy with hvisible | hrest
    · refine Or.inl ?_
      rcases hvisible with ⟨hid, hmember, hcan⟩
      by_cases heq : y = x
      · refine ⟨hidden, by rw [heq]; exact update_self .., ?_⟩
        rcases hcan with hall | rfl
        · exact Or.inl hall
        · exact Or.inr (hshown (by rw [← heq]; exact hmember))
      · exact ⟨hid, (update_of_ne heq ..).trans hmember, hcan⟩
    · exact Or.inr hrest

/-- Something leaves, and the log may be cut. -/
theorem Tracks.leave (h : Tracks all start copy j) (hnow : start ≤ now) {x : α} {hidden : Bool}
    {removed : List (Removal α τ)} {horizon : τ} (hmember : j.members x = some hidden)
    (hsub : ∀ e ∈ removed, e = ⟨now, x, hidden⟩ ∨ e ∈ j.removed)
    (hkept : ∀ e, e = ⟨now, x, hidden⟩ ∨ e ∈ j.removed → e ∈ removed ∨ e.time ≤ horizon)
    (hle : j.horizon ≤ horizon) :
    Tracks all start copy { j with
      members := update j.members x none
      added := update j.added x none
      removed := removed
      horizon := horizon } := by
  -- A removal that has to be reported is in the log, or the log was cut after it.
  have hreported : ∀ e : Removal α τ, (e = ⟨now, x, hidden⟩ ∨ e ∈ j.removed) → start ≤ e.time →
      e ∈ removed ∨ start ≤ horizon :=
    fun e he hstart => (hkept e he).imp_right hstart.trans
  refine ⟨fun y hy hadded => ?_, fun y hy => ?_⟩
  · rcases hy with ⟨hid, hin, hvisible⟩
    change update j.members x none y = some hid at hin
    have hne : y ≠ x := by
      intro heq
      rw [heq, update_self] at hin
      cases hin
    rw [update_of_ne hne] at hin
    have hadded' : ∀ time, j.added y = some time → time < start := by
      intro time htime
      exact hadded time ((update_of_ne hne ..).trans htime)
    rcases h.old y ⟨hid, hin, hvisible⟩ hadded' with ⟨hcopy, hnot⟩
    refine ⟨hcopy, fun hrep => hnot ?_⟩
    rcases hrep with ⟨e, he, rfl, hstart, hcan⟩
    rcases hsub e he with rfl | hold
    · exact absurd rfl hne
    · exact ⟨e, hold, rfl, hstart, hcan⟩
  · rcases h.gone y hy with hvisible | hrep | hcut
    · rcases hvisible with ⟨hid, hin, hcan⟩
      by_cases heq : y = x
      · right
        rw [heq, hmember] at hin
        cases hin
        refine (hreported ⟨now, x, hidden⟩ (Or.inl rfl) hnow).imp_left fun he => ?_
        exact ⟨_, he, heq.symm, hnow, hcan⟩
      · exact Or.inl ⟨hid, (update_of_ne heq ..).trans hin, hcan⟩
    · rcases hrep with ⟨e, he, rfl, hstart, hcan⟩
      right
      exact (hreported e (Or.inr he) hstart).imp_left fun hin => ⟨e, hin, rfl, hstart, hcan⟩
    · exact Or.inr (Or.inr (hcut.trans hle))

end

/-- Every change keeps track of a copy, or the journal goes back to a later time only. -/
theorem tracks_step (all : Bool) (start : τ) (copy : Journal α τ) :
    Preserves (Step (α := α) (τ := τ)) fun s =>
      start ≤ s.1 ∧ (start ≤ s.2.since ∨ Tracks all start copy s.2) := by
  intro s t h hstep
  rcases h with ⟨hnow, htracks⟩
  refine ⟨hnow.trans hstep.le, ?_⟩
  cases hstep with
  | wait j hle => exact htracks
  | change hchange hle =>
    cases hchange with
    | enter x hidden hshown =>
      exact htracks.imp_right fun h => h.enter hnow x hidden hshown
    | leave x hidden removed horizon hmember hsub hkept hcut =>
      exact htracks.imp_right fun h => h.leave hnow hmember hsub hkept hcut
    | forget => exact Or.inl hnow

/-- A copy that was taken when the clock had reached `start`, without what has left since and with
    what was added since, is the set as it is now. -/
theorem visible_iff {now now' start : τ} {j j' : Journal α τ} (hdated : Dated (now, j))
    (hrun : Run Step (now, j) (now', j')) (hstart : start ≤ now) (hsince : j'.since < start)
    (hhorizon : j'.horizon < start) (all : Bool) (x : α) :
    Visible all j' x ↔ (Visible all j x ∧ ¬ Reported all start j' x) ∨
      (Visible all j' x ∧ ∃ time, j'.added x = some time ∧ start ≤ time) := by
  have htracks : Tracks all start j j' :=
    ((tracks_step all start j).run hrun ⟨hstart, Or.inr (hdated.tracks all)⟩).2.resolve_left
      (not_le.mpr hsince)
  constructor
  · intro hx
    by_cases hadded : ∃ time, j'.added x = some time ∧ start ≤ time
    · exact Or.inr ⟨hx, hadded⟩
    · refine Or.inl (htracks.old x hx fun time htime => ?_)
      exact not_le.mp fun hle => hadded ⟨time, htime, hle⟩
  · intro hx
    rcases hx with ⟨hcopy, hnot⟩ | ⟨hvisible, _⟩
    · rcases htracks.gone x hcopy with hvisible | hrep | hcut
      · exact hvisible
      · exact absurd hrep hnot
      · exact absurd hcut (not_le.mpr hhorizon)
    · exact hvisible

end ChangeLog
