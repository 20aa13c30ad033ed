import Mathlib.Data.Nat.Find
import Mathlib.Order.Monotone.Basic

/-!
# Schedules of Activation Points

A schedule has entries `0, …, last`, and entry `n` starts at the point
`starts n`. Entry `0` is in force from the beginning whatever its own start
says; a later entry is in force from its start until the next one. `active` is
the entry in force at a point.

## Theorems

* `Schedule.active_zero`: At point zero an increasing schedule is at its first entry.
* `Schedule.active_pos_iff`: The first entry has been left once the second has started.
-/

namespace Schedule

variable {starts : Nat → Nat} {last h h' k : Nat}

/-- The entry in force at `h`: the last one that has started, or entry `0`. -/
def active (starts : Nat → Nat) (last h : Nat) : Nat :=
  Nat.findGreatest (fun n => starts n ≤ h) last

theorem active_le : active starts last h ≤ last :=
  Nat.findGreatest_le last

/-- The entry that has started and has none started after it is the one in force. -/
theorem active_eq (hk : k ≤ last) (hstart : k ≠ 0 → starts k ≤ h)
    (hlater : ∀ j, k < j → j ≤ last → h < starts j) : active starts last h = k := by
  refine Nat.findGreatest_eq_iff.mpr ⟨hk, hstart, ?_⟩
  intro j hkj hj
  exact Nat.not_le.mpr (hlater j hkj hj)

/-- A later point never has an earlier entry. -/
theorem active_mono (hh : h ≤ h') : active starts last h ≤ active starts last h' :=
  Nat.findGreatest_mono_left (fun _ hn => hn.trans hh) last

variable (hmono : ∀ i j, i < j → j ≤ last → starts i < starts j)
include hmono

/-- The first entry has been left once the second has started. -/
theorem active_pos_iff : 0 < active starts last h ↔ 0 < last ∧ starts 1 ≤ h := by
  constructor
  · intro hpos
    have hle : active starts last h ≤ last := active_le
    have hst : starts (active starts last h) ≤ h := (Nat.findGreatest_eq_iff.mp rfl).2.1 hpos.ne'
    refine ⟨lt_of_lt_of_le hpos hle, ?_⟩
    rcases Nat.eq_or_lt_of_le hpos with h1 | h1
    · rwa [← h1] at hst
    · exact (hmono 1 _ h1 hle).le.trans hst
  · rintro ⟨hlast, h1⟩
    exact lt_of_lt_of_le Nat.zero_lt_one (Nat.le_findGreatest hlast h1)

/-- At point zero an increasing schedule is at its first entry. -/
theorem active_zero : active starts last 0 = 0 := by
  by_contra hne
  have h1 := (active_pos_iff hmono).mp (Nat.pos_of_ne_zero hne)
  have h01 := hmono 0 1 Nat.zero_lt_one h1.1
  omega

end Schedule
