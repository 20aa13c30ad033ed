import Mathlib.Data.List.Basic

/-!
# Machines That Eat a Stream

A machine reads from the front of what it was given. It takes some of it, or it
waits for more, or it stops for good. `Runs` lets it go on until it waits or
stops, and `Feeds` gives it a stream in chunks, each of them once it waits.

What a machine does must not depend on what it cannot have seen: once it takes
something or stops, it does the same when more follows. For such a machine the
cuts between the chunks do not matter.

## Theorems

* `Incremental.Machine.Feeds.unique`: Two ways to cut a stream lead to one end.
* `Incremental.Machine.Leads.front`: What a part of a stream can do on the way to a point.
-/

namespace Incremental

open List

/-- What a machine does next. -/
inductive Act (σ η : Type) where
  /-- It takes so many from the front. -/
  | take (s : σ) (n : Nat)
  | wait
  | halt (h : η)

/-- Where a machine is when it has nothing more to do. -/
inductive Outcome (α σ η : Type) where
  | waiting (s : σ) (rest : List α)
  | halted (h : η)

/-- What the machine does in a state, on what it was given. -/
structure Machine (α σ η : Type) where
  act : σ → List α → Act σ η

namespace Machine

variable {α σ η : Type}

/-- What is taken is there, and more to come changes nothing. -/
structure Steady (m : Machine α σ η) : Prop where
  take_le : ∀ {s s' b n}, m.act s b = .take s' n → n ≤ b.length
  take_append : ∀ {s s' b n} (c : List α), m.act s b = .take s' n → m.act s (b ++ c) = .take s' n
  halt_append : ∀ {s b h} (c : List α), m.act s b = .halt h → m.act s (b ++ c) = .halt h

/-- The machine goes on until it waits or stops. -/
inductive Runs (m : Machine α σ η) : σ → List α → Outcome α σ η → Prop
  | wait {s b} : m.act s b = .wait → Runs m s b (.waiting s b)
  | halt {s b h} : m.act s b = .halt h → Runs m s b (.halted h)
  | take {s s' b n o} : m.act s b = .take s' n → Runs m s' (b.drop n) o → Runs m s b o

/-- The chunks are given to the machine one after the other, each of them once it waits. -/
inductive Feeds (m : Machine α σ η) : σ → List α → List (List α) → Outcome α σ η → Prop
  | nil {s b} : Feeds m s b [] (.waiting s b)
  | halt {s b c cs h} : Runs m s (b ++ c) (.halted h) → Feeds m s b (c :: cs) (.halted h)
  | next {s s' b b' c cs o} :
      Runs m s (b ++ c) (.waiting s' b') → Feeds m s' b' cs o → Feeds m s b (c :: cs) o

/-- The machine takes its way to a point, through states with a property. -/
inductive Leads (m : Machine α σ η) (P : σ → Prop) : σ → List α → σ → List α → Prop
  | here {s b} : Leads m P s b s b
  | take {s s' t b d n} :
      m.act s b = .take s' n → P s' → Leads m P s' (b.drop n) t d → Leads m P s b t d

/-- On its way the machine comes to a point with a property. -/
def Meets (m : Machine α σ η) (Q : σ → List α → Prop) (s : σ) (b : List α) : Prop :=
  ∃ t d, m.Leads (fun _ => True) s b t d ∧ Q t d

variable {m : Machine α σ η} {s s' t : σ} {b b' c d : List α} {o o' : Outcome α σ η} {h : η}
  {P : σ → Prop} {Q : σ → List α → Prop}

theorem meets_take_iff {n : Nat} (hact : m.act s b = .take s' n) :
    m.Meets Q s b ↔ Q s b ∨ m.Meets Q s' (b.drop n) := by
  constructor
  · rintro ⟨t, d, hl, hq⟩
    cases hl with
    | here => exact .inl hq
    | take hact' _ hl =>
      rw [hact] at hact'
      cases hact'
      exact .inr ⟨t, d, hl, hq⟩
  · rintro (hq | ⟨t, d, hl, hq⟩)
    · exact ⟨s, b, .here, hq⟩
    · exact ⟨t, d, .take hact trivial hl, hq⟩

theorem meets_stop_iff (hact : ∀ s' n, m.act s b ≠ .take s' n) : m.Meets Q s b ↔ Q s b := by
  refine ⟨?_, fun hq => ⟨s, b, .here, hq⟩⟩
  rintro ⟨t, d, hl, hq⟩
  cases hl with
  | here => exact hq
  | take hact' => exact absurd hact' (hact _ _)

theorem Runs.unique (hr : m.Runs s b o) (hr' : m.Runs s b o') : o = o' := by
  induction hr with
  | wait hact =>
    cases hr' with
    | wait _ => rfl
    | halt hact' | take hact' _ => rw [hact] at hact'; cases hact'
  | halt hact =>
    cases hr' with
    | wait hact' => rw [hact] at hact'; cases hact'
    | halt hact' => rw [hact] at hact'; cases hact'; rfl
    | take hact' _ => rw [hact] at hact'; cases hact'
  | take hact _ ih =>
    cases hr' with
    | wait hact' | halt hact' => rw [hact] at hact'; cases hact'
    | take hact' hr' =>
      rw [hact] at hact'
      cases hact'
      exact ih hr'

/-- Where a run waits, the machine waits. -/
theorem Runs.waits (hr : m.Runs s b (.waiting s' b')) : m.act s' b' = .wait := by
  generalize ho : Outcome.waiting s' b' = o at hr
  induction hr with
  | wait hact =>
    cases ho
    exact hact
  | halt _ => cases ho
  | take _ _ ih => exact ih ho

/-- A run that waits is taken up where it was. -/
theorem Runs.append (hm : m.Steady) (hr : m.Runs s b (.waiting s' b'))
    (hr' : m.Runs s' (b' ++ c) o) : m.Runs s (b ++ c) o := by
  generalize ho : Outcome.waiting s' b' = o' at hr
  induction hr with
  | wait _ =>
    cases ho
    exact hr'
  | halt _ => cases ho
  | take hact _ ih =>
    refine .take (hm.take_append c hact) ?_
    rw [drop_append_of_le_length (hm.take_le hact)]
    exact ih ho

/-- A run that stops does so with more to come. -/
theorem Runs.halted_append (hm : m.Steady) (hr : m.Runs s b (.halted h)) (c : List α) :
    m.Runs s (b ++ c) (.halted h) := by
  generalize ho : Outcome.halted h = o at hr
  induction hr with
  | wait _ => cases ho
  | halt hact =>
    cases ho
    exact .halt (hm.halt_append c hact)
  | take hact _ ih =>
    refine .take (hm.take_append c hact) ?_
    rw [drop_append_of_le_length (hm.take_le hact)]
    exact ih ho

/-- Chunks are as good as the whole stream. -/
theorem Feeds.runs (hm : m.Steady) {cs : List (List α)} (hwait : m.act s b = .wait)
    (hf : m.Feeds s b cs o) : m.Runs s (b ++ cs.flatten) o := by
  induction hf with
  | nil =>
    rw [flatten_nil, append_nil]
    exact .wait hwait
  | halt hr =>
    rw [flatten_cons, ← append_assoc]
    exact hr.halted_append hm _
  | next hr _ ih =>
    rw [flatten_cons, ← append_assoc]
    exact hr.append hm (ih hr.waits)

/-- Two ways to cut a stream lead to one end. -/
theorem Feeds.unique (hm : m.Steady) {cs cs' : List (List α)} (hwait : m.act s b = .wait)
    (hcuts : cs.flatten = cs'.flatten) (hf : m.Feeds s b cs o) (hf' : m.Feeds s b cs' o') :
    o = o' := by
  have hrun := hf.runs hm hwait
  rw [hcuts] at hrun
  exact hrun.unique (hf'.runs hm hwait)

/-- A run goes on from any point on its way. -/
theorem Leads.runs (hl : m.Leads P s b t d) (hr : m.Runs t d o) : m.Runs s b o := by
  induction hl with
  | here => exact hr
  | take hact _ _ ih => exact .take hact (ih hr)

/-- A run on the front of a stream stops on the way, or it gets to the point. -/
theorem Leads.front (hm : m.Steady) (hl : m.Leads P s (b ++ c) t d) (hs : P s)
    (hr : m.Runs s b (.waiting s' b')) :
    P s' ∧ m.Leads P s' (b' ++ c) t d ∨ ∃ front, d = front ++ c ∧
      m.Runs t front (.waiting s' b') := by
  generalize hwhole : b ++ c = whole at hl
  induction hl generalizing b with
  | here => exact .inr ⟨b, hwhole.symm, hr⟩
  | take hact hs' hrest ih =>
    cases hr with
    | wait _ => exact .inl ⟨hs, hwhole ▸ .take hact hs' hrest⟩
    | take hact' hr =>
      have hlong := hm.take_append c hact'
      rw [hwhole, hact] at hlong
      cases hlong
      refine ih hs' hr ?_
      rw [← hwhole, drop_append_of_le_length (hm.take_le hact')]

end Machine

end Incremental
