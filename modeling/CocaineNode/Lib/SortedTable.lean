import Mathlib.Data.List.Pairwise
import Mathlib.Data.List.Sort

/-!
# Tables in the Order of Their Keys

A table holds at most one record for a key, and its records are in the order of
the keys. A cursor is a position in it: it is set to a key, or moved to the next
one that is there.

What a table holds is what it answers: two tables that give the same record for
every key are equal. So a change is undone when every key has its record again.

## Theorems

* `SortedTable.ext_get`: A table is what it answers.
* `SortedTable.erase_put`, `SortedTable.erase_append`: A new record taken out again.
-/

/-- The records of a table in the order of their keys. -/
structure SortedTable (κ α : Type) [LinearOrder κ] where
  entries : List (κ × α)
  sorted : entries.Pairwise fun a b => a.1 < b.1

namespace SortedTable

open List Option

variable {κ α : Type} [LinearOrder κ] {t t' : SortedTable κ α} {k k' : κ} {v v' : α}

/-- A table without records. -/
def empty : SortedTable κ α :=
  ⟨[], .nil⟩

/-- The record for a key. -/
def get? (t : SortedTable κ α) (k : κ) : Option α :=
  (t.entries.find? fun e => e.1 = k).map Prod.snd

/-- How many records there are. -/
def count (t : SortedTable κ α) : Nat :=
  t.entries.length

/-- The record for a key is taken out. -/
def erase (t : SortedTable κ α) (k : κ) : SortedTable κ α :=
  ⟨t.entries.filter fun e => e.1 ≠ k, t.sorted.filter _⟩

/-- The records for the keys below one. -/
def below (t : SortedTable κ α) (k : κ) : SortedTable κ α :=
  ⟨t.entries.filter fun e => e.1 < k, t.sorted.filter _⟩

/-- A record is put in the place of the one for its key, or between the others. -/
def put (t : SortedTable κ α) (k : κ) (v : α) : SortedTable κ α where
  entries := (t.entries.filter fun e => e.1 < k) ++ (k, v) :: t.entries.filter fun e => k < e.1
  sorted := by
    refine pairwise_append.mpr ⟨t.sorted.filter _, pairwise_cons.mpr ⟨?_,
      t.sorted.filter _⟩, ?_⟩
    · intro e he
      simpa using (mem_filter.mp he).2
    · intro e he e' he'
      have hbefore : e.1 < k := by simpa using (mem_filter.mp he).2
      rcases mem_cons.mp he' with rfl | he'
      · exact hbefore
      · have hafter : k < e'.1 := by simpa using (mem_filter.mp he').2
        exact hbefore.trans hafter

/-- A record is put behind all others, if its key is behind theirs. -/
def append? (t : SortedTable κ α) (k : κ) (v : α) : Option (SortedTable κ α) :=
  if h : ∀ e ∈ t.entries, e.1 < k then
    some ⟨t.entries ++ [(k, v)], pairwise_append.mpr
      ⟨t.sorted, pairwise_singleton _ _, fun e he _ he' => mem_singleton.mp he' ▸ h e he⟩⟩
  else none

/-- The last record. -/
def last? (t : SortedTable κ α) : Option (κ × α) :=
  t.entries.getLast?

/-! ## What a table answers -/

/-- There is one record for a key. -/
theorem eq_of_mem (h : (k, v) ∈ t.entries) (h' : (k, v') ∈ t.entries) : v = v' := by
  by_contra hne
  have hkeys : t.entries.Pairwise fun a b => a.1 ≠ b.1 := t.sorted.imp fun h => h.ne
  have : Std.Symm fun a b : κ × α => a.1 ≠ b.1 := ⟨fun _ _ h => h.symm⟩
  exact hkeys.forall h h' (fun heq => hne (Prod.mk.inj heq).2) rfl

theorem get_eq_some : t.get? k = some v ↔ (k, v) ∈ t.entries := by
  rw [get?]
  constructor
  · intro h
    rcases map_eq_some_iff.mp h with ⟨⟨k', v'⟩, hfind, rfl⟩
    have hkey : k' = k := by simpa using find?_some hfind
    exact hkey ▸ mem_of_find?_eq_some hfind
  · intro h
    cases hfind : t.entries.find? fun e => e.1 = k with
    | none => exact absurd (find?_eq_none.mp hfind _ h) (by simp)
    | some e =>
      rcases e with ⟨k', v'⟩
      have hkey : k' = k := by simpa using find?_some hfind
      have hmem := mem_of_find?_eq_some hfind
      rw [hkey] at hmem
      rw [map_some, eq_of_mem hmem h]

theorem get_eq_none : t.get? k = none ↔ ∀ e ∈ t.entries, e.1 ≠ k := by
  rw [get?, map_eq_none_iff, find?_eq_none]
  simp

/-- A table is what it answers. -/
theorem ext_get (h : ∀ k, t.get? k = t'.get? k) : t = t' := by
  rcases t with ⟨l, hl⟩
  rcases t' with ⟨l', hl'⟩
  have hmem : ∀ e, e ∈ l ↔ e ∈ l' := by
    rintro ⟨k, v⟩
    have hget := h k
    rw [← get_eq_some (t := ⟨l, hl⟩), ← get_eq_some (t := ⟨l', hl'⟩), hget]
  have hlist : l = l' := by
    exact hl.eq_of_mem_iff hl' hmem
  subst hlist
  rfl

section

variable (t : SortedTable κ α) (k k' : κ)

theorem get_erase : (t.erase k).get? k' = if k' = k then none else t.get? k' := by
  split_ifs with h
  · rw [get_eq_none]
    intro e he
    have hne : e.1 ≠ k := by simpa using (mem_filter.mp he).2
    rw [h]
    exact hne
  · ext v
    rw [get_eq_some, get_eq_some, erase, mem_filter]
    simp [h]

theorem get_below : (t.below k).get? k' = if k' < k then t.get? k' else none := by
  split_ifs with h
  · ext v
    rw [get_eq_some, get_eq_some, below, mem_filter]
    simp [h]
  · rw [get_eq_none]
    intro e he heq
    have hlt : e.1 < k := by simpa using (mem_filter.mp he).2
    exact h (heq ▸ hlt)

theorem get_put (v : α) : (t.put k v).get? k' = if k' = k then some v else t.get? k' := by
  split_ifs with h
  · rw [get_eq_some, put, h]
    simp
  · ext v'
    rw [get_eq_some, get_eq_some, put]
    simp only [mem_append, mem_filter, mem_cons, Prod.mk.injEq, decide_eq_true_eq]
    constructor
    · rintro (⟨hmem, -⟩ | ⟨heq, -⟩ | ⟨hmem, -⟩)
      · exact hmem
      · exact absurd heq h
      · exact hmem
    · intro hmem
      rcases lt_or_gt_of_ne h with hlt | hgt
      · exact .inl ⟨hmem, hlt⟩
      · exact .inr (.inr ⟨hmem, hgt⟩)

end

theorem mem_put {e : κ × α} (h : e ∈ (t.put k v).entries) : e ∈ t.entries ∨ e = (k, v) := by
  simp only [put, mem_append, mem_cons, mem_filter] at h
  rcases h with ⟨h, -⟩ | h | ⟨h, -⟩
  · exact .inl h
  · exact .inr h
  · exact .inl h

section

variable (h : t.append? k v = some t')
include h

theorem append_eq_some : (∀ e ∈ t.entries, e.1 < k) ∧ t'.entries = t.entries ++ [(k, v)] := by
  rw [append?] at h
  split_ifs at h with hk
  cases h
  exact ⟨hk, rfl⟩

theorem get_append (k' : κ) : t'.get? k' = if k' = k then some v else t.get? k' := by
  rcases append_eq_some h with ⟨hlt, hentries⟩
  split_ifs with hk
  · rw [get_eq_some, hentries, hk]
    simp
  · ext v'
    rw [get_eq_some, get_eq_some, hentries]
    simp [hk]

theorem get_append_self : t'.get? k = some v := by
  rw [get_append h, if_pos rfl]

/-- The key of an appended record was not there. -/
theorem get_of_append : t.get? k = none :=
  get_eq_none.mpr fun e he => ((append_eq_some h).1 e he).ne

end

/-! ## Records taken out again -/

theorem erase_put (h : t.get? k = none) (v : α) : (t.put k v).erase k = t := by
  refine ext_get fun k' => ?_
  rw [get_erase, get_put]
  split_ifs with hk
  · rw [hk, h]
  · rfl

theorem erase_append (h : t.append? k v = some t') : t'.erase k = t := by
  refine ext_get fun k' => ?_
  rw [get_erase, get_append h]
  split_ifs with hk
  · rw [hk, get_of_append h]
  · rfl

/-- Of the keys up to one, those below it are left. -/
theorem erase_eq_below (h : ∀ e ∈ t.entries, e.1 ≤ k) : t.erase k = t.below k := by
  refine ext_get fun k' => ?_
  rw [get_erase, get_below]
  rcases lt_trichotomy k' k with hlt | heq | hgt
  · rw [if_neg hlt.ne, if_pos hlt]
  · rw [if_pos heq, if_neg (by simp [heq])]
  · rw [if_neg hgt.ne', if_neg hgt.asymm, get_eq_none]
    intro e he heq
    exact absurd (heq ▸ h e he) (not_le.mpr hgt)

theorem below_of_lt (h : ∀ e ∈ t.entries, e.1 < k) : t.below k = t := by
  refine ext_get fun k' => ?_
  rw [get_below]
  split_ifs with hk
  · rfl
  · symm
    rw [get_eq_none]
    intro e he heq
    exact hk (heq ▸ h e he)

theorem below_append (h : t.append? k v = some t') : t'.below k = t := by
  refine ext_get fun k' => ?_
  rw [get_below, get_append h]
  rcases lt_trichotomy k' k with hlt | heq | hgt
  · rw [if_pos hlt, if_neg hlt.ne]
  · rw [if_neg (by simp [heq]), heq, get_of_append h]
  · rw [if_neg hgt.asymm]
    symm
    rw [get_eq_none]
    intro e he heq
    exact absurd (heq ▸ (append_eq_some h).1 e he) hgt.asymm

theorem below_put (h : ∀ e ∈ t.entries, e.1 < k) (v : α) : (t.put k v).below k = t := by
  refine ext_get fun k' => ?_
  rw [get_below, get_put]
  by_cases hlt : k' < k
  · rw [if_pos hlt, if_neg hlt.ne]
  · rw [if_neg hlt, ← below_of_lt h, get_below, if_neg hlt]

theorem below_below (t : SortedTable κ α) (h : k ≤ k') : (t.below k').below k = t.below k := by
  refine ext_get fun k'' => ?_
  rw [get_below, get_below, get_below]
  split_ifs with hlt hlt'
  · rfl
  · exact absurd (hlt.trans_le h) hlt'
  · rfl

theorem erase_comm (t : SortedTable κ α) (k k' : κ) :
    (t.erase k).erase k' = (t.erase k').erase k := by
  refine ext_get fun k'' => ?_
  rw [get_erase, get_erase, get_erase, get_erase]
  split_ifs <;> rfl

theorem count_append (h : t.append? k v = some t') : t'.count = t.count + 1 := by
  rw [count, (append_eq_some h).2, length_append, length_singleton, count]

/-! ## Numbered records -/

/-- The keys are 0, 1, 2 and so on. -/
def Numbered {α : Type} (t : SortedTable Nat α) : Prop :=
  t.entries.map Prod.fst = range t.count

variable {α : Type} {t t' : SortedTable Nat α} {v : α} (h : t.Numbered)
include h

/-- The next record gets the next number. -/
theorem Numbered.append (happ : t.append? t.count v = some t') : t'.Numbered := by
  rw [Numbered, count_append happ, (append_eq_some happ).2, map_append, h, range_succ]
  rfl

theorem Numbered.getElem (i : Nat) : t.entries[i]? = (t.get? i).map fun v => (i, v) := by
  cases hi : t.entries[i]? with
  | none =>
    have hlen : t.count ≤ i := getElem?_eq_none_iff.mp hi
    have hnone : t.get? i = none := by
      rw [get_eq_none]
      intro e he heq
      have hmem : e.1 ∈ range t.count := h ▸ mem_map_of_mem he
      rw [mem_range, heq] at hmem
      omega
    rw [hnone, map_none]
  | some e =>
    have hkey : (t.entries.map Prod.fst)[i]? = some e.1 := by rw [getElem?_map, hi]; rfl
    rw [h, getElem?_eq_some_iff] at hkey
    rcases hkey with ⟨_, hkey⟩
    rw [getElem_range] at hkey
    have hget : t.get? i = some e.2 :=
      get_eq_some.mpr (hkey ▸ mem_of_getElem? hi)
    rw [hget, map_some, hkey]

theorem Numbered.get_isSome {i : Nat} : (t.get? i).isSome ↔ i < t.count := by
  have hlen : t.entries[i]?.isSome ↔ i < t.count := by simp [count]
  rw [← hlen, h.getElem, isSome_map]

/-- The number behind the last one. -/
theorem Numbered.last : t.last?.elim 0 (fun e => 1 + e.1) = t.count := by
  rw [last?, getLast?_eq_getElem?, h.getElem]
  cases hget : t.get? (t.entries.length - 1) with
  | none =>
    have hnot : ¬ t.entries.length - 1 < t.count := fun hlt => by
      simpa [hget] using h.get_isSome.mpr hlt
    show 0 = t.count
    rw [count] at hnot ⊢
    omega
  | some v =>
    have hlt : t.entries.length - 1 < t.count := h.get_isSome.mp (by simp [hget])
    show 1 + (t.entries.length - 1) = t.count
    rw [count] at hlt ⊢
    omega

end SortedTable
