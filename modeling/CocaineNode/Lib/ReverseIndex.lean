import Mathlib.Data.List.AList

/-!
# Reverse Indexes

An index from keys to the elements that have them, as an association list from
each key to a list of elements. A key without elements has no entry, and no
element stands in a list twice.

## Theorems

* `ReverseIndex.mem_find_add`, `ReverseIndex.mem_find_remove`: What is found afterwards.
* `ReverseIndex.WellFormed.add`, `ReverseIndex.WellFormed.remove`: Both keep the form.
-/

namespace ReverseIndex

open AList

variable {κ ι : Type} [DecidableEq κ] {t : AList fun _ : κ => List ι}

/-- The elements under a key. -/
def find (t : AList fun _ : κ => List ι) (k : κ) : List ι :=
  (t.lookup k).getD []

/-- No empty list and no repetition. -/
structure WellFormed (t : AList fun _ : κ => List ι) : Prop where
  ne_nil : ∀ k l, t.lookup k = some l → l ≠ []
  nodup : ∀ k l, t.lookup k = some l → l.Nodup

theorem find_of_lookup {k : κ} {l : List ι} (h : t.lookup k = some l) : find t k = l := by
  rw [find, h, Option.getD_some]

theorem find_insert (t : AList fun _ : κ => List ι) (k : κ) (l : List ι) (k' : κ) :
    find (t.insert k l) k' = if k' = k then l else find t k' := by
  unfold find
  split
  · rename_i heq
    rw [heq, lookup_insert, Option.getD_some]
  · rename_i hne
    rw [lookup_insert_ne hne]

theorem find_erase (t : AList fun _ : κ => List ι) (k k' : κ) :
    find (t.erase k) k' = if k' = k then [] else find t k' := by
  unfold find
  split
  · rename_i heq
    rw [heq, lookup_erase, Option.getD_none]
  · rename_i hne
    rw [lookup_erase_ne hne]

theorem WellFormed.empty : WellFormed (∅ : AList fun _ : κ => List ι) := by
  constructor
  · intro k l h
    cases h
  · intro k l h
    cases h

section

variable (h : WellFormed t) (k : κ)
include h k

theorem WellFormed.find_nodup : (find t k).Nodup := by
  cases hlookup : t.lookup k with
  | none =>
    rw [find, hlookup]
    exact List.nodup_nil
  | some l =>
    rw [find_of_lookup hlookup]
    exact h.nodup k l hlookup

theorem WellFormed.insert {l : List ι} (hne : l ≠ []) (hnodup : l.Nodup) :
    WellFormed (t.insert k l) := by
  have hlookup : ∀ k' l', (t.insert k l).lookup k' = some l' → l' = l ∨ t.lookup k' = some l' := by
    intro k' l' hl'
    by_cases heq : k' = k
    · rw [heq, lookup_insert] at hl'
      exact Or.inl (Option.some.inj hl').symm
    · rw [lookup_insert_ne heq] at hl'
      exact Or.inr hl'
  constructor
  · intro k' l' hl'
    rcases hlookup k' l' hl' with rfl | hold
    · exact hne
    · exact h.ne_nil k' l' hold
  · intro k' l' hl'
    rcases hlookup k' l' hl' with rfl | hold
    · exact hnodup
    · exact h.nodup k' l' hold

theorem WellFormed.erase : WellFormed (t.erase k) := by
  have hlookup : ∀ k' l', (t.erase k).lookup k' = some l' → t.lookup k' = some l' := by
    intro k' l' hl'
    by_cases heq : k' = k
    · rw [heq, lookup_erase] at hl'
      cases hl'
    · rwa [lookup_erase_ne heq] at hl'
  exact ⟨fun k' l' hl' => h.ne_nil k' l' (hlookup k' l' hl'),
    fun k' l' hl' => h.nodup k' l' (hlookup k' l' hl')⟩

end

variable [DecidableEq ι]

/-- An element entered under a key. -/
def add (t : AList fun _ : κ => List ι) (k : κ) (i : ι) : AList fun _ : κ => List ι :=
  t.insert k (if i ∈ find t k then find t k else i :: find t k)

/-- An element taken out; a list that would be empty goes with it. -/
def remove (t : AList fun _ : κ => List ι) (k : κ) (i : ι) : AList fun _ : κ => List ι :=
  if (find t k).erase i = [] then t.erase k else t.insert k ((find t k).erase i)

/-- What is found after an element was entered. -/
theorem mem_find_add (t : AList fun _ : κ => List ι) (k : κ) (i : ι) (k' : κ) (j : ι) :
    j ∈ find (add t k i) k' ↔ j ∈ find t k' ∨ k' = k ∧ j = i := by
  unfold add
  rw [find_insert]
  split
  · rename_i heq
    subst heq
    split
    · rename_i hin
      refine ⟨Or.inl, fun h => ?_⟩
      rcases h with h | ⟨_, rfl⟩
      · exact h
      · exact hin
    · rw [List.mem_cons, or_comm]
      simp
  · rename_i hne
    simp [hne]

variable (h : WellFormed t) (k : κ) (i : ι)
include h k i

theorem WellFormed.add : WellFormed (add t k i) := by
  unfold ReverseIndex.add
  split
  · rename_i hin
    exact h.insert k (List.ne_nil_of_mem hin) (h.find_nodup k)
  · rename_i hout
    exact h.insert k (List.cons_ne_nil _ _) (List.nodup_cons.mpr ⟨hout, h.find_nodup k⟩)

/-- What is found after an element was taken out. -/
theorem mem_find_remove (k' : κ) (j : ι) :
    j ∈ find (remove t k i) k' ↔ j ∈ find t k' ∧ ¬ (k' = k ∧ j = i) := by
  -- Both branches leave the list without the element under the key.
  have hfind : find (remove t k i) k' = if k' = k then (find t k).erase i else find t k' := by
    unfold remove
    split
    · rename_i hnil
      rw [find_erase, hnil]
    · rw [find_insert]
  rw [hfind]
  split
  · rename_i heq
    subst heq
    rw [(h.find_nodup k').mem_erase_iff]
    tauto
  · rename_i hne
    simp [hne]

theorem WellFormed.remove : WellFormed (remove t k i) := by
  unfold ReverseIndex.remove
  split
  · exact h.erase k
  · rename_i hne
    exact h.insert k hne ((h.find_nodup k).erase i)

end ReverseIndex
