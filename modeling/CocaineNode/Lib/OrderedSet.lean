import Mathlib.Data.List.Nodup
import Mathlib.Order.Lattice

/-!
# Sets Ordered by a Key

A set whose elements are compared by a key alone, as a list in the order of the
keys. An element is not inserted when there is one with its key already, also
when the two differ otherwise.

## Theorems

* `OrderedSet.insert_eq_self`: An element with a known key changes nothing.
* `OrderedSet.Sorted.eq_of_key`: Two elements with one key are one.
-/

namespace OrderedSet

open List

variable {α κ : Type} [LinearOrder κ] {key : α → κ}

/-- The keys go up. -/
def Sorted (key : α → κ) (l : List α) : Prop :=
  l.Pairwise fun a b => key a < key b

/-- An element inserted at its place, unless its key is taken. -/
def insert (key : α → κ) (a : α) : List α → List α
  | [] => [a]
  | b :: rest =>
    if key a < key b then a :: b :: rest
    else if key b < key a then b :: insert key a rest
    else b :: rest

variable {l : List α}

theorem mem_of_mem_insert {a x : α} (h : x ∈ insert key a l) : x = a ∨ x ∈ l := by
  induction l with
  | nil => exact Or.inl (mem_singleton.mp h)
  | cons b rest ih =>
    unfold insert at h
    split_ifs at h
    · exact mem_cons.mp h
    · rcases mem_cons.mp h with rfl | hrest
      · exact Or.inr mem_cons_self
      · exact (ih hrest).imp_right (mem_cons_of_mem b)
    · exact Or.inr h

/-- Inserting keeps the order. -/
theorem sorted_insert (a : α) (h : Sorted key l) : Sorted key (insert key a l) := by
  induction l with
  | nil => exact pairwise_singleton _ _
  | cons b rest ih =>
    rcases pairwise_cons.mp h with ⟨hb, hrest⟩
    unfold insert
    split_ifs with hbefore hafter
    · refine pairwise_cons.mpr ⟨?_, h⟩
      exact forall_mem_cons.mpr ⟨hbefore, fun c hc => lt_trans hbefore (hb c hc)⟩
    · refine pairwise_cons.mpr ⟨?_, ih hrest⟩
      intro c hc
      rcases mem_of_mem_insert hc with rfl | hc
      · exact hafter
      · exact hb c hc
    · exact h

/-- After an element with a new key was inserted. -/
theorem mem_insert {a x : α} (hnew : ∀ b ∈ l, key b ≠ key a) :
    x ∈ insert key a l ↔ x = a ∨ x ∈ l := by
  refine ⟨mem_of_mem_insert, ?_⟩
  induction l with
  | nil =>
    intro h
    rcases h with rfl | h
    · exact mem_singleton_self _
    · cases h
  | cons b rest ih =>
    have hih := ih fun c hc => hnew c (mem_cons_of_mem b hc)
    have hb := hnew b mem_cons_self
    intro h
    unfold insert
    split_ifs with hbefore hafter
    · exact mem_cons.mpr h
    · rcases h with rfl | h
      · exact mem_cons_of_mem b (hih (Or.inl rfl))
      · rcases mem_cons.mp h with rfl | h
        · exact mem_cons_self
        · exact mem_cons_of_mem b (hih (Or.inr h))
    · exact absurd (le_antisymm (not_lt.mp hbefore) (not_lt.mp hafter)) hb

/-- An element whose key is taken changes nothing. -/
theorem insert_eq_self {a b : α} (h : Sorted key l) (hb : b ∈ l)
    (hkey : key b = key a) : insert key a l = l := by
  induction l with
  | nil => cases hb
  | cons c rest ih =>
    rcases pairwise_cons.mp h with ⟨hc, hrest⟩
    unfold insert
    rcases mem_cons.mp hb with rfl | hb
    · rw [if_neg (by rw [hkey]; exact lt_irrefl _), if_neg (by rw [hkey]; exact lt_irrefl _)]
    · have hlt := hc b hb
      rw [hkey] at hlt
      rw [if_neg (lt_asymm hlt), if_pos hlt, ih hrest hb]

/-- Two elements with one key are one. -/
theorem Sorted.eq_of_key {a b : α} (h : Sorted key l) (ha : a ∈ l) (hb : b ∈ l)
    (hkey : key a = key b) : a = b := by
  have hkeys : (l.map key).Nodup := pairwise_map.mpr (h.imp ne_of_lt)
  exact inj_on_of_nodup_map hkeys ha hb hkey

end OrderedSet
