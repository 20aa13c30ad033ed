import CocaineNode.Core.KeyText
import CocaineNode.Theory.Json

/-!
# Two Decoders of Keys

The decoders differ in their digit test alone, and the tests differ in one byte.
`strchr` also finds the terminator of the string it searches, so NUL passes for
a digit of value 16 (`parseHexstr_accepts_nul`).

## Theorems

* `KeyText.digit_eq`: The tests agree on every other byte.
* `KeyText.parseHexstr_eq_fromHex_iff`: When the decoders agree.
-/

namespace CocaineNode

namespace KeyText

/-! ## The two digit tests -/

/-- A hexadecimal digit. -/
def IsHex (c : UInt8) : Prop :=
  0x30 ≤ c ∧ c ≤ 0x39 ∨ 0x41 ≤ c ∧ c ≤ 0x46 ∨ 0x61 ≤ c ∧ c ≤ 0x66

/-- The search and the table agree on every byte but NUL, and know the digits. -/
theorem digit_eq : ∀ c : UInt8,
    (c ≠ 0 →
      strchr (atolower c) = if Json.isx c = 0xff then none else some (Json.isx c).toNat) ∧
      ((strchr (atolower c)).isSome ↔ IsHex c ∨ c = 0) ∧ (Json.isx c ≠ 0xff ↔ IsHex c) :=
  Json.forall_uint8 (by unfold IsHex; decide +kernel)

theorem hexPairs_congr {f g : UInt8 → Option Nat} (s : Blob) (h : ∀ c ∈ s, f c = g c) :
    hexPairs f s = hexPairs g s := by
  fun_induction hexPairs f s with
  | case1 hi lo rest ih =>
    simp only [List.forall_mem_cons] at h
    rw [hexPairs, h.1, h.2.1, ih h.2.2]
  | case2 s hs =>
    rw [hexPairs]
    exact hs

theorem hexPairs_isSome (digit : UInt8 → Option Nat) (s : Blob) (heven : s.length % 2 = 0) :
    (hexPairs digit s).isSome ↔ ∀ c ∈ s, (digit c).isSome := by
  fun_induction hexPairs digit s with
  | case1 hi lo rest ih =>
    rw [List.forall_mem_cons, List.forall_mem_cons, ← ih (by grind)]
    cases digit hi <;> cases digit lo <;> cases hexPairs digit rest <;> simp
  | case2 s hs =>
    match s with
    | [] => simp
    | [c] => cases heven
    | hi :: lo :: rest => exact (hs hi lo rest rfl).elim

theorem fromHex_isSome (s : Blob) :
    (fromHex s).isSome ↔ s.length % 2 = 0 ∧ ∀ c ∈ s, IsHex c := by
  unfold fromHex decodeHex
  split_ifs with hodd
  · simp [hodd]
  · rw [Decidable.not_not] at hodd
    rw [hexPairs_isSome _ s hodd, and_iff_right hodd]
    refine forall₂_congr fun c _ => ?_
    rw [← (digit_eq c).2.2]
    split_ifs with h <;> simp [h]

theorem parseHexstr_isSome (s : Blob) :
    (parseHexstr s).isSome ↔ s.length % 2 = 0 ∧ ∀ c ∈ s, IsHex c ∨ c = 0 := by
  unfold parseHexstr decodeHex
  split_ifs with hodd
  · simp [hodd]
  · rw [Decidable.not_not] at hodd
    rw [hexPairs_isSome _ s hodd, and_iff_right hodd]
    exact forall₂_congr fun c _ => (digit_eq c).2.1

/-- The table accepts the pairs of hexadecimal digits. The search does the same unless the text has
    even length and holds a NUL, and nothing else that is no digit. -/
theorem parseHexstr_eq_fromHex_iff (s : Blob) :
    ((fromHex s).isSome ↔ s.length % 2 = 0 ∧ ∀ c ∈ s, IsHex c) ∧
      (parseHexstr s = fromHex s ↔
        s.length % 2 ≠ 0 ∨ (∃ c ∈ s, ¬ IsHex c ∧ c ≠ 0) ∨ 0 ∉ s) := by
  refine ⟨fromHex_isSome s, ?_, ?_⟩
  · intro heq
    by_contra! h
    rcases h with ⟨heven, hbytes, hnul⟩
    have hsome := (parseHexstr_isSome s).mpr
      ⟨heven, fun c hc => or_iff_not_imp_left.mpr (hbytes c hc)⟩
    rw [heq, fromHex_isSome] at hsome
    exact absurd (hsome.2 0 hnul) (by unfold IsHex; decide)
  · -- A text that neither accepts, or one on whose bytes the two tests agree.
    have hneither (hp : ¬ (parseHexstr s).isSome) (hf : ¬ (fromHex s).isSome) :
        parseHexstr s = fromHex s := by
      rw [Option.not_isSome_iff_eq_none] at hp hf
      rw [hp, hf]
    rintro (hodd | ⟨c, hc, hhex, hne⟩ | hnul)
    · exact hneither (fun h => hodd ((parseHexstr_isSome s).mp h).1)
        fun h => hodd ((fromHex_isSome s).mp h).1
    · exact hneither (fun h => (((parseHexstr_isSome s).mp h).2 c hc).elim hhex hne)
        fun h => hhex (((fromHex_isSome s).mp h).2 c hc)
    · unfold parseHexstr fromHex decodeHex
      rw [hexPairs_congr s fun c hc => (digit_eq c).1 fun h => hnul (h ▸ hc)]

/-- The search finds NUL at the terminator, at offset 16: the key text has a byte that is no digit.
    -/
theorem parseHexstr_accepts_nul :
    parseHexstr [0, 0x31] = some [1] ∧ fromHex [0, 0x31] = none := by
  decide

end KeyText

end CocaineNode
