import CocaineNode.Core.Json
import Mathlib.Tactic.Cases

/-!
# What the JSON Parser Accepts

Two things are asked of the parser: that a text it accepts holds one object that
is complete, and that it never looks behind the end of the text.

Neither holds of every text. A handler that meets the end of the text returns
without an error, so a text that breaks off is accepted as long as it breaks off
between two pieces. And a string that breaks off inside a code point of four
digits is read one position too far.

`Reads` is the grammar of what the parser takes for an object, from a phase of
the handler to the rest behind the brace that ends its section, or to the end of
the text. It is deterministic, and a handler that returns has read its text so.
The handlers that run out of text need care, since their caller goes on right
behind the brace that they started at: what it finds there is white space or the
quote of a name (`Reads.stall`).

## Theorems

* `Json.Reads.unique`: A text is read in one way.
* `Json.runLoop_ends`, `Json.runHandler_ends`: What the loop and the handler read.
* `Json.loadFromJson_complete_iff`: What holds of an accepted text.
-/

namespace CocaineNode

open List

namespace Json

open Throwing (Ends)

/-! ## The grammar -/

/-- The texts that end a string, from behind its opening quote. -/
inductive StringTail : Blob → Prop
  | close : StringTail [quote]
  | plain {c : UInt8} {x : Blob} : c ≠ quote → c ≠ backslash → StringTail x → StringTail (c :: x)
  | escape {c : UInt8} {x : Blob} : c ≠ letterU → StringTail x → StringTail (backslash :: c :: x)
  | unicode {a b c d : UInt8} {x : Blob} :
      isx a ≠ 0xff → isx b ≠ 0xff → isx c ≠ 0xff → isx d ≠ 0xff → StringTail x →
        StringTail (backslash :: letterU :: a :: b :: c :: d :: x)

/-- A value in one piece, by the kind of array it can stand in. -/
inductive Token : ArrayMode → Blob → Prop
  | string {x : Blob} : StringTail x → Token .string (quote :: x)
  | number {c : UInt8} {x : Blob} :
      isDigit c ∨ c = minus → (∀ d ∈ x, inNumber d) → Token .numbers (c :: x)
  | boolean {w : Blob} : iequals w wordTrue = true ∨ iequals w wordFalse = true → Token .booleans w
  | null {w : Blob} : iequals w wordNull = true → Token .undefined w

/-- Where a handler stands. -/
inductive Phase where
  | start
  | name
  | separator
  | value
  | afterValue
  | array
  | afterElement (k : ArrayMode)
  | element (k : ArrayMode)
  deriving DecidableEq

/-- The phase that the variables of a handler stand for. -/
def Local.phase {A : Type} (l : Local A) : Phase :=
  match l.state with
  | .lookupForSectionStart => .start
  | .lookupForName => .name
  | .waitingSeparator => .separator
  | .wonderAfterSeparator => .value
  | .wonderAfterValue => .afterValue
  | .wonderArray => .array
  | .arrayAfterValue => .afterElement l.arrayMode
  | .arrayWaitingValue => .element l.arrayMode

/-- The piece leads from one phase to the next. -/
inductive Move : Phase → Blob → Phase → Prop
  | start : Move .start [openBrace] .name
  | name {x : Blob} : StringTail x → Move .name (quote :: x) .separator
  | separator : Move .separator [colon] .value
  | scalar {k : ArrayMode} {x : Blob} : Token k x → Move .value x .afterValue
  | beginArray : Move .value [openBracket] .array
  | nextName : Move .afterValue [comma] .name
  | emptyArray : Move .array [closeBracket] .afterValue
  | first {k : ArrayMode} {x : Blob} : Token k x → k ≠ .undefined → Move .array x (.afterElement k)
  | nextElement (k : ArrayMode) : Move (.afterElement k) [comma] (.element k)
  | endArray (k : ArrayMode) : Move (.afterElement k) [closeBracket] .afterValue
  | next {k : ArrayMode} {x : Blob} :
      Token k x → k ≠ .undefined → Move (.element k) x (.afterElement k)

/-- A section may stand here, and this is where it leads. -/
inductive Opens : Phase → Phase → Prop
  | value : Opens .value .afterValue
  | first : Opens .array (.afterElement .sections)
  | next : Opens (.element .sections) (.afterElement .sections)

/-- The section may end here. -/
inductive Last : Phase → Prop
  | name : Last .name
  | afterValue : Last .afterValue

/-- What may follow a value: a number and a word are read as far as they go. -/
def Follows : ArrayMode → Blob → Prop
  | .numbers, a => ∃ c x, a = c :: x ∧ ¬ inNumber c
  | .booleans, a => ∃ c x, a = c :: x ∧ ¬ inWord c
  | .undefined, a => ∃ c x, a = c :: x ∧ ¬ inWord c
  | .string, _ => True
  | .sections, _ => True

/-- What a handler comes to on the text from a phase on: the text behind the brace that ends its
    section, or nothing when the text breaks off before that. -/
inductive Reads : Phase → Blob → Option Blob → Prop
  | space {p : Phase} {c : UInt8} {it : Blob} {res : Option Blob} :
      isSpace c → Reads p it res → Reads p (c :: it) res
  | move {p q : Phase} {y it : Blob} {res : Option Blob} :
      Move p y q → (∀ k, Token k y → Follows k it) → Reads q it res → Reads p (y ++ it) res
  | object {p q : Phase} {rest it : Blob} {res : Option Blob} :
      Opens p q → Reads .name rest (some it) → Reads q it res → Reads p (openBrace :: rest) res
  | close {p : Phase} {it : Blob} : Last p → Reads p (closeBrace :: it) (some it)
  | ended {p : Phase} : Reads p [] none
  | stalled {p q : Phase} {w : Blob} :
      Opens p q → (∀ c ∈ w, isSpace c) → Reads p (openBrace :: w) none

/-- White space and one object that is closed, with anything behind it. -/
def Complete (text : Blob) : Prop :=
  ∃ w rest it, text = w ++ openBrace :: rest ∧ (∀ c ∈ w, isSpace c) ∧ Reads .name rest (some it)

/-- The text ends between two pieces, with the object not begun or not closed. -/
def BreaksOff (text : Blob) : Prop :=
  Reads .start text none

/-- From behind its opening quote, a string that breaks off inside a code point, with three of the
    four digits. -/
def ShortString : Blob → Prop
  | [] => False
  | c :: rest =>
    if c = quote then False
    else if c = backslash then
      match rest with
      | [] => False
      | e :: rest =>
        if e = letterU then
          match rest with
          | [a, b, c] => isx a ≠ 0xff ∧ isx b ≠ 0xff ∧ isx c ≠ 0xff
          | a :: b :: c :: d :: rest =>
            isx a ≠ 0xff ∧ isx b ≠ 0xff ∧ isx c ≠ 0xff ∧ isx d ≠ 0xff ∧ ShortString rest
          | _ => False
        else ShortString rest
    else ShortString rest

/-! ## Pieces are told apart by their first character -/

/-- A fact about one character is checked for all of them. -/
theorem forall_uint8 {P : UInt8 → Prop} (h : ∀ n : Fin 256, P (UInt8.ofNat n)) (c : UInt8) :
    P c := by
  have hc := h ⟨c.toNat, c.toNat_lt⟩
  rwa [UInt8.ofNat_toNat] at hc

theorem isSpace_plain : ∀ c, isSpace c →
    ¬ inNumber c ∧ ¬ inWord c ∧ c ≠ quote ∧ c ≠ openBrace ∧ c ≠ closeBrace ∧ c ≠ comma ∧ c ≠ colon ∧
      c ≠ openBracket ∧ c ≠ closeBracket :=
  forall_uint8 (by decide +kernel)

theorem digit_or_minus_plain : ∀ c, isDigit c ∨ c = minus →
    inNumber c ∧ ¬ inWord c ∧ ¬ isSpace c ∧ c ≠ quote ∧ c ≠ openBrace ∧ c ≠ closeBrace ∧
      c ≠ openBracket ∧ c ≠ closeBracket :=
  forall_uint8 (by decide +kernel)

theorem inWord_plain : ∀ c, inWord c →
    ¬ isSpace c ∧ ¬ isDigit c ∧ c ≠ minus ∧ c ≠ quote ∧ c ≠ openBrace ∧ c ≠ closeBrace ∧
      c ≠ openBracket ∧ c ≠ closeBracket :=
  forall_uint8 (by decide +kernel)

/-- The keywords. -/
def keywords : List Blob :=
  [wordTrue, wordFalse, wordNull]

/-- The characters of a keyword are letters. -/
theorem word_of_iequals {w lower : Blob} (h : iequals w lower = true) (hlower : lower ∈ keywords) :
    w ≠ [] ∧ ∀ c ∈ w, inWord c := by
  have hmap : w.map (fun c => if 0x41 ≤ c ∧ c ≤ 0x5a then c + 0x20 else c) = lower := by
    simpa [iequals] using h
  have hfold : ∀ c : UInt8, inWord (if 0x41 ≤ c ∧ c ≤ 0x5a then c + 0x20 else c) → inWord c :=
    forall_uint8 (by decide +kernel)
  have hletters : ∀ k ∈ keywords, k ≠ [] ∧ ∀ c ∈ k, inWord c := by decide +kernel
  constructor
  · rintro rfl
    exact (hletters lower hlower).1 hmap.symm
  · intro c hc
    exact hfold c ((hletters lower hlower).2 _ (hmap ▸ mem_map_of_mem hc))

theorem iequals_unique {w a b : Blob} (ha : iequals w a = true) (hb : iequals w b = true) :
    a = b := by
  rw [iequals, beq_iff_eq] at ha hb
  exact ha.symm.trans hb

variable {k : ArrayMode}

/-- The three keywords. -/
theorem token_word {w : Blob} (h : Token k w) (hk : k = .booleans ∨ k = .undefined) :
    w ≠ [] ∧ ∀ c ∈ w, inWord c := by
  cases h with
  | string hx | number hc hx => simp at hk
  | boolean hw =>
    rcases hw with hw | hw
    · exact word_of_iequals hw (by simp [keywords])
    · exact word_of_iequals hw (by simp [keywords])
  | null hw => exact word_of_iequals hw (by simp [keywords])

/-- The first character of a value in one piece. -/
theorem Token.head {y : Blob} (h : Token k y) :
    ∃ c x, y = c :: x ∧ (k = .string ∧ c = quote ∨ k = .numbers ∧ (isDigit c ∨ c = minus) ∨
      (k = .booleans ∨ k = .undefined) ∧ inWord c) := by
  have hword (hk : k = .booleans ∨ k = .undefined) : ∃ c x, y = c :: x ∧ inWord c := by
    rcases token_word h hk with ⟨hne, hall⟩
    rcases exists_cons_of_ne_nil hne with ⟨c, x, rfl⟩
    exact ⟨c, x, rfl, hall c mem_cons_self⟩
  cases h with
  | string hx => exact ⟨_, _, rfl, .inl ⟨rfl, rfl⟩⟩
  | number hc hx => exact ⟨_, _, rfl, .inr (.inl ⟨rfl, hc⟩)⟩
  | boolean hw | null hw => simpa using hword (by simp)

theorem Token.cons_head {c : UInt8} {x : Blob} (h : Token k (c :: x)) :
    c = quote ∨ (isDigit c ∨ c = minus) ∨ inWord c := by
  rcases h.head with ⟨d, y, hd, ⟨-, hc⟩ | ⟨-, hc⟩ | ⟨-, hc⟩⟩
  · exact .inl ((cons.inj hd).1.trans hc)
  · exact .inr (.inl ((cons.inj hd).1 ▸ hc))
  · exact .inr (.inr ((cons.inj hd).1 ▸ hc))

/-- No value in one piece starts with a space or with a character of the structure. -/
theorem Token.head_plain {y : Blob} (h : Token k y) :
    ∃ c x, y = c :: x ∧ ¬ isSpace c ∧ c ≠ openBrace ∧ c ≠ closeBrace ∧ c ≠ openBracket ∧
      c ≠ closeBracket := by
  rcases h.head with ⟨c, x, rfl, ⟨-, rfl⟩ | ⟨-, hc⟩ | ⟨-, hc⟩⟩
  · exact ⟨_, x, rfl, by decide⟩
  · have := digit_or_minus_plain c hc
    exact ⟨c, x, rfl, by tauto⟩
  · have := inWord_plain c hc
    exact ⟨c, x, rfl, by tauto⟩

variable {y y' a b : Blob}

/-- Two runs of the same characters in front of a text are one. -/
theorem run_unique {P : UInt8 → Prop} (h : y ++ a = y' ++ b) (hy : ∀ c ∈ y, P c)
    (hy' : ∀ c ∈ y', P c) (ha : ∃ c x, a = c :: x ∧ ¬ P c) (hb : ∃ c x, b = c :: x ∧ ¬ P c) :
    y = y' := by
  rcases ha with ⟨ca, xa, rfl, hca⟩
  rcases hb with ⟨cb, xb, rfl, hcb⟩
  rcases append_eq_append_iff.mp h with ⟨d, rfl, hd⟩ | ⟨d, rfl, hd⟩
  · cases d with
    | nil => exact (append_nil y).symm
    | cons c d =>
      cases hd
      exact absurd (hy' ca (by simp)) hca
  · cases d with
    | nil => exact append_nil y'
    | cons c d =>
      cases hd
      exact absurd (hy cb (by simp)) hcb

theorem StringTail.unique (hy : StringTail y) (hy' : StringTail y')
    (h : y ++ a = y' ++ b) : y = y' := by
  induction hy generalizing y' with
  | close =>
    cases hy' with
    | close => rfl
    | plain hc _ _ => exact absurd (cons.inj h).1.symm hc
    | escape _ _ | unicode _ _ _ _ _ => exact absurd (cons.inj h).1 (by decide)
  | plain hc hc' _ ih =>
    cases hy' with
    | close => exact absurd (cons.inj h).1 hc
    | plain _ _ hx =>
      simp only [cons_append, cons.injEq] at h
      rw [h.1, ih hx h.2]
    | escape _ _ | unicode _ _ _ _ _ => exact absurd (cons.inj h).1 hc'
  | escape hc _ ih =>
    cases hy' with
    | close => exact absurd (cons.inj h).1 (by decide)
    | plain _ hc' _ => exact absurd (cons.inj h).1.symm hc'
    | escape _ hx =>
      simp only [cons_append, cons.injEq, true_and] at h
      rw [h.1, ih hx h.2]
    | unicode _ _ _ _ _ =>
      rcases cons.inj h with ⟨-, h⟩
      exact absurd (cons.inj h).1 hc
  | unicode _ _ _ _ _ ih =>
    cases hy' with
    | close => exact absurd (cons.inj h).1 (by decide)
    | plain _ hc' _ => exact absurd (cons.inj h).1.symm hc'
    | escape hc _ =>
      rcases cons.inj h with ⟨-, h⟩
      exact absurd (cons.inj h).1.symm hc
    | unicode _ _ _ _ hx =>
      simp only [cons_append, cons.injEq, true_and] at h
      rcases h with ⟨ha, hb, hc, hd, h⟩
      rw [ha, hb, hc, hd, ih hx h]

/-- Two values that start alike are of one kind, or both are words. -/
theorem Token.alike {k k' : ArrayMode} {c : UInt8} {x x' : Blob} (h : Token k (c :: x))
    (h' : Token k' (c :: x')) :
    k = k' ∨ (k = .booleans ∨ k = .undefined) ∧ (k' = .booleans ∨ k' = .undefined) := by
  rcases h.head with ⟨_, _, ⟨⟩, ⟨rfl, hc⟩ | ⟨rfl, hc⟩ | ⟨hk, hc⟩⟩
  · rcases h'.head with ⟨_, _, ⟨⟩, ⟨rfl, -⟩ | ⟨-, hc'⟩ | ⟨-, hc'⟩⟩
    · exact .inl rfl
    · exact absurd hc (digit_or_minus_plain _ hc').2.2.2.1
    · exact absurd hc (inWord_plain _ hc').2.2.2.1
  · rcases h'.head with ⟨_, _, ⟨⟩, ⟨-, hc'⟩ | ⟨rfl, -⟩ | ⟨-, hc'⟩⟩
    · exact absurd hc' (digit_or_minus_plain _ hc).2.2.2.1
    · exact .inl rfl
    · exact absurd hc' (digit_or_minus_plain _ hc).2.1
  · rcases h'.head with ⟨_, _, ⟨⟩, ⟨-, hc'⟩ | ⟨-, hc'⟩ | ⟨hk', -⟩⟩
    · exact absurd hc' (inWord_plain _ hc).2.2.2.1
    · exact absurd hc (digit_or_minus_plain _ hc').2.1
    · exact .inr ⟨hk, hk'⟩

theorem follows_word {a : Blob} (hk : k = .booleans ∨ k = .undefined) :
    Follows k a ↔ ∃ c x, a = c :: x ∧ ¬ inWord c := by
  rcases hk with rfl | rfl
  · exact Iff.rfl
  · exact Iff.rfl

/-- A word is one keyword only. -/
theorem not_boolean_of_null {w : Blob} (h : Token .undefined w) : ¬ Token .booleans w := by
  cases h with
  | null hw =>
    rintro (_ | _ | (hw' | hw'))
    · exact absurd (iequals_unique hw hw') (by decide)
    · exact absurd (iequals_unique hw hw') (by decide)

theorem Token.unique {k k' : ArrayMode} (hy : Token k y) (hy' : Token k' y')
    (h : y ++ a = y' ++ b) (ha : Follows k a) (hb : Follows k' b) : y = y' ∧ k = k' := by
  have hwords (hk : k = .booleans ∨ k = .undefined) (hk' : k' = .booleans ∨ k' = .undefined) :
      y = y' :=
    run_unique h (token_word hy hk).2 (token_word hy' hk').2 ((follows_word hk).mp ha)
      ((follows_word hk').mp hb)
  rcases hy.head with ⟨c, x, rfl, -⟩
  rcases hy'.head with ⟨c', x', rfl, -⟩
  rcases cons.inj h with ⟨rfl, htail⟩
  rcases hy.alike hy' with rfl | ⟨hk, hk'⟩
  · refine ⟨?_, rfl⟩
    cases hy with
    | string hx =>
      cases hy' with
      | string hx' => rw [hx.unique hx' htail]
    | number _ hx =>
      cases hy' with
      | number _ hx' => rw [run_unique htail hx hx' ha hb]
    | boolean _ => exact hwords (.inl rfl) (.inl rfl)
    | null _ => exact hwords (.inr rfl) (.inr rfl)
  · have heq := hwords hk hk'
    rw [← heq] at hy'
    refine ⟨heq, ?_⟩
    rcases hk with rfl | rfl
    · rcases hk' with rfl | rfl
      · rfl
      · exact absurd hy (not_boolean_of_null hy')
    · rcases hk' with rfl | rfl
      · exact absurd hy' (not_boolean_of_null hy)
      · rfl

theorem Move.head {p q : Phase} {y : Blob} (h : Move p y q) :
    ∃ c x, y = c :: x ∧ ¬ isSpace c ∧ c ≠ closeBrace ∧ (p = .start ∨ c ≠ openBrace) := by
  have htoken {k : ArrayMode} {y : Blob} (h : Token k y) :
      ∃ c x, y = c :: x ∧ ¬ isSpace c ∧ c ≠ closeBrace ∧ (p = .start ∨ c ≠ openBrace) := by
    rcases h.head_plain with ⟨c, x, rfl, hspace, hopen, hclose, -, -⟩
    exact ⟨c, x, rfl, hspace, hclose, .inr hopen⟩
  cases h with
  | start => exact ⟨_, _, rfl, by decide, by decide, .inl rfl⟩
  | name _ | separator => exact ⟨_, _, rfl, by decide, by decide, .inr (by decide)⟩
  | scalar h => exact htoken h
  | beginArray | nextName | emptyArray => exact ⟨_, _, rfl, by decide, by decide, .inr (by decide)⟩
  | first h _ => exact htoken h
  | nextElement | endArray => exact ⟨_, _, rfl, by decide, by decide, .inr (by decide)⟩
  | next h _ => exact htoken h

/-- Two pieces in front of one text are the same piece. -/
theorem Move.unique {p q q' : Phase} (hy : Move p y q) (hy' : Move p y' q')
    (h : y ++ a = y' ++ b) (ha : ∀ k, Token k y → Follows k a)
    (hb : ∀ k, Token k y' → Follows k b) : y = y' ∧ q = q' := by
  -- A character of the structure starts no value.
  have hbracket {k : ArrayMode} {c : UInt8} {y a b : Blob} (ht : Token k y) (h : y ++ a = c :: b) :
      c ≠ openBracket ∧ c ≠ closeBracket := by
    rcases ht.head_plain with ⟨d, x, rfl, -, -, -, hopen, hclose⟩
    rw [← (cons.inj h).1]
    exact ⟨hopen, hclose⟩
  cases hy with
  | start =>
    cases hy'
    exact ⟨rfl, rfl⟩
  | name hx =>
    cases hy' with
    | name hx' => rw [hx.unique hx' (cons.inj h).2]; exact ⟨rfl, rfl⟩
  | separator =>
    cases hy'
    exact ⟨rfl, rfl⟩
  | scalar ht =>
    cases hy' with
    | scalar ht' => exact ⟨(ht.unique ht' h (ha _ ht) (hb _ ht')).1, rfl⟩
    | beginArray => exact absurd rfl (hbracket ht h).1
  | beginArray =>
    cases hy' with
    | scalar ht' => exact absurd rfl (hbracket ht' h.symm).1
    | beginArray => exact ⟨rfl, rfl⟩
  | nextName =>
    cases hy'
    exact ⟨rfl, rfl⟩
  | emptyArray =>
    cases hy' with
    | emptyArray => exact ⟨rfl, rfl⟩
    | first ht' _ => exact absurd rfl (hbracket ht' h.symm).2
  | first ht _ =>
    cases hy' with
    | emptyArray => exact absurd rfl (hbracket ht h).2
    | first ht' _ =>
      rcases ht.unique ht' h (ha _ ht) (hb _ ht') with ⟨rfl, rfl⟩
      exact ⟨rfl, rfl⟩
  | nextElement k =>
    cases hy' with
    | nextElement => exact ⟨rfl, rfl⟩
    | endArray => exact absurd (cons.inj h).1 (by decide)
  | endArray k =>
    cases hy' with
    | nextElement => exact absurd (cons.inj h).1 (by decide)
    | endArray => exact ⟨rfl, rfl⟩
  | next ht _ =>
    cases hy' with
    | next ht' _ => exact ⟨(ht.unique ht' h (ha _ ht) (hb _ ht')).1, rfl⟩

/-! ## A text is read in one way -/

section Reading

variable {p q : Phase} {c : UInt8} {x it rest w : Blob} {res res' : Option Blob}

theorem Opens.ne_start (h : Opens p q) : p ≠ .start := by
  cases h <;> exact nofun

theorem Opens.functional {q' : Phase} (h : Opens p q) (h' : Opens p q') : q = q' := by
  cases h with
  | value | first | next =>
    cases h'
    rfl

theorem Reads.of_space (h : Reads p (c :: it) res) (hc : isSpace c) : Reads p it res := by
  have hplain := isSpace_plain c hc
  generalize hcx : c :: it = t at h
  cases h with
  | space _ hx =>
    cases hcx
    exact hx
  | move hm _ _ =>
    rcases hm.head with ⟨d, t, rfl, hd, -⟩
    exact absurd ((cons.inj hcx).1 ▸ hc) hd
  | object _ _ _ | stalled _ _ => exact absurd (cons.inj hcx).1 hplain.2.2.2.1
  | close _ => exact absurd (cons.inj hcx).1 hplain.2.2.2.2.1
  | ended => cases hcx

theorem Reads.of_spaces (h : Reads p w res) (hw : ∀ c ∈ w, isSpace c) : res = none := by
  induction w with
  | nil =>
    generalize hw : ([] : Blob) = t at h
    cases h with
    | move hm _ _ =>
      rcases hm.head with ⟨d, t, rfl, -⟩
      cases hw
    | ended => rfl
    | space _ _ | object _ _ _ | close _ | stalled _ _ => cases hw
  | cons c w ih =>
    rw [forall_mem_cons] at hw
    exact ih (h.of_space hw.1) hw.2

theorem Reads.of_move {y t : Blob} (h : Reads p t res) (hm : Move p y q)
    (hfollows : ∀ k, Token k y → Follows k it) (heq : y ++ it = t) : Reads q it res := by
  rcases hm.head with ⟨c, x, rfl, hspace, hclose, hopen⟩
  -- Only a phase that is no start can open a section, and there no piece starts with a brace.
  have hbrace {q' : Phase} (ho : Opens p q') (heq : c = openBrace) : False :=
    hopen.elim ho.ne_start fun hne => hne heq
  cases h with
  | space hc _ => exact absurd ((cons.inj heq).1 ▸ hc) hspace
  | move hm' hfollows' hx =>
    rcases hm.unique hm' heq hfollows hfollows' with ⟨rfl, rfl⟩
    rw [append_cancel_left heq]
    exact hx
  | object ho _ _ | stalled ho _ => exact (hbrace ho (cons.inj heq).1).elim
  | close _ => exact absurd (cons.inj heq).1 hclose
  | ended => cases heq

theorem Reads.of_object (h : Reads p (openBrace :: rest) res) (ho : Opens p q) :
    (∃ it, Reads .name rest (some it) ∧ Reads q it res) ∨
      (∀ c ∈ rest, isSpace c) ∧ res = none := by
  generalize ht : openBrace :: rest = t at h
  cases h with
  | space hc _ => exact absurd ((cons.inj ht).1 ▸ hc) (by decide)
  | move hm _ _ =>
    rcases hm.head with ⟨c, x, rfl, -, -, hopen⟩
    exact (hopen.elim ho.ne_start fun hne => hne (cons.inj ht).1.symm).elim
  | object ho' hname hx =>
    cases ht
    rw [ho.functional ho']
    exact .inl ⟨_, hname, hx⟩
  | close _ => exact absurd (cons.inj ht).1 (by decide)
  | ended => cases ht
  | stalled _ hw =>
    cases ht
    exact .inr ⟨hw, rfl⟩

theorem Reads.of_close (h : Reads p (closeBrace :: it) res) : res = some it := by
  generalize ht : closeBrace :: it = t at h
  cases h with
  | space hc _ => exact absurd ((cons.inj ht).1 ▸ hc) (by decide)
  | move hm _ _ =>
    rcases hm.head with ⟨c, x, rfl, -, hclose, -⟩
    exact absurd (cons.inj ht).1.symm hclose
  | object _ _ _ | stalled _ _ => exact absurd (cons.inj ht).1 (by decide)
  | close _ =>
    cases ht
    rfl
  | ended => cases ht

/-- The grammar is deterministic. -/
theorem Reads.unique (h : Reads p x res) (h' : Reads p x res') : res = res' := by
  induction h generalizing res' with
  | space hc _ ih => exact ih (h'.of_space hc)
  | move hm hfollows _ ih => exact ih (h'.of_move hm hfollows rfl)
  | object ho hname _ ihname ih =>
    rcases h'.of_object ho with ⟨it, hname', hx⟩ | ⟨hw, -⟩
    · cases ihname hname'
      exact ih hx
    · cases hname.of_spaces hw
  | close _ => exact h'.of_close.symm
  | ended => exact (h'.of_spaces nofun).symm
  | stalled ho hw =>
    rcases h'.of_object ho with ⟨it, hname, -⟩ | ⟨-, hres⟩
    · cases hname.of_spaces hw
    · exact hres.symm

theorem Reads.length_lt (h : Reads p x (some it)) : it.length < x.length := by
  generalize hres : some it = res at h
  induction h generalizing it with
  | space _ _ ih => exact (ih hres).trans (Nat.lt_succ_self _)
  | move _ _ _ ih =>
    rw [length_append]
    exact (ih hres).trans_le (Nat.le_add_left _ _)
  | object _ _ _ ihname ih => exact (ih hres).trans ((ihname rfl).trans (Nat.lt_succ_self _))
  | close _ =>
    cases hres
    exact Nat.lt_succ_self _
  | ended | stalled _ _ => cases hres

/-- A section that breaks off leaves its caller right behind the brace. Unless only white space is
    left there, the caller meets the quote of a name, which it cannot read. -/
theorem Reads.stall (h : Reads .name x none) (ho : Opens p q) (h' : Reads q x res) :
    (∀ c ∈ x, isSpace c) ∧ res = none := by
  generalize hname : Phase.name = n at h
  generalize hnone : (none : Option Blob) = r at h
  induction h with
  | space hc _ ih =>
    rcases ih (h'.of_space hc) hname hnone with ⟨hall, hres⟩
    exact ⟨forall_mem_cons.mpr ⟨hc, hall⟩, hres⟩
  | @move _ _ y it _ hm _ _ _ =>
    subst hname
    cases hm with
    | @name x hx =>
      generalize ht : quote :: x ++ it = t at h'
      cases h' with
      | space hc _ => exact absurd ((cons.inj ht).1 ▸ hc) (by decide)
      | move hm' _ _ =>
        cases ho with
        | value =>
          cases hm'
          exact absurd (cons.inj ht).1 (by decide)
        | first | next => cases hm' <;> exact absurd (cons.inj ht).1 (by decide)
      | object _ _ _ | close _ | stalled _ _ => exact absurd (cons.inj ht).1 (by decide)
      | ended => cases ht
  | object ho _ _ _ _ | stalled ho _ =>
    subst hname
    cases ho
  | close _ => cases hnone
  | ended => exact ⟨nofun, h'.of_spaces nofun⟩

/-- White space in front of the first brace. -/
theorem complete_iff (text : Blob) : Complete text ↔ ∃ it, Reads .start text (some it) := by
  constructor
  · rintro ⟨w, rest, it, rfl, hw, h⟩
    refine ⟨it, ?_⟩
    induction w with
    | nil => exact .move (y := [openBrace]) .start (fun k ht => absurd ht.cons_head (by decide)) h
    | cons c w ih =>
      rw [forall_mem_cons] at hw
      exact .space hw.1 (ih hw.2)
  · rintro ⟨it, h⟩
    generalize hp : Phase.start = p at h
    generalize hres : some it = res at h
    induction h with
    | space hc _ ih =>
      rcases ih hp hres with ⟨w, rest, it', rfl, hw, h⟩
      exact ⟨_ :: w, rest, it', rfl, forall_mem_cons.mpr ⟨hc, hw⟩, h⟩
    | move hm _ h _ =>
      subst hp hres
      cases hm
      exact ⟨[], _, it, rfl, nofun, h⟩
    | object ho _ _ _ _ | stalled ho _ => exact absurd hp.symm ho.ne_start
    | close hl =>
      subst hp
      cases hl
    | ended => cases hres

end Reading

/-! ## The scanners -/

section Scanning

variable {σ : Type} {it : Blob} {r : Run σ}

/-- A position at the end was looked at exactly for a string that is too short, where `it` is the
    part of the last one that is still to be read. -/
def Tracks (it : Blob) (r : Run σ) : Prop :=
  0 ∈ r.derefs ∨ ShortString it ↔ ∃ t ∈ r.strings, ShortString t

/-- A failure that is one of the source. -/
def Fails (e : Problem) (r : Run σ) : Prop :=
  e ≠ .spent ∧ Tracks [] r

/-- The call returns with `Q`, or fails as the source does, and no string is left to be read. -/
abbrev Keeps {α : Type} (m : Parser σ α) (r : Run σ) (Q : α → Prop) : Prop :=
  Ends m r (fun a r' => Q a ∧ Tracks [] r') Fails

theorem Tracks.nil_iff (h : Tracks [] r) : 0 ∈ r.derefs ↔ ∃ t ∈ r.strings, ShortString t := by
  simpa [Tracks, ShortString] using h

theorem Tracks.congr {it' : Blob} (h : Tracks it r) (hiff : ShortString it ↔ ShortString it') :
    Tracks it' r := by
  rw [Tracks, ← hiff]
  exact h

theorem Tracks.fails {e : Problem} (h : Tracks it r) (hlong : ¬ ShortString it) (he : e ≠ .spent) :
    Fails e r :=
  ⟨he, h.congr (iff_of_false hlong id)⟩

theorem deref_ends {Q : UInt8 → Run σ → Prop} {E : Problem → Run σ → Prop} {c : UInt8} {x : Blob}
    (hr : Tracks it r) (h : ∀ r', Tracks it r' → Q c r') : Ends (deref (c :: x)) r Q E := by
  apply h
  simpa [Tracks] using hr

theorem check_ends {p : Prop} [Decidable p] {e : Problem} {Q : Unit → Run σ → Prop}
    {E : Problem → Run σ → Prop} (hyes : p → Q () r) (hno : ¬ p → E e r) : Ends (check p e) r Q E :=
  Ends.ite (fun hp => Ends.pure (hyes hp)) fun hp => Ends.throw (hno hp)

theorem spanChars_ends (p : UInt8 → Prop) [DecidablePred p] (e : Problem) (he : e ≠ .spent)
    (it : Blob) (hr : Tracks [] r) :
    Keeps (spanChars p e it) r fun a =>
      it = a.1 ++ a.2 ∧ (∀ c ∈ a.1, p c) ∧ ∃ c x, a.2 = c :: x ∧ ¬ p c := by
  induction it generalizing r with
  | nil => exact Ends.throw ⟨he, hr⟩
  | cons c rest ih =>
    refine Ends.bind (deref_ends hr fun r' hr' => Ends.ite (fun hc => ?_) fun hc => ?_)
    · refine Ends.then (ih hr') ?_
      rintro ⟨val, next⟩ r'' ⟨⟨heq, hall, hnext⟩, hr''⟩
      exact Ends.pure ⟨⟨congrArg _ heq, forall_mem_cons.mpr ⟨hc, hall⟩, hnext⟩, hr''⟩
    · exact Ends.pure ⟨⟨rfl, nofun, c, rest, rfl, hc⟩, hr'⟩

theorem matchWord2_ends (it : Blob) (hr : Tracks [] r) :
    Keeps (matchWord2 it) r fun a => it = a.1 ++ a.2 ∧ ∃ c x, a.2 = c :: x ∧ ¬ inWord c := by
  refine Ends.then (spanChars_ends inWord .wrongWord nofun it hr) ?_
  rintro ⟨val, next⟩ r' ⟨⟨heq, -, hnext⟩, hr'⟩
  refine Ends.bind (check_ends (fun _ => Ends.pure ⟨⟨heq, hnext⟩, hr'⟩) fun _ => ⟨nofun, hr'⟩)

/-- A value was read, and this follows it. -/
def Scalar (k : ArrayMode) (it next : Blob) : Prop :=
  ∃ y, it = y ++ next ∧ Token k y ∧ Follows k next

/-- A number is read as far as it goes. -/
theorem matchNumber2_ends {c : UInt8} {rest : Blob} (hc : isDigit c ∨ c = minus)
    (hr : Tracks [] r) :
    Keeps (matchNumber2 (c :: rest)) r fun a => Scalar .numbers (c :: rest) a.2 := by
  refine Ends.bind (deref_ends hr fun r' hr' => Ends.ite (fun hminus => ?_) fun hminus => ?_)
  · refine Ends.then (spanChars_ends inNumber .wrongNumber nofun rest hr') ?_
    rintro ⟨val, next⟩ r'' ⟨⟨heq, hall, hnext⟩, hr''⟩
    exact Ends.pure ⟨⟨c :: val, congrArg _ heq, .number hc hall, hnext⟩, hr''⟩
  · refine Ends.then (spanChars_ends inNumber .wrongNumber nofun (c :: rest) hr') ?_
    rintro ⟨val, next⟩ r'' ⟨⟨heq, hall, hnext⟩, hr''⟩
    refine Ends.bind (check_ends (fun hne => Ends.pure ⟨⟨val, heq, ?_, hnext⟩, hr''⟩)
      fun _ => ⟨nofun, hr''⟩)
    rcases exists_cons_of_ne_nil hne with ⟨d, x, rfl⟩
    have hd : c = d := (cons.inj heq).1
    exact .number (hd ▸ hc) fun e he => hall e (mem_cons_of_mem d he)

theorem readNumber_ends {D : Type} (strtod : Blob → Option D) {c : UInt8} {rest : Blob}
    (hc : isDigit c ∨ c = minus) (hr : Tracks [] r) :
    Keeps (readNumber strtod (c :: rest)) r fun a => Scalar .numbers (c :: rest) a.2 := by
  refine Ends.then (matchNumber2_ends hc hr) ?_
  rintro ⟨val, next⟩ r' ⟨⟨y, heq, htoken, d, x, rfl, hd⟩, hr'⟩
  -- The character that ends the number is there to be read.
  refine Ends.bind (deref_ends hr' fun r'' hr'' => ?_)
  cases numberValue strtod (c :: rest) val with
  | none => exact Ends.throw ⟨nofun, hr''⟩
  | some v => exact Ends.pure ⟨⟨y, heq, htoken, d, x, rfl, hd⟩, hr''⟩

/-! The scanner of strings goes through the cases of `ShortString`. -/

theorem not_shortString_quote (x : Blob) : ¬ ShortString (quote :: x) := by
  rw [ShortString.eq_def]
  simp

theorem shortString_plain {c : UInt8} (hq : c ≠ quote) (hb : c ≠ backslash) (x : Blob) :
    ShortString (c :: x) ↔ ShortString x := by
  conv_lhs => rw [ShortString.eq_def]
  simp [hq, hb]

theorem shortString_escape {c : UInt8} (hu : c ≠ letterU) (x : Blob) :
    ShortString (backslash :: c :: x) ↔ ShortString x := by
  conv_lhs => rw [ShortString.eq_def]
  simp [hu, show backslash ≠ quote by decide]

/-- The tail of a string behind its first piece. -/
theorem tail_cons {y rest : Blob} {a : Blob × Blob} {r : Run σ}
    (hy : ∀ x, StringTail x → StringTail (y ++ x))
    (h : (∃ x, rest = x ++ a.2 ∧ StringTail x) ∧ Tracks [] r) :
    (∃ x, y ++ rest = x ++ a.2 ∧ StringTail x) ∧ Tracks [] r := by
  rcases h with ⟨⟨x, hx, htail⟩, hr⟩
  exact ⟨⟨y ++ x, by rw [hx, append_assoc], hy x htail⟩, hr⟩

/-- One digit of a code point. -/
theorem scan_hex_ends {more dst : Nat} {val rest : Blob} {d : UInt8}
    {Q : Blob × Blob → Run σ → Prop} (hr : Tracks it r) (hlong : isx d = 0xff → ¬ ShortString it)
    (h : isx d ≠ 0xff → ∀ r', Tracks it r' → Ends (match more with
      | 0 => scan .plain (val ++ encodeUtf8 (dst * 16 + (isx d).toNat)) rest
      | more + 1 => scan (.hex more (dst * 16 + (isx d).toNat)) val rest) r' Q Fails) :
    Ends (scan (.hex more dst) val (d :: rest)) r Q Fails := by
  refine Ends.bind (deref_ends hr fun r' hr' => Ends.bind ?_)
  exact check_ends (fun hd => h hd r' hr') fun hd => hr'.fails (hlong (not_not.mp hd)) nofun

/-- A code point in front of a text of three digits or more. -/
theorem scan_unicode_ends {val rest : Blob} {Q : Blob × Blob → Run σ → Prop} (hr : Tracks it r)
    (hlen : rest.length < 3 → ¬ ShortString it)
    (h : 3 ≤ rest.length → ∀ r', Tracks it r' → Ends (scan (.hex 3 0) val rest) r' Q Fails) :
    Ends (scan .plain val (backslash :: letterU :: rest)) r Q Fails := by
  refine Ends.bind (deref_ends hr fun r' hr' => ?_)
  refine Ends.bind (deref_ends hr' fun r'' hr'' => ?_)
  refine Ends.bind (check_ends (fun hl => ?_) fun hl => ?_)
  · exact h (by simpa using hl) r'' hr''
  · refine hr''.fails (hlen ?_) nofun
    simpa using hl

/-- The scanner reads a string to its quote, and to the end of the text one that is too short. -/
theorem scan_ends (val it : Blob) (hr : Tracks it r) :
    Keeps (scan .plain val it) r fun a => ∃ x, it = x ++ a.2 ∧ StringTail x := by
  fun_induction ShortString it generalizing val r with
  | case1 => exact Ends.throw ⟨nofun, hr⟩
  | case2 rest =>
    refine Ends.bind (deref_ends hr fun r' hr' => ?_)
    exact Ends.pure ⟨⟨[quote], rfl, .close⟩, hr'.congr (iff_of_false (not_shortString_quote _) id)⟩
  | case3 _ =>
    refine Ends.bind (deref_ends hr fun r' hr' => ?_)
    exact Ends.throw (hr'.fails (by simp [ShortString]) nofun)
  | case4 a b c _ =>
    refine scan_unicode_ends hr nofun fun _ r₀ hr => ?_
    refine scan_hex_ends hr (by simp_all [ShortString]) fun ha r₁ hr => ?_
    refine scan_hex_ends hr (by simp_all [ShortString]) fun hb r₂ hr => ?_
    refine scan_hex_ends hr (by simp_all [ShortString]) fun hc r₃ hr => ?_
    -- The fourth digit is looked for behind the text.
    have hshort : ShortString [backslash, letterU, a, b, c] := by
      simp [ShortString, ha, hb, hc, show backslash ≠ quote by decide]
    exact ⟨nofun, iff_of_true (.inl mem_cons_self) (hr.mp (.inr hshort))⟩
  | case5 a b c d rest _ ih =>
    refine scan_unicode_ends hr (fun h => absurd h (by simp)) fun _ r₀ hr => ?_
    have hiff : ShortString (backslash :: letterU :: a :: b :: c :: d :: rest) ↔
      isx a ≠ 0xff ∧ isx b ≠ 0xff ∧ isx c ≠ 0xff ∧ isx d ≠ 0xff ∧ ShortString rest := by
      simp [ShortString, show backslash ≠ quote by decide]
    refine scan_hex_ends hr (by simp_all [ShortString]) fun ha r₁ hr => ?_
    refine scan_hex_ends hr (by simp_all [ShortString]) fun hb r₂ hr => ?_
    refine scan_hex_ends hr (by simp_all [ShortString]) fun hc r₃ hr => ?_
    refine scan_hex_ends hr (by simp_all [ShortString]) fun hd r₄ hr => ?_
    refine Ends.mono (ih _ (hr.congr (by simp [hiff, ha, hb, hc, hd]))) ?_ fun _ _ h => h
    intro _ r' h
    exact tail_cons (y := [backslash, letterU, a, b, c, d]) (fun x => .unicode ha hb hc hd) h
  | case6 rest h3 h4 _ =>
    refine scan_unicode_ends hr (by simp [ShortString]) fun hlen => ?_
    match rest, hlen with
    | [a, b, c], _ => exact (h3 a b c rfl).elim
    | a :: b :: c :: d :: rest, _ => exact (h4 a b c d rest rfl).elim
  | case7 e rest hu _ ih =>
    refine Ends.bind (deref_ends hr fun r₁ hr => ?_)
    refine Ends.bind (deref_ends hr fun r₂ hr => Ends.ite (fun h => absurd h hu) fun _ => ?_)
    refine Ends.mono (ih _ (hr.congr (shortString_escape hu _))) ?_ fun _ _ h => h
    intro a r' h
    exact tail_cons (y := [backslash, e]) (fun x hx => .escape hu hx) h
  | case8 c rest hq hb ih =>
    refine Ends.bind (deref_ends hr fun r₁ hr => ?_)
    refine Ends.ite (fun h => absurd h hq) fun _ => Ends.ite (fun h => absurd h hb) fun _ => ?_
    refine Ends.mono (ih _ (hr.congr (shortString_plain hq hb _))) ?_ fun _ _ h => h
    intro a r' h
    exact tail_cons (y := [c]) (fun x hx => .plain hq hb hx) h

theorem verbatim_ends (it : Blob) (hr : Tracks it r) :
    Ends (verbatim it) r (fun a r' => (it = a.1 ++ a.2 ∧ ∀ c ∈ a.1, c ≠ quote ∧ c ≠ backslash) ∧
      Tracks a.2 r') Fails := by
  have hplain : ∀ c, lut c &&& 32 = 0 → c ≠ quote ∧ c ≠ backslash :=
    forall_uint8 (by decide +kernel)
  induction it generalizing r with
  | nil => exact Ends.pure ⟨⟨rfl, nofun⟩, hr⟩
  | cons c rest ih =>
    refine Ends.bind (deref_ends hr fun r' hr' => Ends.ite (fun hc => ?_) fun hc => ?_)
    · have hc' := hplain c hc
      refine Ends.then (ih (hr'.congr (shortString_plain hc'.1 hc'.2 _))) ?_
      rintro ⟨val, next⟩ r'' ⟨⟨heq, hall⟩, hr''⟩
      exact Ends.pure ⟨⟨congrArg _ heq, forall_mem_cons.mpr ⟨hc', hall⟩⟩, hr''⟩
    · exact Ends.pure ⟨⟨rfl, nofun⟩, hr'⟩

theorem stringTail_append {v x : Blob} (hv : ∀ c ∈ v, c ≠ quote ∧ c ≠ backslash)
    (hx : StringTail x) : StringTail (v ++ x) := by
  induction v with
  | nil => exact hx
  | cons c v ih =>
    rw [forall_mem_cons] at hv
    exact .plain hv.1.1 hv.1.2 (ih hv.2)

theorem matchString2_ends {rest : Blob} (hr : Tracks [] r) :
    Keeps (matchString2 (quote :: rest)) r fun a => Scalar .string (quote :: rest) a.2 := by
  have hpushed : Tracks rest { r with strings := rest :: r.strings } := by
    simp [Tracks, hr.nil_iff, or_comm]
  refine Ends.bind (Ends.then (verbatim_ends rest hpushed) ?_)
  rintro ⟨val, next⟩ r' ⟨⟨heq, hval⟩, hr'⟩
  refine Ends.mono (scan_ends val next hr') ?_ fun _ _ h => h
  rintro ⟨v, next'⟩ r'' h
  rcases tail_cons (fun x => stringTail_append hval) h with ⟨⟨x, hx, htail⟩, hr''⟩
  exact ⟨⟨quote :: x, congrArg _ (heq.trans hx), .string htail, trivial⟩, hr''⟩

end Scanning

/-! ## One turn of the loop -/

/-- What a turn does in a phase. -/
inductive Turned {A : Type} (p : Phase) : Blob → Turn A → Prop
  | space {c : UInt8} {l : Local A} {it : Blob} :
      isSpace c → l.phase = p → Turned p (c :: it) (.go l it)
  | move {y : Blob} {l : Local A} {it : Blob} :
      Move p y l.phase → (∀ k, Token k y → Follows k it) → Turned p (y ++ it) (.go l it)
  | enter {rest : Blob} {l : Local A} {res : Option Blob} : Opens p l.phase → Reads .name rest res →
      Turned p (openBrace :: rest) (.go l (res.getD rest))
  | closed {it : Blob} : Last p → Turned p (closeBrace :: it) (.closed it)

theorem Token.follows_all {y a : Blob} (h : Token k y) (ha : Follows k a) :
    ∀ k', Token k' y → Follows k' a := by
  intro k' h'
  rcases h.head with ⟨c, x, rfl, -⟩
  rcases h.alike h' with rfl | ⟨hk, hk'⟩
  · exact ha
  · exact (follows_word hk').mpr ((follows_word hk).mp ha)

section Turns

variable {σ S A D β : Type} {rest : Blob} {r : Run σ} {c : UInt8} {l : Local A}
  {st : Storage σ S A D} {inner : S → Blob → Parser σ (Option Blob)} {sec : Option S}

theorem insist_ends {op : σ → Option (β × σ)} {Q : β → Run σ → Prop} (hr : Tracks [] r)
    (h : ∀ b r', Tracks [] r' → Q b r') : Ends (insist op) r Q (Fails) := by
  rw [Ends, insist]
  cases op r.storage with
  | none => exact ⟨fun h => by { cases h }, hr⟩
  | some b => exact h b.1 _ hr

theorem modify_ends {f : σ → σ} {Q : Unit → Run σ → Prop} (hr : Tracks [] r)
    (h : ∀ r', Tracks [] r' → Q () r') :
    Ends (modify fun r => { r with storage := f r.storage } : Parser σ Unit) r Q (Fails) :=
  h _ hr

theorem insertNext_ends {v : Value D} {Q : Unit → Run σ → Prop} (hr : Tracks [] r)
    (h : ∀ r', Tracks [] r' → Q () r') : Ends (insertNext st l v) r Q (Fails) := by
  rw [insertNext]
  cases l.hArray with
  | none => exact Ends.throw ⟨nofun, hr⟩
  | some a => exact insist_ends hr fun _ => h

theorem booleanValue_ends {word next : Blob} {Q : Value D → Run σ → Prop}
    (hnext : ∃ c x, next = c :: x ∧ ¬ inWord c) (hr : Tracks [] r)
    (h : ∀ v, Scalar .booleans (word ++ next) next → Q v r) :
    Ends (booleanValue word) r Q (Fails) := by
  refine Ends.ite (fun htrue => ?_) fun _ => Ends.ite (fun hfalse => ?_) fun _ => ?_
  · exact Ends.pure (h _ ⟨word, rfl, .boolean (.inl htrue), hnext⟩)
  · exact Ends.pure (h _ ⟨word, rfl, .boolean (.inr hfalse), hnext⟩)
  · exact Ends.throw ⟨nofun, hr⟩

theorem skipSpace_ends (hr : Tracks [] r) :
    Keeps (skipSpace c l (c :: rest)) r (Turned l.phase (c :: rest)) :=
  Ends.bind (check_ends (fun hc => Ends.pure ⟨.space hc rfl, hr⟩) fun _ => ⟨nofun, hr⟩)

/-- A character of the structure. -/
theorem turned_char {p : Phase} {it : Blob} (hm : Move p [c] l.phase)
    (hc : ¬ (c = quote ∨ (isDigit c ∨ c = minus) ∨ inWord c)) : Turned p (c :: it) (.go l it) :=
  Turned.move (y := [c]) hm fun _ ht => absurd ht.cons_head hc

/-- A value in one piece. -/
theorem Scalar.turned {p : Phase} {k : ArrayMode} {it next : Blob} (h : Scalar k it next)
    (hm : ∀ {y}, Token k y → Move p y l.phase) : Turned p it (.go l next) := by
  rcases h with ⟨y, rfl, htoken, hfollows⟩
  exact .move (hm htoken) (htoken.follows_all hfollows)

/-- The handlers for the sections inside do what a handler does. -/
def InnerEnds (inner : S → Blob → Parser σ (Option Blob)) : Prop :=
  ∀ sec rest r, Tracks [] r →
    Keeps (inner sec (openBrace :: rest)) r (Reads .name rest)

section

variable (hinner : InnerEnds inner)
include hinner

theorem enterSection_ends (new : S) (hr : Tracks [] r) :
    Keeps (enterSection inner new (openBrace :: rest)) r fun it =>
      ∃ res, Reads .name rest res ∧ it = res.getD rest := by
  refine Ends.then (hinner new rest r hr) ?_
  rintro res r' ⟨hres, hr'⟩
  exact Ends.pure ⟨⟨res, hres, rfl⟩, hr'⟩

theorem afterSeparator_ends (hphase : l.phase = .value)
    (hr : Tracks [] r) :
    Keeps (afterSeparator st inner sec l c (c :: rest)) r (Turned l.phase (c :: rest)) := by
  have hset {k : ArrayMode} {next : Blob} {f : σ → σ} {r' : Run σ} (h : Scalar k (c :: rest) next)
      (hr' : Tracks [] r') :
      Keeps (do
        modify fun r => { r with storage := f r.storage }
        pure (.go { l with state := .wonderAfterValue } next)) r' (Turned l.phase (c :: rest)) := by
    rw [hphase]
    exact Ends.bind (modify_ends hr' fun r'' hr'' => Ends.pure ⟨h.turned .scalar, hr''⟩)
  refine Ends.ite (fun hquote => ?_) fun _ => ?_
  · subst hquote
    exact Ends.then (matchString2_ends hr) fun _ _ h => hset h.1 h.2
  refine Ends.ite (fun hdigit => ?_) fun _ => ?_
  · exact Ends.then (readNumber_ends st.strtod hdigit hr) fun _ _ h => hset h.1 h.2
  refine Ends.ite (fun _ => ?_) fun _ => ?_
  · refine Ends.then (matchWord2_ends (c :: rest) hr) ?_
    rintro ⟨word, next⟩ r' ⟨⟨hword, hnext⟩, hr'⟩
    rw [hword] at hset ⊢
    refine Ends.ite (fun hnull => ?_) fun _ => ?_
    · rw [hphase]
      have hscalar : Scalar .undefined (word ++ next) next := ⟨word, rfl, .null hnull, hnext⟩
      exact Ends.pure ⟨hscalar.turned .scalar, hr'⟩
    · exact Ends.bind (booleanValue_ends hnext hr' fun v hscalar => hset hscalar hr')
  rw [hphase]
  refine Ends.ite (fun hopen => ?_) fun _ => ?_
  · subst hopen
    refine Ends.bind (insist_ends hr fun new r' hr' => ?_)
    refine Ends.then (enterSection_ends hinner new hr') ?_
    rintro next r'' ⟨⟨res, hres, rfl⟩, hr''⟩
    exact Ends.pure ⟨.enter .value hres, hr''⟩
  refine Ends.ite (fun hbracket => ?_) fun _ => ?_
  · subst hbracket
    exact Ends.pure ⟨turned_char .beginArray (by decide), hr⟩
  · rw [← hphase]
    exact skipSpace_ends hr

theorem wonderArray_ends (hphase : l.phase = .array)
    (hr : Tracks [] r) :
    Keeps (wonderArray st inner sec l c (c :: rest)) r (Turned l.phase (c :: rest)) := by
  have hinsert {k : ArrayMode} {next : Blob} {op : σ → Option (A × σ)} {r' : Run σ}
      (hk : k ≠ .undefined) (h : Scalar k (c :: rest) next) (hr' : Tracks [] r') :
      Keeps (do
        let a ← insist op
        pure (.go { l with state := .arrayAfterValue, hArray := some a, arrayMode := k } next)) r'
        (Turned l.phase (c :: rest)) := by
    rw [hphase]
    exact Ends.bind (insist_ends hr' fun a r'' hr'' =>
      Ends.pure ⟨h.turned fun ht => .first ht hk, hr''⟩)
  refine Ends.ite (fun _ => Ends.throw ⟨nofun, hr⟩) fun _ => ?_
  refine Ends.ite (fun hopen => ?_) fun _ => ?_
  · subst hopen
    rw [hphase]
    refine Ends.bind (insist_ends hr fun new r' hr' => ?_)
    refine Ends.then (enterSection_ends hinner new.2 hr') ?_
    rintro next r'' ⟨⟨res, hres, rfl⟩, hr''⟩
    exact Ends.pure ⟨.enter .first hres, hr''⟩
  refine Ends.ite (fun hquote => ?_) fun _ => ?_
  · subst hquote
    exact Ends.then (matchString2_ends hr) fun _ _ h => hinsert nofun h.1 h.2
  refine Ends.ite (fun hdigit => ?_) fun _ => ?_
  · exact Ends.then (readNumber_ends st.strtod hdigit hr) fun _ _ h => hinsert nofun h.1 h.2
  refine Ends.ite (fun hclose => ?_) fun _ => ?_
  · subst hclose
    rw [hphase]
    exact Ends.pure ⟨turned_char .emptyArray (by decide), hr⟩
  refine Ends.ite (fun _ => ?_) fun _ => skipSpace_ends hr
  refine Ends.then (matchWord2_ends (c :: rest) hr) ?_
  rintro ⟨word, next⟩ r' ⟨⟨hword, hnext⟩, hr'⟩
  rw [hword] at hinsert ⊢
  exact Ends.bind (booleanValue_ends hnext hr' fun v hscalar => hinsert nofun hscalar hr')

theorem arrayWaiting_ends (hphase : l.phase = .element l.arrayMode)
    (hr : Tracks [] r) :
    Keeps (arrayWaiting st inner l c (c :: rest)) r (Turned l.phase (c :: rest)) := by
  -- The kind of the array stays what it is.
  have hinsert {next : Blob} {v : Value D} {r' : Run σ} (hk : l.arrayMode ≠ .undefined)
      (h : Scalar l.arrayMode (c :: rest) next) (hr' : Tracks [] r') :
      Keeps (do
        insertNext st l v
        pure (.go { l with state := .arrayAfterValue } next)) r' (Turned l.phase (c :: rest)) := by
    rw [hphase]
    exact Ends.bind (insertNext_ends hr' fun r'' hr'' =>
      Ends.pure ⟨h.turned fun ht => .next ht hk, hr''⟩)
  rw [arrayWaiting]
  cases hmode : l.arrayMode with
  | undefined => exact Ends.throw ⟨nofun, hr⟩
  | sections =>
    refine Ends.ite (fun hopen => ?_) fun _ => skipSpace_ends hr
    subst hopen
    cases l.hArray with
    | none => exact Ends.throw ⟨nofun, hr⟩
    | some a =>
      rw [hphase, hmode]
      refine Ends.bind (insist_ends hr fun new r' hr' => ?_)
      refine Ends.then (enterSection_ends hinner new hr') ?_
      rintro next r'' ⟨⟨res, hres, rfl⟩, hr''⟩
      exact Ends.pure ⟨.enter .next hres, hr''⟩
  | string =>
    rw [hmode] at hinsert
    refine Ends.ite (fun hquote => ?_) fun _ => skipSpace_ends hr
    subst hquote
    exact Ends.then (matchString2_ends hr) fun _ _ h => hinsert nofun h.1 h.2
  | numbers =>
    rw [hmode] at hinsert
    refine Ends.ite (fun hdigit => ?_) fun _ => skipSpace_ends hr
    exact Ends.then (readNumber_ends st.strtod hdigit hr) fun _ _ h => hinsert nofun h.1 h.2
  | booleans =>
    rw [hmode] at hinsert
    refine Ends.ite (fun _ => ?_) fun _ => skipSpace_ends hr
    refine Ends.then (matchWord2_ends (c :: rest) hr) ?_
    rintro ⟨word, next⟩ r' ⟨⟨hword, hnext⟩, hr'⟩
    rw [hword] at hinsert ⊢
    exact Ends.bind (booleanValue_ends hnext hr' fun v hscalar => hinsert nofun hscalar hr')

end

theorem step_ends (st : Storage σ S A D) (sec : Option S) (hinner : InnerEnds inner)
    (l : Local A) (hr : Tracks [] r) :
    Keeps (step st inner sec l (c :: rest)) r (Turned l.phase (c :: rest)) := by
  refine Ends.bind (deref_ends hr fun r' hr' => ?_)
  -- A turn at one character of the structure.
  have hchar {l' : Local A} (hc : ¬ (c = quote ∨ (isDigit c ∨ c = minus) ∨ inWord c))
      (hm : Move l.phase [c] l'.phase) :
      Keeps (pure (.go l' rest)) r' (Turned l.phase (c :: rest)) :=
    Ends.pure ⟨turned_char hm hc, hr'⟩
  cases hstate : l.state with
  | lookupForSectionStart =>
    have hphase : l.phase = .start := by rw [Local.phase, hstate]
    refine Ends.ite (fun hopen => ?_) fun _ => skipSpace_ends hr'
    subst hopen
    exact hchar (by decide) (hphase ▸ .start)
  | lookupForName =>
    have hphase : l.phase = .name := by rw [Local.phase, hstate]
    refine Ends.ite (fun hquote => ?_) fun _ => ?_
    · subst hquote
      refine Ends.then (matchString2_ends hr') ?_
      rintro ⟨name, next⟩ r'' ⟨hscalar, hr''⟩
      rw [hphase]
      refine Ends.pure ⟨hscalar.turned ?_, hr''⟩
      rintro _ ⟨htail⟩
      exact .name htail
    · refine Ends.ite (fun hclose => ?_) fun _ => skipSpace_ends hr'
      subst hclose
      rw [hphase]
      exact Ends.pure ⟨.closed .name, hr'⟩
  | waitingSeparator =>
    have hphase : l.phase = .separator := by rw [Local.phase, hstate]
    refine Ends.ite (fun hcolon => ?_) fun _ => skipSpace_ends hr'
    subst hcolon
    exact hchar (by decide) (hphase ▸ .separator)
  | wonderAfterSeparator =>
    exact afterSeparator_ends hinner (by rw [Local.phase, hstate]) hr'
  | wonderAfterValue =>
    have hphase : l.phase = .afterValue := by rw [Local.phase, hstate]
    refine Ends.ite (fun hcomma => ?_) fun _ => ?_
    · subst hcomma
      exact hchar (by decide) (hphase ▸ .nextName)
    · refine Ends.ite (fun hclose => ?_) fun _ => skipSpace_ends hr'
      subst hclose
      rw [hphase]
      exact Ends.pure ⟨.closed .afterValue, hr'⟩
  | wonderArray => exact wonderArray_ends hinner (by rw [Local.phase, hstate]) hr'
  | arrayAfterValue =>
    have hphase : l.phase = .afterElement l.arrayMode := by rw [Local.phase, hstate]
    refine Ends.ite (fun hcomma => ?_) fun _ => ?_
    · subst hcomma
      exact hchar (by decide) (hphase ▸ .nextElement _)
    · refine Ends.ite (fun hclose => ?_) fun _ => skipSpace_ends hr'
      subst hclose
      exact hchar (by decide) (hphase ▸ .endArray _)
  | arrayWaitingValue => exact arrayWaiting_ends hinner (by rw [Local.phase, hstate]) hr'

end Turns

/-! ## The loop -/

section Loop

variable {A : Type} {p : Phase} {it it' : Blob} {res : Option Blob}

/-- A turn moves on. -/
theorem Turned.shorter {l : Local A} (h : Turned p it (.go l it')) : it'.length < it.length := by
  generalize ht : Turn.go l it' = t at h
  cases h with
  | space _ _ =>
    cases ht
    simp
  | move hm _ =>
    cases ht
    rcases hm.head with ⟨c, x, rfl, -⟩
    rw [length_append, length_cons]
    omega
  | @enter rest _ res _ hres =>
    cases ht
    cases res with
    | none => simp
    | some z => exact hres.length_lt.trans (Nat.lt_succ_self _)
  | closed _ => cases ht

/-- What is read from behind a turn is read from in front of it. -/
theorem Turned.reads {l : Local A} (h : Turned p it (.go l it')) (hreads : Reads l.phase it' res) :
    Reads p it res := by
  generalize ht : Turn.go l it' = t at h
  cases h with
  | space hc hphase =>
    cases ht
    exact .space hc (hphase ▸ hreads)
  | move hm hfollows =>
    cases ht
    exact .move hm hfollows hreads
  | @enter rest _ inner ho hinner =>
    cases ht
    cases inner with
    | some z => exact .object ho hinner hreads
    | none =>
      rcases hinner.stall ho hreads with ⟨hall, rfl⟩
      exact .stalled ho hall
  | closed _ => cases ht

theorem Turned.reads_closed (h : Turned (A := A) p it (.closed it')) : Reads p it (some it') := by
  generalize ht : Turn.closed it' = t at h
  cases h with
  | closed hl =>
    cases ht
    exact .close hl
  | space _ _ | move _ _ | enter _ _ => cases ht

end Loop

section Handlers

variable {σ S A D : Type}

theorem runLoop_ends {turn : Local A → Blob → Parser σ (Turn A)}
    (hturn : ∀ l c rest r, Tracks [] r →
      Keeps (turn l (c :: rest)) r (Turned l.phase (c :: rest)))
    (fuel : Nat) (l : Local A) (it : Blob) (r : Run σ) (hfuel : it.length ≤ fuel)
    (hr : Tracks [] r) : Keeps (runLoop turn fuel l it) r (Reads l.phase it) := by
  induction fuel generalizing l it r with
  | zero =>
    cases it with
    | nil => exact Ends.pure ⟨.ended, hr⟩
    | cons c rest => exact absurd hfuel (by simp)
  | succ fuel ih =>
    cases it with
    | nil => exact Ends.pure ⟨.ended, hr⟩
    | cons c rest =>
      refine Ends.then (hturn l c rest r hr) ?_
      rintro t r' ⟨ht, hr'⟩
      cases t with
      | closed it' => exact Ends.pure ⟨ht.reads_closed, hr'⟩
      | go l' it' =>
        have hlen := ht.shorter
        refine Ends.mono (ih l' it' r' (by omega) hr') ?_ fun _ _ h => h
        rintro res r'' ⟨hreads, hr''⟩
        exact ⟨ht.reads hreads, hr''⟩

theorem runHandler_ends (st : Storage σ S A D) (left : Nat) (sec : Option S) (it : Blob)
    (r : Run σ) (hr : Tracks [] r) : Keeps (runHandler st left sec it) r (Reads .start it) := by
  induction left generalizing sec it r with
  | zero => exact Ends.throw ⟨nofun, hr⟩
  | succ left ih =>
    have hinner : InnerEnds fun new => runHandler st left (some new) := by
      intro new rest r' hr'
      refine Ends.mono (ih (some new) (openBrace :: rest) r' hr') ?_ fun _ _ h => h
      rintro res r'' ⟨hreads, hr''⟩
      have hbrace : ∀ k, Token k [openBrace] → Follows k rest :=
        fun k ht => absurd ht.cons_head (by decide)
      exact ⟨hreads.of_move .start hbrace rfl, hr''⟩
    exact runLoop_ends (fun l c rest r' => step_ends st sec hinner l) it.length .start it r
      (le_refl _) hr

/-! ## Every text -/

/-- Where a run leaves its record. -/
def finalRun {α : Type} : EStateM.Result Problem (Run σ) α → Run σ
  | .ok _ r => r
  | .error _ r => r

theorem parse_ends (st : Storage σ S A D) (text : Blob) (storage : σ) :
    Keeps (runHandler st recursionLimit none text) ⟨storage, [], []⟩ (Reads .start text) :=
  runHandler_ends st recursionLimit none text ⟨storage, [], []⟩ (by simp [Tracks, ShortString])

theorem Tracks.forall_pos_iff {r : Run σ} (h : Tracks [] r) :
    (∀ n ∈ r.derefs, 0 < n) ↔ ∀ t ∈ r.strings, ¬ ShortString t := by
  rw [← not_iff_not]
  push Not
  simpa using h.nil_iff

/-- The parser always ends. A text that it accepts holds a complete object exactly when it does not
    break off between two pieces, and no position at the end is looked at exactly when no string
    that the scanner is called on breaks off in its code point. -/
theorem loadFromJson_complete_iff (st : Storage σ S A D) (text : Blob) (storage : σ) :
    (∀ r, parse st text storage ≠ .error .spent r) ∧
      (loadFromJson st text storage = true → (Complete text ↔ ¬ BreaksOff text)) ∧
      ((∀ n ∈ (finalRun (parse st text storage)).derefs, 0 < n) ↔
        ∀ t ∈ (finalRun (parse st text storage)).strings, ¬ ShortString t) := by
  have hends := parse_ends st text storage
  rw [loadFromJson]
  cases hrun : parse st text storage with
  | ok res r =>
    rcases hends.ok hrun with ⟨hreads, htracks⟩
    refine ⟨nofun, fun _ => ?_, htracks.forall_pos_iff⟩
    rw [complete_iff]
    constructor
    · rintro ⟨it, h⟩ hbroken
      cases h.unique hbroken
    · intro hwhole
      cases res with
      | none => exact absurd hreads hwhole
      | some it => exact ⟨it, hreads⟩
  | error e r =>
    rcases hends.error hrun with ⟨hspent, htracks⟩
    refine ⟨?_, nofun, htracks.forall_pos_iff⟩
    rintro r' heq
    cases heq
    exact hspent rfl

end Handlers

/-- A storage that takes everything and keeps nothing. -/
def Storage.forget : Storage Unit Unit Unit Unit where
  setValue := fun _ _ _ _ => ()
  openSection := fun _ _ _ => some ((), ())
  insertFirstSection := fun _ _ _ => some (((), ()), ())
  insertNextSection := fun _ _ => some ((), ())
  insertFirstValue := fun _ _ _ _ => some ((), ())
  insertNextValue := fun _ _ _ => some ((), ())
  strtod := fun _ => some ()

/-- A brace and nothing else is accepted. A string that breaks off inside a code point is read up to
    the position behind the text. -/
theorem broken_text_accepted :
    (loadFromJson .forget [openBrace] () = true ∧ ¬ Complete [openBrace]) ∧
      0 ∈ (finalRun (parse .forget
        [openBrace, quote, backslash, letterU, 0x31, 0x32, 0x33] ())).derefs := by
  refine ⟨⟨rfl, ?_⟩, by decide +kernel⟩
  intro hcomplete
  rcases (complete_iff _).mp hcomplete with ⟨it, h⟩
  have hrun : parse .forget [openBrace] () = .ok none ⟨(), [1], []⟩ := rfl
  cases h.unique ((parse_ends .forget [openBrace] ()).ok hrun).1

end Json

end CocaineNode
