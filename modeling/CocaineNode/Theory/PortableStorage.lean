import CocaineNode.Core.PortableStorage

/-!
# Portable Storage Read Back

What the writer of portable storage writes for a section, the reader reads back
as that section, unless one of its precautions is stricter than the writer.

The one that is, is the least number of bytes for each element of an array. For
a string the reader asks for two bytes. An empty string is written with one, so
an array of empty strings is refused where too few bytes follow it.

The argument follows the writer. `Answers` says what a call does on the bytes
that were written for it, with what follows them in the buffer as a parameter:
it returns the value exactly when some condition holds, and it leaves the
counters where the value puts them. The rules for a sequence and for an open
call collect these conditions, and `Section.Loads` is what they come to.

## Theorems

* `readSection_answers`: What the reader does on the bytes of a section.
* `loadFromBinary_storeToBinary_iff`: Which sections are read back.
-/

namespace CocaineNode

open List Option UInt64 Nat

namespace PortableStorage

open Codec (littleEndian ofLittleEndian)

/-! ## Measures of a tree -/

/-- What is added to the counts of objects, fields and strings. -/
@[ext] structure Tally where
  objects : Nat
  fields : Nat
  strings : Nat
  deriving DecidableEq

namespace Tally

instance : Zero Tally := ⟨⟨0, 0, 0⟩⟩

instance : Add Tally :=
  ⟨fun t u => ⟨t.objects + u.objects, t.fields + u.fields, t.strings + u.strings⟩⟩

@[simp] theorem zero_objects : (0 : Tally).objects = 0 := rfl

@[simp] theorem zero_fields : (0 : Tally).fields = 0 := rfl

@[simp] theorem zero_strings : (0 : Tally).strings = 0 := rfl

@[simp] theorem add_objects (t u : Tally) : (t + u).objects = t.objects + u.objects := rfl

@[simp] theorem add_fields (t u : Tally) : (t + u).fields = t.fields + u.fields := rfl

@[simp] theorem add_strings (t u : Tally) : (t + u).strings = t.strings + u.strings := rfl

@[simp] theorem add_zero (t : Tally) : t + 0 = t := rfl

@[simp] theorem zero_add (t : Tally) : 0 + t = t := by
  ext <;> simp

/-- What is added to one of the counts. -/
def count (t : Tally) : Counter → Nat
  | .objects => t.objects
  | .fields => t.fields
  | .strings => t.strings

theorem add_count (t u : Tally) (c : Counter) : (t + u).count c = t.count c + u.count c := by
  cases c <;> rfl

end Tally

mutual

/-- What a section adds to the counts. The section itself is counted where it is made. -/
def Section.tally : Section → Tally
  | .mk es => ⟨0, es.length, 0⟩ + tallyEntries es

def tallyEntries : List (Blob × StorageEntry) → Tally
  | [] => 0
  | (_, e) :: es => e.tally + tallyEntries es

def StorageEntry.tally : StorageEntry → Tally
  | .pod _ _ => 0
  | .string _ => ⟨0, 0, 1⟩
  | .object s => ⟨1, 0, 0⟩ + s.tally
  | .array a => a.tally

def ArrayEntry.tally : ArrayEntry → Tally
  | .pods _ _ => 0
  | .strings l => ⟨0, 0, l.length⟩
  | .objects l => ⟨l.length, 0, 0⟩ + tallySections l
  | .arrays l => tallyArrays l

def tallySections : List Section → Tally
  | [] => 0
  | s :: l => s.tally + tallySections l

def tallyArrays : List ArrayEntry → Tally
  | [] => 0
  | a :: l => a.tally + tallyArrays l

end

mutual

/-- The number of calls of the reader that are open at once while a section is read. Reading a size
    takes four of them, reading a name three, and reading a string five. -/
def Section.frames : Section → Nat
  | .mk es => 1 + max 4 (framesEntries es)

def framesEntries : List (Blob × StorageEntry) → Nat
  | [] => 0
  | (_, e) :: es => max (max 3 (1 + max 2 e.frames)) (framesEntries es)

def StorageEntry.frames : StorageEntry → Nat
  | .pod _ _ => 3
  | .string _ => 7
  | .object s => 1 + s.frames
  | .array a => a.frames

def ArrayEntry.frames : ArrayEntry → Nat
  | .pods _ _ => 6
  | .strings l => if l = [] then 6 else 8
  | .objects l => 2 + max 4 (framesSections l)
  | .arrays _ => 6

def framesSections : List Section → Nat
  | [] => 0
  | s :: l => max (1 + s.frames) (framesSections l)

end

mutual

/-- The names of the entries are in order, none of them is empty or too long, and no count is too
    large for a size. -/
def Section.WellFormed : Section → Prop
  | .mk es => es.length < 2 ^ 62 ∧ (es.map Prod.fst).Pairwise (· < ·) ∧ WellFormedEntries es

def WellFormedEntries : List (Blob × StorageEntry) → Prop
  | [] => True
  | (name, e) :: es =>
    (1 ≤ name.length ∧ name.length ≤ 254) ∧ e.WellFormed ∧ WellFormedEntries es

def StorageEntry.WellFormed : StorageEntry → Prop
  | .pod _ _ => True
  | .string s => s.length < 2 ^ 62
  | .object s => s.WellFormed
  | .array a => a.WellFormed

def ArrayEntry.WellFormed : ArrayEntry → Prop
  | .pods _ l => l.length < 2 ^ 62
  | .strings l => l.length < 2 ^ 62 ∧ ∀ s ∈ l, s.length < 2 ^ 62
  | .objects l => l.length < 2 ^ 62 ∧ WellFormedSections l
  | .arrays l => l.length < 2 ^ 62 ∧ WellFormedArrays l

def WellFormedSections : List Section → Prop
  | [] => True
  | s :: l => s.WellFormed ∧ WellFormedSections l

def WellFormedArrays : List ArrayEntry → Prop
  | [] => True
  | a :: l => a.WellFormed ∧ WellFormedArrays l

end

/-- The length of what was written. -/
def packedLength (bytes : Option Blob) : Nat :=
  bytes.elim 0 List.length

mutual

/-- What the reader asks of a section with so many bytes behind it: strings are not too long, an
    array of strings has two bytes for each of them in front of the end of the buffer, and an array
    of arrays is empty. -/
def Section.Loads : Section → Nat → Prop
  | .mk es, after => LoadsEntries es after

def LoadsEntries : List (Blob × StorageEntry) → Nat → Prop
  | [], _ => True
  | (_, e) :: es, after => e.Loads (packedLength (packEntries es) + after) ∧ LoadsEntries es after

def StorageEntry.Loads : StorageEntry → Nat → Prop
  | .pod _ _, _ => True
  | .string s, _ => s.length < maxStringLen
  | .object s, after => s.Loads after
  | .array a, after => a.Loads after

def ArrayEntry.Loads : ArrayEntry → Nat → Prop
  | .pods _ _, _ => True
  | .strings l, after =>
    2 * l.length ≤ packedLength (packStrings l) + after ∧ ∀ s ∈ l, s.length < maxStringLen
  | .objects l, after => LoadsSections l after
  | .arrays l, _ => l = []

def LoadsSections : List Section → Nat → Prop
  | [], _ => True
  | s :: l, after => s.Loads (packedLength (packSections l) + after) ∧ LoadsSections l after

end

/-! ## What a call does on the bytes written for a value -/

/-- There is room below the limits for so many open calls and such a tally. -/
structure BufferReader.Fits (r : BufferReader) (budget : Nat) (t : Tally) : Prop where
  count : r.count = r.ptr.length
  depth : r.recursionCount + budget < recursionLimit
  room : ∀ c, (r.counted c).toNat + t.count c ≤ (r.limit c).toNat

/-- The reader in front of `rest`, with the tally added. -/
def BufferReader.after (r : BufferReader) (rest : Blob) (t : Tally) (notes : List Note) :
    BufferReader :=
  { r with
    ptr := rest
    count := rest.length
    objects := r.objects + UInt64.ofNat t.objects
    fields := r.fields + UInt64.ofNat t.fields
    strings := r.strings + UInt64.ofNat t.strings
    notes := notes }

/-- On `bytes`, with `rest` behind them, the call returns `a` exactly when `ok` holds. -/
def Answers {α : Type} (p : Reader α) (bytes rest : Blob) (a : α) (budget : Nat) (t : Tally)
    (ok : Prop) : Prop :=
  ∀ r : BufferReader, r.ptr = bytes ++ rest → r.Fits budget t →
    (ok → ∃ notes, p r = .ok a (r.after rest t notes)) ∧ (¬ ok → ∀ c s, p r ≠ .ok c s)

variable {n : Nat}

theorem toNat_add_ofNat {x m : UInt64} (h : x.toNat + n ≤ m.toNat) :
    (x + UInt64.ofNat n).toNat = x.toNat + n := by
  have hm : m.toNat < 2 ^ 64 := m.toNat_lt
  rw [UInt64.toNat_add, UInt64.toNat_ofNat', add_mod_mod, mod_eq_of_lt (by omega)]

namespace BufferReader

variable {r : BufferReader} {b c : Nat} {t u : Tally}

theorem Fits.mono (h : r.Fits b (t + u)) (hc : c ≤ b) : r.Fits c t where
  count := h.count
  depth := by
    have := h.depth
    omega
  room := by
    intro i
    have := h.room i
    rw [Tally.add_count] at this
    omega

variable (rest : Blob) (notes : List Note) (i : Counter)

theorem counted_after :
    (r.after rest t notes).counted i = r.counted i + UInt64.ofNat (t.count i) := by
  cases i <;> rfl

theorem limit_after : (r.after rest t notes).limit i = r.limit i := by
  cases i <;> rfl

/-- What is left of the room after a part was read. -/
theorem Fits.after (h : r.Fits b (t + u)) (rest : Blob) (notes : List Note) :
    (r.after rest t notes).Fits b u := by
  refine ⟨rfl, h.depth, fun i => ?_⟩
  have hroom := h.room i
  rw [Tally.add_count] at hroom
  rw [counted_after, limit_after, toNat_add_ofNat (m := r.limit i) (by omega)]
  omega

theorem after_after (r : BufferReader) (mid rest : Blob) (t u : Tally) (n m : List Note) :
    (r.after mid t n).after rest u m = r.after rest (t + u) m := by
  simp only [after, Tally.add_objects, Tally.add_fields, Tally.add_strings,
    UInt64.ofNat_add, UInt64.add_assoc]

/-- A call that reads nothing leaves the reader as it was, but for the record. -/
theorem after_zero (hcount : r.count = r.ptr.length) (rest : Blob) (hptr : r.ptr = rest)
    (notes : List Note) : r.after rest 0 notes = { r with notes := notes } := by
  rw [after, ← hptr, ← hcount]
  simp

end BufferReader

namespace Answers

variable {α β : Type} {p : Reader α} {f : α → Reader β} {x y rest : Blob} {a : α} {c : β}
  {b k : Nat} {t u v : Tally} {ok ok' : Prop}

section

variable (h : Answers p x rest a b t ok)
include h

theorem congr (hok : ok ↔ ok') : Answers p x rest a b t ok' := by
  rw [← propext hok]
  exact h

theorem mono (hk : b ≤ k) : Answers p x rest a k t ok := by
  intro r hptr hfits
  have hfits' : r.Fits k (t + 0) := hfits
  exact h r hptr (hfits'.mono hk)

theorem adapt (hk : b ≤ k) (hu : t = u) (hok : ok ↔ ok') : Answers p x rest a k u ok' := by
  rw [← hu]
  exact (h.mono hk).congr hok

end

theorem pure (a : α) (rest : Blob) (b : Nat) : Answers (pure a : Reader α) [] rest a b 0 True := by
  intro r hptr hfits
  refine ⟨fun _ => ⟨r.notes, ?_⟩, absurd trivial⟩
  rw [BufferReader.after_zero hfits.count rest hptr]
  rfl

/-- One part after the other. -/
theorem bind (hp : Answers p x (y ++ rest) a b t ok) (hf : Answers (f a) y rest c b u ok')
    (hv : t + u = v) : Answers (p >>= f) (x ++ y) rest c b v (ok ∧ ok') := by
  intro r hptr hfits
  rw [← hv] at hfits ⊢
  rw [append_assoc] at hptr
  rcases hp r hptr (hfits.mono (le_refl b)) with ⟨hyes, hno⟩
  by_cases hok : ok
  · rcases hyes hok with ⟨notes, hrun⟩
    rcases hf (r.after (y ++ rest) t notes) rfl (hfits.after _ _) with ⟨hyes', hno'⟩
    rw [Throwing.bind_of_ok hrun]
    constructor
    · rintro ⟨-, hok'⟩
      rcases hyes' hok' with ⟨notes', hrun'⟩
      exact ⟨notes', by rw [hrun', BufferReader.after_after]⟩
    · intro hnot
      exact hno' fun h => hnot ⟨hok, h⟩
  · refine ⟨fun h => absurd h.1 hok, ?_⟩
    -- The first part already failed.
    intro _ d s hrun
    rcases (Throwing.bind_eq_ok p f r s d).mp hrun with ⟨a', mid, hfirst, -⟩
    exact hno hok a' mid hfirst

theorem map (g : α → β) (hp : Answers p x rest a b t ok) :
    Answers (do let v ← p; Pure.pure (g v)) x rest (g a) b t ok := by
  have hall : Answers (do let v ← p; Pure.pure (g v)) (x ++ []) rest (g a) b t (ok ∧ True) :=
    bind hp (pure (g a) rest b) (Tally.add_zero t)
  rw [append_nil] at hall
  exact hall.congr (and_iff_left trivial)

/-- An open call takes one more of the calls that are allowed. -/
theorem limited (hp : Answers p x rest a b t ok) : Answers (limited p) x rest a (b + 1) t ok := by
  intro r hptr hfits
  have hdepth : r.enter.recursionCount < recursionLimit := by
    have := hfits.depth
    change r.recursionCount + 1 < recursionLimit
    omega
  have hbody : r.enter.Fits b t := by
    refine ⟨hfits.count, ?_, hfits.room⟩
    have := hfits.depth
    change r.recursionCount + 1 + b < recursionLimit
    omega
  rcases hp r.enter hptr hbody with ⟨hyes, hno⟩
  rw [PortableStorage.limited, if_pos hdepth]
  constructor
  · intro hok
    rcases hyes hok with ⟨notes, hrun⟩
    exact ⟨notes, by rw [hrun]; rfl⟩
  · intro hnot d s hrun
    cases hres : p r.enter with
    | ok a' s' => exact hno hnot a' s' hres
    | error e s' =>
      rw [hres] at hrun
      cases hrun

/-- A check of the reader that depends on its state. -/
theorem checked {q : BufferReader → Prop} [∀ r, Decidable (q r)] {body : Reader α}
    (hbody : Answers body x rest a b t ok')
    (hq : ∀ r : BufferReader, r.ptr = x ++ rest → r.Fits b t → (q r ↔ ok)) :
    Answers (do check (q (← get)); body) x rest a b t (ok ∧ ok') := by
  intro r hptr hfits
  have hiff : q r ↔ ok := hq r hptr hfits
  have hrun : (do check (q (← get)); body : Reader α) r =
      if q r then body r else .error .threw r := by
    split_ifs with h
    · change (check (q r) >>= fun _ => body : Reader α) r = _
      rw [check, if_pos h]
      rfl
    · change (check (q r) >>= fun _ => body : Reader α) r = _
      rw [check, if_neg h]
      rfl
  rw [hrun]
  split_ifs with h
  · rcases hbody r hptr hfits with ⟨hyes, hno⟩
    exact ⟨fun hok => hyes hok.2, fun hnot => hno fun h' => hnot ⟨hiff.mp h, h'⟩⟩
  · refine ⟨fun hok => absurd (hiff.mpr hok.1) h, ?_⟩
    intro _ d s hres
    cases hres

/-- The check of a value. -/
theorem checking {q : Prop} [Decidable q] {body : Reader α} (hbody : Answers body x rest a b t ok) :
    Answers (do check q; body) x rest a b t (q ∧ ok) :=
  checked (q := fun _ => q) hbody fun _ _ _ => Iff.rfl

theorem takeBytes (x rest : Blob) (b : Nat) : Answers (takeBytes x.length) x rest x b 0 True := by
  intro r hptr hfits
  refine ⟨fun _ => ⟨.access r.ptr.length x.length :: r.notes, ?_⟩, absurd trivial⟩
  have htake : r.ptr.take x.length = x := by
    rw [hptr, take_left]
  have hdrop : r.ptr.drop x.length = rest := by
    rw [hptr, drop_left]
  have hcount : r.count - x.length = rest.length := by
    rw [hfits.count, hptr, length_append]
    omega
  rw [PortableStorage.takeBytes, htake, hdrop, hcount, BufferReader.after]
  simp

/-- One part after the other, where the first always returns. -/
theorem seq (hp : Answers p x (y ++ rest) a b t True) (hf : Answers (f a) y rest c b u ok)
    (hv : t + u = v) : Answers (p >>= f) (x ++ y) rest c b v ok :=
  (bind hp hf hv).congr (and_iff_right trivial)

/-- A part that takes no bytes, at the end. -/
theorem bind_last (hp : Answers p x rest a b t ok) (hf : Answers (f a) [] rest c b 0 ok') :
    Answers (p >>= f) x rest c b t (ok ∧ ok') := by
  have hall : Answers (p >>= f) (x ++ []) rest c b t (ok ∧ ok') := bind hp hf (Tally.add_zero t)
  rwa [append_nil] at hall

end Answers

/-! ## Scalars, sizes, names and strings -/

/-- The bytes are there, so the check in front of them passes. -/
theorem takeChecked_answers (x rest : Blob) (b : Nat) (hn : n = x.length) :
    Answers (do check (n ≤ (← get).count); takeBytes n) x rest x b 0 True := by
  rw [hn]
  refine Answers.congr (Answers.checked (q := fun r => x.length ≤ r.count)
    (Answers.takeBytes x rest b) ?_) and_self_iff
  intro r hptr hfits
  refine iff_of_true ?_ trivial
  rw [hfits.count, hptr, length_append]
  omega

theorem readRaw_answers (x rest : Blob) (hn : n = x.length) :
    Answers (readRaw n) x rest x 1 0 True :=
  (takeChecked_answers x rest 0 hn).limited

variable (t : PodType) (v : t.Val)

theorem packPod_length : (packPod t v).length = t.size :=
  Codec.littleEndian_length _ _

theorem PodType.card_le : t.card ≤ 256 ^ t.size := by
  cases t <;> decide

theorem ofLittleEndian_packPod : ofLittleEndian (packPod t v) = v.val := by
  rw [packPod, Codec.ofLittleEndian_littleEndian]
  exact mod_eq_of_lt (lt_of_lt_of_le v.isLt t.card_le)

theorem unpackPod_packPod : unpackPod t (packPod t v) = v := by
  apply Fin.ext
  change ofLittleEndian (packPod t v) % t.card = v.val
  rw [ofLittleEndian_packPod, mod_eq_of_lt v.isLt]

theorem readPod_answers (rest : Blob) : Answers (readPod t) (packPod t v) rest v 2 0 True := by
  have hraw : Answers (readRaw t.size) (packPod t v) rest (packPod t v) 1 0 True :=
    readRaw_answers _ rest (packPod_length t v).symm
  have hpure : Answers (pure (unpackPod t (packPod t v))) [] rest v 1 0 True := by
    rw [unpackPod_packPod]
    exact Answers.pure v rest 1
  apply Answers.limited
  by_cases hbool : t = .bool
  · -- A `bool` is 0 or 1, so its byte passes the check.
    have hone : ofLittleEndian (packPod t v) ≤ 1 := by
      have hcard : t.card = 2 := if_pos hbool
      rw [ofLittleEndian_packPod]
      omega
    simp only [if_pos hbool]
    refine Answers.congr (Answers.bind_last hraw hpure.checking) ?_
    simp [hone]
  · simp only [if_neg hbool]
    exact Answers.congr (Answers.bind_last hraw hpure) and_self_iff

theorem readByte_answers (v : UInt8) (rest : Blob) :
    Answers (readPod .uint8) [v] rest ⟨v.toNat, v.toNat_lt⟩ 2 0 True := by
  have h := readPod_answers .uint8 ⟨v.toNat, v.toNat_lt⟩ rest
  have hbytes : packPod .uint8 ⟨v.toNat, v.toNat_lt⟩ = [v] := by
    change [UInt8.ofNat v.toNat] = [v]
    rw [UInt8.ofNat_toNat]
  rwa [hbytes] at h

variable {b : Nat}

theorem readNew_answers {α : Type} {p : Reader α} {x rest : Blob} {a : α} {t : Tally} {ok : Prop}
    (h : Answers p x rest a b t ok) : Answers (readNew p) x rest a (b + 1) t ok :=
  h.limited

/-- The size mark in the two lowest bits. -/
theorem mark_of_ofNat (n m : Nat) (hm : m < 4) :
    UInt8.ofNat (n * 4 + m) &&& 0x03 = UInt8.ofNat m := by
  apply UInt8.toNat_inj.mp
  have hthree : (0x03 : UInt8).toNat = 2 ^ 2 - 1 := rfl
  rw [UInt8.toNat_and, hthree, and_two_pow_sub_one_eq_mod, UInt8.toNat_ofNat', UInt8.toNat_ofNat']
  omega

/-- The size mark in the first byte of a number chooses the type it was written with. -/
theorem readMarked_answers (t : PodType) {n m : Nat} (hlt : n * 4 + m < t.card)
    (hmark : sizeType (UInt8.ofNat m) = t) (hm : m < 4) (rest : Blob) :
    Answers readVarint (littleEndian t.size (n * 4 + m)) rest (UInt64.ofNat n) 4 0 True := by
  change Answers readVarint (packPod t ⟨n * 4 + m, hlt⟩) rest (ofNat n) 4 0 True
  set v : t.Val := ⟨n * 4 + m, hlt⟩
  have hv : v.val / 4 = n := by
    change (n * 4 + m) / 4 = n
    omega
  have hpos : 0 < t.size := by cases t <;> decide
  apply Answers.limited
  have hvalue : Answers (do
      let w ← readNew (readPod t)
      pure (ofNat (w.val / 4))) (packPod t v) rest (ofNat n) 3 0 True := by
    rw [← hv]
    exact Answers.map (fun w : t.Val => ofNat (w.val / 4))
      (readNew_answers (readPod_answers t v rest))
  -- Looking at the first byte does not move the pointer.
  have hpeek : Answers (do
      let b ← peekByte
      let w ← readNew (readPod (sizeType (b &&& 0x03)))
      pure (ofNat (w.val / 4))) (packPod t v) rest (ofNat n) 3 0 True := by
    intro r hptr hfits
    have hhead : sizeType (r.ptr.headD 0 &&& 0x03) = t := by
      rcases exists_eq_add_one.mpr hpos with ⟨k, hk⟩
      rw [hptr, packPod, hk, Codec.littleEndian]
      change sizeType (UInt8.ofNat (n * 4 + m) &&& 0x03) = t
      rw [mark_of_ofNat n m hm, hmark]
    have hrun : (do
        let b ← peekByte
        let w ← readNew (readPod (sizeType (b &&& 0x03)))
        pure (ofNat (w.val / 4)) : Reader UInt64) r =
        (do
          let w ← readNew (readPod t)
          pure (ofNat (w.val / 4)) : Reader UInt64)
          { r with notes := .access r.ptr.length 1 :: r.notes } := by
      rw [Throwing.bind_of_ok (p := peekByte)
        (t := { r with notes := .access r.ptr.length 1 :: r.notes }) rfl, hhead]
    rw [hrun]
    have hfits' : BufferReader.Fits { r with notes := .access r.ptr.length 1 :: r.notes } 3 0 :=
      ⟨hfits.count, hfits.depth, hfits.room⟩
    exact hvalue _ hptr hfits'
  refine Answers.congr (Answers.checked (q := fun r => 1 ≤ r.count) hpeek ?_) and_self_iff
  intro r hptr hfits
  refine iff_of_true ?_ trivial
  rw [hfits.count, hptr, length_append, packPod_length]
  omega

variable {bytes : Blob}

theorem packVarint_lt (h : packVarint n = some bytes) : n < 2 ^ 62 := by
  simp only [packVarint] at h
  split_ifs at h <;> omega

theorem packVarint_isSome (h : n < 2 ^ 62) : ∃ bytes, packVarint n = some bytes := by
  simp only [packVarint]
  split_ifs <;> exact ⟨_, rfl⟩

theorem readVarint_answers (h : packVarint n = some bytes) (rest : Blob) :
    Answers readVarint bytes rest (UInt64.ofNat n) 4 0 True := by
  simp only [packVarint] at h
  split_ifs at h with hbyte hword hdword hlong
  · cases h
    exact readMarked_answers .uint8 (show n * 4 + 0 < 256 ^ 1 by omega) rfl (by decide) rest
  · cases h
    exact readMarked_answers .uint16 (show n * 4 + 1 < 256 ^ 2 by omega) rfl (by decide) rest
  · cases h
    exact readMarked_answers .uint32 (show n * 4 + 2 < 256 ^ 4 by omega) rfl (by decide) rest
  · cases h
    exact readMarked_answers .uint64 (show n * 4 + 3 < 256 ^ 8 by omega) rfl (by decide) rest

theorem toNat_ofNat_size (h : n < 2 ^ 62) : (UInt64.ofNat n).toNat = n := by
  rw [toNat_ofNat', mod_eq_of_lt (by omega)]

theorem readString_answers {s : Blob} (h : putString s = some bytes) (rest : Blob) :
    Answers readString bytes rest s 5 0 (s.length < maxStringLen) := by
  rw [putString, map_eq_some_iff] at h
  rcases h with ⟨size, hsize, rfl⟩
  have hlen : (ofNat s.length).toNat = s.length := toNat_ofNat_size (packVarint_lt hsize)
  apply Answers.limited
  refine Answers.seq (readVarint_answers hsize (s ++ rest)) ?_ (Tally.add_zero 0)
  exact (Answers.checking (takeChecked_answers s rest 4 hlen)).congr (by rw [hlen, and_true])

theorem readSecName_answers {name : Blob} (h : packName name = some bytes) (rest : Blob) :
    Answers readSecName bytes rest name 3 0 True := by
  rw [packName] at h
  split_ifs at h with hname
  cases h
  have hlen : (UInt8.ofNat name.length).toNat = name.length := by
    rw [UInt8.toNat_ofNat', mod_eq_of_lt (by omega)]
  have hpos : 0 < name.length := List.length_pos_iff.mpr hname.2
  apply Answers.limited
  refine Answers.seq (x := [UInt8.ofNat name.length])
    (readByte_answers (UInt8.ofNat name.length) (name ++ rest)) ?_ (Tally.add_zero 0)
  exact (Answers.checking ((readRaw_answers name rest hlen).mono (by decide))).congr
    (by simp only [hlen, hpos, and_self])

/-! ## Counts -/

/-- `n` for one of the counts. -/
def Tally.single (n : Nat) : Counter → Tally
  | .objects => ⟨n, 0, 0⟩
  | .fields => ⟨0, n, 0⟩
  | .strings => ⟨0, 0, n⟩

theorem BufferReader.bump_eq_after {r : BufferReader} (hcount : r.count = r.ptr.length) (n : Nat)
    (c : Counter) (rest : Blob) (hptr : r.ptr = rest) :
    r.bump (UInt64.ofNat n) c = r.after rest (.single n c) r.notes := by
  rw [BufferReader.after, ← hptr, ← hcount]
  cases c <;> simp [BufferReader.bump, Tally.single]

/-- A call that counts, and does nothing else. -/
theorem counts_answers {p : Reader Unit} (c : Counter)
    (hp : ∀ r : BufferReader, (r.counted c).toNat + n ≤ (r.limit c).toNat →
      ∃ notes, p r = .ok () (BufferReader.bump { r with notes := notes } (UInt64.ofNat n) c))
    (rest : Blob) (b : Nat) : Answers p [] rest () b (.single n c) True := by
  intro r hptr hfits
  refine ⟨fun _ => ?_, absurd trivial⟩
  have hroom := hfits.room c
  have hsingle : (Tally.single n c).count c = n := by cases c <;> rfl
  rw [hsingle] at hroom
  rcases hp r hroom with ⟨notes, hrun⟩
  refine ⟨notes, ?_⟩
  rw [hrun, BufferReader.bump_eq_after (r := { r with notes := notes }) hfits.count n c rest hptr]
  rfl

theorem addCount_answers (c : Counter) (hn : n < 2 ^ 62) (rest : Blob) (b : Nat) :
    Answers (addCount c (UInt64.ofNat n)) [] rest () b (.single n c) True := by
  refine counts_answers c (fun r hroom => ?_) rest b
  have hle : ofNat n ≤ r.limit c - r.counted c := by
    have hsub : (r.limit c - r.counted c).toNat = (r.limit c).toNat - (r.counted c).toNat :=
      UInt64.toNat_sub_of_le _ _ (UInt64.le_iff_toNat_le.mpr (by omega))
    rw [le_iff_toNat_le, hsub, toNat_ofNat_size hn]
    omega
  refine ⟨.add (r.counted c) (ofNat n) :: .sub (r.limit c) (r.counted c) :: r.notes, ?_⟩
  change (check (ofNat n ≤ r.limit c - r.counted c) >>= fun _ => _ : Reader Unit) _ = _
  rw [check, if_pos hle]
  rfl

theorem note_answers (n : Note) (rest : Blob) (b : Nat) : Answers (note n) [] rest () b 0 True := by
  intro r hptr hfits
  refine ⟨fun _ => ⟨n :: r.notes, ?_⟩, absurd trivial⟩
  rw [BufferReader.after_zero hfits.count rest hptr]
  rfl

/-- What an array of `n` elements adds to the counts. -/
def elementsTally (type : EntryType) (n : Nat) : Tally :=
  match type with
  | .object => ⟨n, 0, 0⟩
  | .string => ⟨0, 0, n⟩
  | .pod _ | .array => 0

theorem countElements_answers (type : EntryType) (hn : n < 2 ^ 62) (rest : Blob) (b : Nat) :
    Answers (countElements type (UInt64.ofNat n)) [] rest () b (elementsTally type n) True := by
  cases type with
  | pod t => exact Answers.pure () rest b
  | string => exact addCount_answers .strings hn rest b
  | object => exact addCount_answers .objects hn rest b
  | array => exact Answers.pure () rest b

theorem reserveElements_answers (type : EntryType) (n : UInt64) (rest : Blob) (b : Nat) :
    Answers (reserveElements type n) [] rest () b 0 True := by
  rw [reserveElements]
  split_ifs with h
  · exact Answers.pure () rest b
  · exact note_answers _ rest b

/-! ## Arrays -/

namespace Answers

variable {α : Type} {p : Reader α} {x y rest : Blob} {a : α} {as : List α} {n b : Nat}
  {t u v : Tally} {ok ok' : Prop}

theorem times_zero (p : Reader α) (rest : Blob) (b : Nat) :
    Answers (Throwing.times 0 p) [] rest [] b 0 True :=
  pure [] rest b

theorem times_succ (hp : Answers p x (y ++ rest) a b t ok)
    (hrest : Answers (Throwing.times n p) y rest as b u ok') (hv : t + u = v) :
    Answers (Throwing.times (n + 1) p) (x ++ y) rest (a :: as) b v (ok ∧ ok') :=
  bind hp (map (a :: ·) hrest) hv

/-- A call that never returns. -/
theorem never (h : ∀ r c s, p r ≠ .ok c s) : Answers p x rest a b t False :=
  fun r _ _ => ⟨False.elim, fun _ => h r⟩

end Answers

theorem readAe_answers {α : Type} (type : EntryType) {element : Reader α} {size body rest : Blob}
    {l : List α} {t : Tally} {ok : Prop} (hsize : packVarint n = some size) (hb : 4 ≤ b)
    (hbody : Answers (Throwing.times n (readNew element)) body rest l b t ok) :
    Answers (readAe type element) (size ++ body) rest l (b + 1) (elementsTally type n + t)
      (n ≤ (body ++ rest).length / type.minBytes ∧ ok) := by
  have hn : n < 2 ^ 62 := packVarint_lt hsize
  have hlen : (ofNat n).toNat = n := toNat_ofNat_size hn
  have helements : Answers (do
      countElements type (ofNat n)
      reserveElements type (ofNat n)
      Throwing.times (ofNat n).toNat (readNew element)) body rest l b
      (elementsTally type n + t) ok := by
    refine Answers.seq (x := []) (countElements_answers type hn _ b) ?_ rfl
    refine Answers.seq (x := []) (reserveElements_answers type _ _ b) ?_ (Tally.zero_add t)
    rw [hlen]
    exact hbody
  apply Answers.limited
  refine Answers.seq ((readVarint_answers hsize _).mono hb) ?_ (Tally.zero_add _)
  refine Answers.checked (q := fun r => (ofNat n).toNat ≤ r.count / type.minBytes) helements ?_
  intro r hptr hfits
  rw [hlen, hfits.count, hptr]

theorem packPods_length (t : PodType) (l : List t.Val) :
    (l.flatMap (packPod t)).length = l.length * t.size := by
  induction l with
  | nil => simp
  | cons v l ih =>
    rw [flatMap_cons, length_append, ih, packPod_length, length_cons]
    ring

theorem readPods_answers (t : PodType) (l : List t.Val) (rest : Blob) :
    Answers (Throwing.times l.length (readNew (readPod t))) (l.flatMap (packPod t)) rest l 4 0
      True := by
  induction l with
  | nil => exact Answers.times_zero _ rest 4
  | cons v l ih =>
    have hv := ((readNew_answers (readPod_answers t v (l.flatMap (packPod t) ++ rest))).mono
      (by decide : 3 ≤ 4))
    exact (Answers.times_succ hv ih (Tally.add_zero 0)).congr and_self_iff

variable {l : List Blob}

theorem packStrings_isSome (h : ∀ s ∈ l, s.length < 2 ^ 62) :
    ∃ bytes, packStrings l = some bytes := by
  induction l with
  | nil => exact ⟨[], rfl⟩
  | cons s l ih =>
    rcases packVarint_isSome (h s (by simp)) with ⟨size, hsize⟩
    rcases ih fun q hq => h q (by simp [hq]) with ⟨y, hy⟩
    exact ⟨_, by rw [packStrings, putString, hsize, hy]; rfl⟩

theorem readStrings_answers {body : Blob} (h : packStrings l = some body) (rest : Blob) :
    Answers (Throwing.times l.length (readNew readString)) body rest l 6 0
      (∀ s ∈ l, s.length < maxStringLen) := by
  induction l generalizing body with
  | nil =>
    cases h
    exact (Answers.times_zero _ rest 6).congr (by simp)
  | cons s l ih =>
    simp only [packStrings, bind_eq_some_iff, map_eq_some_iff] at h
    rcases h with ⟨x, hx, y, hy, rfl⟩
    have hs := readNew_answers (readString_answers hx (y ++ rest))
    exact (Answers.times_succ hs (ih hy) (Tally.add_zero 0)).congr (by simp)

/-! ## Sections

What follows is about any way to read sections of up to so many open calls; the reader itself is
then such a way for one more level. -/

variable {s : Section}

theorem packSection_pos (h : packSection s = some bytes) : 1 ≤ bytes.length := by
  cases s with
  | mk es =>
    simp only [packSection, bind_eq_some_iff, map_eq_some_iff] at h
    rcases h with ⟨size, hsize, y, -, rfl⟩
    have hpos : 1 ≤ size.length := by
      simp only [packVarint] at hsize
      split_ifs at hsize <;> cases hsize <;> simp
    rw [length_append]
    omega

theorem packSections_cons {l : List Section} (h : packSections (s :: l) = some bytes) :
    ∃ x y, packSection s = some x ∧ packSections l = some y ∧ bytes = x ++ y := by
  simp only [packSections, bind_eq_some_iff, map_eq_some_iff] at h
  rcases h with ⟨x, hx, y, hy, rfl⟩
  exact ⟨x, y, hx, hy, rfl⟩

theorem packSections_length {l : List Section} (h : packSections l = some bytes) :
    l.length ≤ bytes.length := by
  induction l generalizing bytes with
  | nil => exact zero_le _
  | cons s l ih =>
    rcases packSections_cons h with ⟨x, y, hx, hy, rfl⟩
    have hpos := packSection_pos hx
    have hrest := ih hy
    rw [length_append, length_cons]
    omega

@[simp] theorem packedLength_some (bytes : Blob) : packedLength (some bytes) = bytes.length :=
  rfl

/-- The call answers with every section that takes at most so many open calls. -/
def ReadsSections (sec : Reader Section) (k : Nat) : Prop :=
  ∀ s bytes rest, packSection s = some bytes → s.WellFormed → s.frames ≤ k →
    Answers sec bytes rest s s.frames s.tally (s.Loads rest.length)

section Levels

variable {sec : Reader Section} {k : Nat}

theorem readSections_answers (hsec : ReadsSections sec k) {l : List Section} {body : Blob}
    (h : packSections l = some body) (hwf : WellFormedSections l) (hk : framesSections l ≤ k + 1)
    (rest : Blob) :
    Answers (Throwing.times l.length (readNew sec)) body rest l (max 4 (framesSections l))
      (tallySections l) (LoadsSections l rest.length) := by
  induction l generalizing body with
  | nil =>
    cases h
    exact (Answers.times_zero _ rest _).congr (by simp [LoadsSections])
  | cons s l ih =>
    rcases packSections_cons h with ⟨x, y, hx, hy, rfl⟩
    rw [framesSections] at hk ⊢
    have hs := readNew_answers (hsec s x (y ++ rest) hx hwf.1 (by omega))
    have hl := ih hy hwf.2 (by omega)
    refine (Answers.times_succ (hs.mono ?_) (hl.mono ?_) rfl).congr ?_
    · omega
    · omega
    · rw [LoadsSections, hy, packedLength_some, length_append]

/-- A code tells its type, with the mark of an array and without it. -/
theorem ofCode_code (type : EntryType) : EntryType.ofCode type.code = some type ∧
    EntryType.ofCode ((type.code ||| flagArray) &&& ~~~flagArray) = some type ∧
      type.code &&& flagArray = 0 ∧ (type.code ||| flagArray) &&& flagArray ≠ 0 := by
  cases type with
  | pod t => cases t <;> decide
  | string | object | array => decide

/-- The type of the elements of an array. -/
def ArrayEntry.type : ArrayEntry → EntryType
  | .pods t _ => .pod t
  | .strings _ => .string
  | .objects _ => .object
  | .arrays _ => .array

variable {bytes : Blob}

/-- The elements of an array are arrays in no array that can be read. -/
theorem readArrays_answers (l : List ArrayEntry) {body : Blob} (h : packArrays l = some body)
    (rest : Blob) :
    Answers (Throwing.times l.length (readNew readArrayEntry)) body rest l 4 (tallyArrays l)
      (l = []) := by
  cases l with
  | nil =>
    cases h
    exact (Answers.times_zero _ rest 4).congr (by simp)
  | cons a l =>
    refine (Answers.never ?_).congr (by simp)
    intro r c s hrun
    rcases (Throwing.bind_eq_ok _ _ _ _ _).mp hrun with ⟨a', mid, hfirst, -⟩
    -- Whatever the depth, the call throws.
    simp only [readNew, readArrayEntry, limited] at hfirst
    split_ifs at hfirst
    all_goals cases hfirst

theorem loadStorageArrayEntry_answers (hsec : ReadsSections sec k) {a : ArrayEntry}
    (h : packArrayEntry a = some bytes) (hwf : a.WellFormed) (hk : a.frames ≤ k + 3) (rest : Blob) :
    ∃ more, bytes = (a.type.code ||| flagArray) :: more ∧
      Answers (loadStorageArrayEntry sec (a.type.code ||| flagArray)) more rest (.array a) a.frames
        a.tally (a.Loads rest.length) := by
  cases a
  all_goals
    rw [packArrayEntry] at h
    simp only [packArray, bind_eq_some_iff, map_eq_some_iff] at h
    rcases h with ⟨size, hsize, body, hbody, rfl⟩
    refine ⟨_, rfl, ?_⟩
    rw [loadStorageArrayEntry, ArrayEntry.type, (ofCode_code _).2.1]
  case pods t l =>
    cases hbody
    have hae := readAe_answers (.pod t) hsize (le_refl 4) (readPods_answers t l rest)
    refine (Answers.map (fun l => StorageEntry.array (.pods t l)) hae).limited.adapt
      (le_refl 6) rfl ?_
    -- The elements themselves are enough for the check.
    have hpos : 0 < t.size := by cases t <;> decide
    rw [ArrayEntry.Loads, iff_true, and_true, EntryType.minBytes, le_div_iff_mul_le hpos,
      length_append, packPods_length]
    omega
  case strings l =>
    have hloads : (ArrayEntry.strings l).Loads rest.length ↔
        l.length ≤ (body ++ rest).length / 2 ∧ ∀ s ∈ l, s.length < maxStringLen := by
      rw [ArrayEntry.Loads, hbody, packedLength_some, length_append,
        le_div_iff_mul_le (by decide), mul_comm]
    by_cases hnil : l = []
    · -- Without elements only the size is read.
      cases hnil
      cases hbody
      have hae := readAe_answers .string hsize (le_refl 4)
        (Answers.times_zero (readNew readString) rest 4)
      refine (Answers.map (fun l => StorageEntry.array (.strings l)) hae).limited.adapt
        (le_refl 6) rfl ?_
      rw [hloads]
      simp
    · have hae := readAe_answers .string hsize (by decide) (readStrings_answers hbody rest)
      refine (Answers.map (fun l => StorageEntry.array (.strings l)) hae).limited.adapt ?_ rfl
        hloads.symm
      rw [ArrayEntry.frames, if_neg hnil]
  case objects l =>
    rw [ArrayEntry.frames] at hk
    have hae := readAe_answers .object hsize (le_max_left _ _)
      (readSections_answers hsec hbody hwf.2 (by omega) rest)
    refine (Answers.map (fun l => StorageEntry.array (.objects l)) hae).limited.adapt ?_ ?_ ?_
    · rw [ArrayEntry.frames]
      omega
    · rw [ArrayEntry.tally]
      rfl
    · -- Every section takes a byte.
      have hlen := packSections_length hbody
      rw [ArrayEntry.Loads, and_iff_right]
      rw [EntryType.minBytes, Nat.div_one, length_append]
      omega
  case arrays l =>
    have hae := readAe_answers .array hsize (le_refl 4) (readArrays_answers l hbody rest)
    refine (Answers.map (fun l => StorageEntry.array (.arrays l)) hae).limited.adapt (le_refl 6)
      ?_ ?_
    · rw [ArrayEntry.tally]
      exact Tally.zero_add _
    · rw [ArrayEntry.Loads]
      constructor
      · exact fun hok => hok.2
      · intro hnil
        exact ⟨by rw [hnil]; exact zero_le _, hnil⟩

variable {e : StorageEntry}

/-- The byte that `load_storage_entry` reads. -/
theorem loadStorageEntry_seq {sec : Reader Section} (code : UInt8) {more rest : Blob} {b : Nat}
    {t : Tally} {ok : Prop}
    (hbody : Answers (if code &&& flagArray ≠ 0 then loadStorageArrayEntry sec code
      else match EntryType.ofCode code with
        | some (.pod t) => readSePod t
        | some .string => readSeString
        | some .object => readSeSection sec
        | some .array => readSeArray sec
        | none => throw .threw) more rest e b t ok) :
    Answers (loadStorageEntry sec) (code :: more) rest e (1 + max 2 b) t ok := by
  rw [add_comm]
  apply Answers.limited
  refine Answers.seq (x := [code])
    ((readByte_answers code (more ++ rest)).mono (le_max_left _ _)) ?_
    (Tally.zero_add t)
  simp only [UInt8.ofNat_toNat]
  exact hbody.mono (le_max_right _ _)

theorem countString_answers (rest : Blob) (b : Nat) :
    Answers countString [] rest () b ⟨0, 0, 1⟩ True := by
  refine counts_answers (n := 1) .strings (fun r hroom => ⟨.add r.strings 1 :: r.notes, ?_⟩) rest b
  have hle : r.strings + 1 ≤ r.maxStrings := by
    exact (toNat_add_ofNat (n := 1) hroom).trans_le hroom
  change (check (r.strings + 1 ≤ r.maxStrings) >>= fun _ => _ : Reader Unit) _ = _
  rw [check, if_pos hle]
  rfl

theorem countObject_answers (rest : Blob) (b : Nat) :
    Answers countObject [] rest () b ⟨1, 0, 0⟩ True := by
  refine counts_answers (n := 1) .objects (fun r hroom => ⟨.add r.objects 1 :: r.notes, ?_⟩) rest b
  have hlt : r.objects < r.maxObjects := lt_iff_toNat_lt.mpr hroom
  change (check (r.objects < r.maxObjects) >>= fun _ => _ : Reader Unit) r = _
  rw [check, if_pos hlt]
  rfl

theorem readSeString_answers {s : Blob} (h : putString s = some bytes) (rest : Blob) :
    Answers readSeString bytes rest (.string s) 7 ⟨0, 0, 1⟩ (s.length < maxStringLen) :=
  (Answers.seq (x := []) (countString_answers _ 6)
    (Answers.map StorageEntry.string (readNew_answers (readString_answers h rest)))
    (Tally.add_zero _)).limited

theorem loadStorageEntry_answers (hsec : ReadsSections sec k) (h : packStorageEntry e = some bytes)
    (hwf : e.WellFormed) (hk : e.frames ≤ k + 1) (rest : Blob) :
    Answers (loadStorageEntry sec) bytes rest e (1 + max 2 e.frames) e.tally
      (e.Loads rest.length) := by
  cases e with
  | pod t v =>
    cases h
    apply loadStorageEntry_seq
    rw [if_neg (not_not.mpr (ofCode_code _).2.2.1), (ofCode_code _).1]
    exact (Answers.map (StorageEntry.pod t) (readPod_answers t v rest)).limited
  | string s =>
    simp only [packStorageEntry, map_eq_some_iff] at h
    rcases h with ⟨more, hmore, rfl⟩
    apply loadStorageEntry_seq
    rw [if_neg (not_not.mpr (ofCode_code _).2.2.1), (ofCode_code _).1]
    exact readSeString_answers hmore rest
  | object s =>
    simp only [packStorageEntry, map_eq_some_iff] at h
    rcases h with ⟨more, hmore, rfl⟩
    rw [StorageEntry.frames] at hk
    apply loadStorageEntry_seq
    rw [if_neg (not_not.mpr (ofCode_code _).2.2.1), (ofCode_code _).1, StorageEntry.tally,
      StorageEntry.frames, StorageEntry.Loads, add_comm]
    exact (Answers.seq (x := []) (countObject_answers _ _)
      (Answers.map StorageEntry.object (hsec s more rest hmore hwf (by omega))) rfl).limited
  | array a =>
    rw [StorageEntry.frames] at hk
    rcases loadStorageArrayEntry_answers hsec h hwf (by omega) rest with ⟨more, rfl, hload⟩
    apply loadStorageEntry_seq
    rw [if_pos (ofCode_code _).2.2.2, StorageEntry.tally, StorageEntry.frames, StorageEntry.Loads]
    exact hload

/-! The names come in order, so each goes to the end of what was read. -/

variable {name : Blob} {es : List (Blob × StorageEntry)}

theorem lowerBound_eq_none (h : ∀ p ∈ es, p.1 < name) : lowerBound name es = none := by
  rw [lowerBound, map_eq_none_iff, List.find?_eq_none]
  intro p hp
  simpa using h p hp

theorem insertEntry_last (e : StorageEntry) (h : ∀ p ∈ es, p.1 < name) :
    insertEntry name e es = es ++ [(name, e)] := by
  induction es with
  | nil => rfl
  | cons p es ih =>
    have hp : ¬ name < p.1 := List.lt_asymm (h p (by simp))
    rw [insertEntry, if_neg hp, ih fun q hq => h q (by simp [hq])]
    rfl

theorem readEntries_answers (hsec : ReadsSections sec k) (h : packEntries es = some bytes)
    (hwf : WellFormedEntries es) (hk : framesEntries es ≤ k + 2) (rest : Blob)
    (done : List (Blob × StorageEntry)) (hsorted : ((done ++ es).map Prod.fst).Pairwise (· < ·)) :
    Answers (readEntries (loadStorageEntry sec) es.length done) bytes rest (done ++ es)
      (max 4 (framesEntries es)) (tallyEntries es) (LoadsEntries es rest.length) := by
  induction es generalizing done bytes with
  | nil =>
    cases h
    rw [append_nil]
    exact (Answers.pure done rest _).congr (by simp [LoadsEntries])
  | cons p es ih =>
    rcases p with ⟨name, e⟩
    simp only [packEntries, bind_eq_some_iff, map_eq_some_iff] at h
    rcases h with ⟨n, hn, x, hx, y, hy, rfl⟩
    rw [framesEntries] at hk ⊢
    have hlast : ∀ q ∈ done, q.1 < name := by
      intro q hq
      rw [map_append, pairwise_append] at hsorted
      exact hsorted.2.2 q.1 (mem_map_of_mem hq) name (by simp)
    have hnew : lowerBound name done ≠ some name := by
      rw [lowerBound_eq_none hlast]
      simp
    have hsorted' : (((done ++ [(name, e)]) ++ es).map Prod.fst).Pairwise (· < ·) := by
      rwa [append_assoc]
    have hname := (readSecName_answers hn ((x ++ y) ++ rest)).mono
      (le_trans (by decide) (le_max_left 4 (max (max 3 (1 + max 2 e.frames)) (framesEntries es))))
    have hentry := loadStorageEntry_answers hsec hx hwf.2.1 (by omega) (y ++ rest)
    have hrest := ih hy hwf.2.2 (by omega) (done ++ [(name, e)]) hsorted'
    rw [append_assoc, ← insertEntry_last e hlast] at hrest
    refine Answers.seq hname ?_ (Tally.zero_add _)
    refine (Answers.checking (Answers.bind (hentry.mono ?_) (hrest.mono ?_) rfl)).congr ?_
    · omega
    · omega
    · rw [LoadsEntries, hy, packedLength_some, length_append, and_iff_right hnew]

end Levels

/-- What the reader does on the bytes of a section, by the sections that can be open. -/
theorem readSection_answers (fuel : Nat) : ReadsSections (readSection fuel) fuel := by
  induction fuel with
  | zero =>
    intro s bytes rest _ _ hk
    cases s
    rw [Section.frames] at hk
    omega
  | succ fuel ih =>
    intro s bytes rest h hwf hk
    cases s with
    | mk es =>
      simp only [packSection, bind_eq_some_iff, map_eq_some_iff] at h
      rcases h with ⟨size, hsize, body, hbody, rfl⟩
      rw [Section.frames] at hk
      have hlen : (ofNat es.length).toNat = es.length := toNat_ofNat_size hwf.1
      have hentries := readEntries_answers ih hbody hwf.2.2 (by omega) rest [] hwf.2.1
      rw [Section.frames, Section.tally, Section.Loads, readSection, add_comm 1]
      apply Answers.limited
      refine Answers.seq ((readVarint_answers hsize _).mono (le_max_left _ _)) ?_
        (Tally.zero_add _)
      refine Answers.seq (x := []) (addCount_answers .fields hwf.1 _ _) ?_ rfl
      rw [hlen]
      exact Answers.map Section.mk hentries

/-! ## With the header -/

theorem bind_map_isSome {α β γ : Type} {a : Option α} {b : Option β} {f : α → β → γ}
    (ha : ∃ x, a = some x) (hb : ∃ y, b = some y) :
    ∃ z, (a.bind fun x => b.map (f x)) = some z := by
  rcases ha with ⟨x, rfl⟩
  rcases hb with ⟨y, rfl⟩
  exact ⟨_, rfl⟩

mutual

/-- A well-formed section is written. -/
theorem packSection_isSome : ∀ s : Section, s.WellFormed → ∃ bytes, packSection s = some bytes
  | .mk es, h => bind_map_isSome (packVarint_isSome h.1) (packEntries_isSome es h.2.2)

theorem packEntries_isSome : ∀ es : List (Blob × StorageEntry), WellFormedEntries es →
    ∃ bytes, packEntries es = some bytes
  | [], _ => ⟨[], rfl⟩
  | (name, e) :: es, h => by
      rw [WellFormedEntries] at h
      have hname : name.length < 255 ∧ name ≠ [] :=
        ⟨by omega, List.length_pos_iff.mp (by omega)⟩
      rw [packEntries, packName, if_pos hname]
      exact bind_map_isSome (packStorageEntry_isSome e h.2.1) (packEntries_isSome es h.2.2)

theorem packStorageEntry_isSome : ∀ e : StorageEntry, e.WellFormed →
    ∃ bytes, packStorageEntry e = some bytes
  | .pod t v, _ => ⟨_, rfl⟩
  | .string s, h => by
      rcases packVarint_isSome h with ⟨size, hsize⟩
      exact ⟨_, by rw [packStorageEntry, putString, hsize]; rfl⟩
  | .object s, h => by
      rcases packSection_isSome s h with ⟨x, hx⟩
      exact ⟨_, by rw [packStorageEntry, hx]; rfl⟩
  | .array a, h => packArrayEntry_isSome a h

theorem packArrayEntry_isSome : ∀ a : ArrayEntry, a.WellFormed →
    ∃ bytes, packArrayEntry a = some bytes
  | .pods _ _, h => bind_map_isSome (packVarint_isSome h) ⟨_, rfl⟩
  | .strings _, h => bind_map_isSome (packVarint_isSome h.1) (packStrings_isSome h.2)
  | .objects l, h => bind_map_isSome (packVarint_isSome h.1) (packSections_isSome l h.2)
  | .arrays l, h => bind_map_isSome (packVarint_isSome h.1) (packArrays_isSome l h.2)

theorem packSections_isSome : ∀ l : List Section, WellFormedSections l →
    ∃ bytes, packSections l = some bytes
  | [], _ => ⟨[], rfl⟩
  | s :: l, h => bind_map_isSome (packSection_isSome s h.1) (packSections_isSome l h.2)

theorem packArrays_isSome : ∀ l : List ArrayEntry, WellFormedArrays l →
    ∃ bytes, packArrays l = some bytes
  | [], _ => ⟨[], rfl⟩
  | a :: l, h => bind_map_isSome (packArrayEntry_isSome a h.1) (packArrays_isSome l h.2)

end

theorem storageBlockHeader_length : storageBlockHeader.length = 9 := rfl

/-- What `store_to_binary` writes has a header that `load_from_binary` accepts. -/
theorem headerOk_of_store (h : packSection s = some bytes) :
    HeaderOk (storageBlockHeader ++ bytes) := by
  have hpos := packSection_pos h
  refine ⟨?_, ?_, ?_⟩
  · rw [length_append, storageBlockHeader_length]
    omega
  · exact take_left' storageBlockHeader_length
  · rw [length_append, storageBlockHeader_length]
    omega

theorem newReader_fits {limits : Limits} (hframes : s.frames < recursionLimit)
    (hobjects : s.tally.objects ≤ limits.objects.toNat)
    (hfields : s.tally.fields ≤ limits.fields.toNat)
    (hstrings : s.tally.strings ≤ limits.strings.toNat) :
    (newReader bytes limits).Fits s.frames s.tally where
  count := rfl
  depth := by
    change 0 + s.frames < recursionLimit
    omega
  room := by
    intro c
    cases c with
    | objects => exact (zero_add _).trans_le hobjects
    | fields => exact (zero_add _).trans_le hfields
    | strings => exact (zero_add _).trans_le hstrings

/-- A section whose nesting and counts are within the limits of the reader is written, and it is
    read back from what was written exactly when it meets what the reader asks of its strings. -/
theorem loadFromBinary_storeToBinary_iff (s : Section) (limits : Option Limits)
    (hwf : s.WellFormed) (hframes : s.frames < recursionLimit)
    (hobjects : s.tally.objects ≤ (limits.getD .none).objects.toNat)
    (hfields : s.tally.fields ≤ (limits.getD .none).fields.toNat)
    (hstrings : s.tally.strings ≤ (limits.getD .none).strings.toNat) :
    ∃ bytes, storeToBinary s = some bytes ∧ ∀ source : Span, source.bytes = bytes →
        (loadFromBinary source limits = some s ↔ s.Loads 0) := by
  rcases packSection_isSome s hwf with ⟨body, hbody⟩
  refine ⟨storageBlockHeader ++ body, by rw [storeToBinary, hbody]; rfl, ?_⟩
  intro source hsource
  have hanswers := readSection_answers recursionLimit s body [] hbody hwf (le_of_lt hframes)
  have hptr : (newReader body (limits.getD .none)).ptr = body ++ [] := (append_nil body).symm
  rcases hanswers _ hptr (newReader_fits hframes hobjects hfields hstrings) with ⟨hyes, hno⟩
  rw [loadFromBinary, hsource, if_pos (headerOk_of_store hbody), readRoot,
    drop_left' storageBlockHeader_length]
  constructor
  · intro hload
    by_contra hloads
    cases hrun : readSection recursionLimit (newReader body (limits.getD .none)) with
    | ok a r => exact hno hloads a r hrun
    | error e r =>
      rw [hrun] at hload
      cases hload
  · intro hloads
    rcases hyes hloads with ⟨notes, hrun⟩
    rw [hrun]

/-- A section with one entry, `"a"`. -/
def Section.one (e : StorageEntry) : Section :=
  .mk [([97], e)]

/-- A tree with arrays of strings and of sections. -/
def sampleTree : Section :=
  .mk [([97], .array (.strings [[120], [121]])), ([98], .array (.objects [.one (.string [120])]))]

theorem loadFromBinary_storeToBinary_iff_tree : sampleTree.WellFormed ∧
      ∃ bytes, storeToBinary sampleTree = some bytes ∧ ∀ source : Span, source.bytes = bytes →
        (loadFromBinary source none = some sampleTree ↔ sampleTree.Loads 0) := by
  have hlt : ([97] : Blob) < [98] := by decide
  have hwf : sampleTree.WellFormed := by
    simp [hlt, sampleTree, Section.one, Section.WellFormed, WellFormedEntries, WellFormedSections,
      StorageEntry.WellFormed, ArrayEntry.WellFormed]
  exact ⟨hwf, loadFromBinary_storeToBinary_iff _ none hwf (by decide) (by decide) (by decide)
    (by decide)⟩

/-- An array of one empty string, with nothing behind it, is written and not read back. -/
theorem empty_strings_refused : (Section.one (.array (.strings [[]]))).WellFormed ∧
      (Section.one (.array (.strings [[]]))).frames < recursionLimit ∧
      storeToBinary (.one (.array (.strings [[]]))) =
        some [0x01, 0x11, 0x01, 0x01, 0x01, 0x01, 0x02, 0x01, 0x01, 0x04, 0x01, 0x61, 0x8a, 0x04,
          0x00] ∧
      loadFromBinary ⟨[0x01, 0x11, 0x01, 0x01, 0x01, 0x01, 0x02, 0x01, 0x01, 0x04, 0x01, 0x61, 0x8a,
        0x04, 0x00], by decide⟩ none = none := by
  refine ⟨?_, by decide, by decide, rfl⟩
  simp [Section.one, Section.WellFormed, WellFormedEntries, StorageEntry.WellFormed,
    ArrayEntry.WellFormed]

end PortableStorage

end CocaineNode
