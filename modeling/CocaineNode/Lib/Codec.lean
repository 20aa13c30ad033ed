import Mathlib.Data.BitVec

/-!
# Codecs

A binary format described once and read in both directions: a `Codec` writes a
value as bytes, or refuses to, and reads a value from the front of some bytes.

A reader keeps a record of what its result does not show. It records the
subtractions and shifts it performs on numbers that came from the input, and it
records every place where the input ended in front of the last byte of a
self-delimiting number. A reader that does not insist on that last byte accepts
inputs that no writer produces, so the two laws of a codec come apart there:

* `round` says that what was written is read back, whatever follows it.
* `canon` says that what was read can be written, and that it is written with
  the bytes it was read from unless a number was cut off.

A format need not keep everything a value holds. `Lawful c n` says that the
codec `c` obeys the laws where `n` forgets what is not written.

## Theorems

* `Codec.Safe.seq`, `Codec.Safe.header`, …: Each combinator keeps safety.
* `Codec.writes_seq`, `Codec.writes_header`, …: Which values a combinator writes.
-/

namespace Codec

/-- Something a reader did that its result does not show. -/
inductive Note where
  /-- The unsigned subtraction `a - b`. -/
  | sub (a b : Nat)
  /-- A left shift of an integer that is `width` bits wide. -/
  | shl (width amount : Nat)
  /-- The input ended before a self-delimiting number did. -/
  | cut
  deriving DecidableEq, Repr

/-- A subtraction does not go below zero, and a shift stays below the width. -/
def Note.InRange : Note → Prop
  | sub a b => b ≤ a
  | shl width amount => amount < width
  | cut => True

instance : DecidablePred Note.InRange := fun e =>
  match e with
  | .sub a b => inferInstanceAs (Decidable (b ≤ a))
  | .shl width amount => inferInstanceAs (Decidable (amount < width))
  | .cut => inferInstanceAs (Decidable True)

/-- What reading comes to: the record of the reader, and unless it failed the value with the
    bytes that follow it. -/
structure Outcome (α : Type) where
  notes : List Note
  value : Option (α × List UInt8)
  deriving DecidableEq, Repr

/-- A reader consumes bytes from the front. -/
abbrev Reader (α : Type) := List UInt8 → Outcome α

namespace Reader

variable {α β : Type}

/-- One reader after the other. -/
def bind (r : Reader α) (f : α → Reader β) : Reader β := fun bytes =>
  match (r bytes).value with
  | none => ⟨(r bytes).notes, none⟩
  | some (a, rest) => ⟨(r bytes).notes ++ (f a rest).notes, (f a rest).value⟩

/-- The reader accepts, and nothing it read was cut off. -/
def Reads (r : Reader α) (bytes : List UInt8) (a : α) (rest : List UInt8) : Prop :=
  (r bytes).value = some (a, rest) ∧ Note.cut ∉ (r bytes).notes

variable (r : Reader α) (f : α → Reader β) (bytes : List UInt8) (b : β) (rest : List UInt8)

theorem bind_value : (r.bind f bytes).value = some (b, rest) ↔
      ∃ a mid, (r bytes).value = some (a, mid) ∧ (f a mid).value = some (b, rest) := by
  rw [bind]
  cases hr : (r bytes).value with
  | none => simp
  | some p =>
    rcases p with ⟨a, mid⟩
    simp

theorem mem_bind_notes (e : Note) : e ∈ (r.bind f bytes).notes ↔
      e ∈ (r bytes).notes ∨ ∃ a mid, (r bytes).value = some (a, mid) ∧ e ∈ (f a mid).notes := by
  rw [bind]
  cases hr : (r bytes).value with
  | none => simp
  | some p =>
    rcases p with ⟨a, mid⟩
    simp

theorem reads_bind :
    (r.bind f).Reads bytes b rest ↔ ∃ a mid, r.Reads bytes a mid ∧ (f a).Reads mid b rest := by
  simp only [Reads, bind_value, mem_bind_notes]
  constructor
  · rintro ⟨⟨a, mid, ha, hb⟩, hcut⟩
    exact ⟨a, mid, ⟨ha, fun h => hcut (.inl h)⟩, hb, fun h => hcut (.inr ⟨a, mid, ha, h⟩)⟩
  · rintro ⟨a, mid, ⟨ha, hcuta⟩, hb, hcutb⟩
    refine ⟨⟨a, mid, ha, hb⟩, ?_⟩
    rintro (h | ⟨a', mid', ha', h⟩)
    · exact hcuta h
    · -- A reader comes to one outcome, so this is the value found above.
      rw [ha, Option.some.injEq, Prod.mk.injEq] at ha'
      rw [← ha'.1, ← ha'.2] at h
      exact hcutb h

end Reader

end Codec

/-- A format: how a value is written, unless it is refused, and how it is read. -/
structure Codec (α : Type) where
  write : α → Option (List UInt8)
  read : Codec.Reader α

namespace Codec

variable {α β κ : Type}

/-- The laws of a codec that keeps what `n` keeps. -/
structure Lawful (c : Codec α) (n : α → α) : Prop where
  round : ∀ a bs rest, c.write a = some bs → c.read.Reads (bs ++ rest) (n a) rest
  canon : ∀ bytes a rest, (c.read bytes).value = some (a, rest) →
    ∃ bs, c.write a = some bs ∧ (Note.cut ∉ (c.read bytes).notes → bs ++ rest = bytes)

/-- Whatever the input, no subtraction and no shift of the reader goes out of range, and the reader
    does not go back. -/
structure Safe (c : Codec α) : Prop where
  inRange : ∀ bytes, ∀ e ∈ (c.read bytes).notes, e.InRange
  forward : ∀ bytes a rest, (c.read bytes).value = some (a, rest) → rest.length ≤ bytes.length

/-- The codec writes the value. -/
def Writes (c : Codec α) (a : α) : Prop :=
  (c.write a).isSome

/-- Nothing is written without a byte. -/
def Wide (c : Codec α) : Prop :=
  ∀ a bs, c.write a = some bs → 0 < bs.length

theorem writes_iff (c : Codec α) (a : α) : c.Writes a ↔ ∃ bs, c.write a = some bs := by
  rw [Writes, Option.isSome_iff_exists]

variable {c : Codec α} {n : α → α} {a : α}

/-- What is read back is written with the same bytes. -/
theorem Lawful.write_again (h : c.Lawful n) {bs : List UInt8} (hw : c.write a = some bs) :
    c.write (n a) = some bs := by
  have hread := h.round a bs [] hw
  rcases h.canon _ _ _ hread.1 with ⟨bs', hbs', hbytes⟩
  rw [hbs', List.append_cancel_right (hbytes hread.2)]

theorem Lawful.writes (h : c.Lawful n) {bytes rest : List UInt8}
    (hr : (c.read bytes).value = some (a, rest)) : c.Writes a := by
  rcases h.canon bytes a rest hr with ⟨bs, hbs, -⟩
  exact (c.writes_iff a).mpr ⟨bs, hbs⟩

/-! ## Nothing at all -/

/-- Refuses everything. -/
def fail : Codec α where
  write _ := none
  read _ := ⟨[], none⟩

theorem Lawful.fail (n : α → α) : (fail : Codec α).Lawful n where
  round := fun _ _ _ h => (by cases h)
  canon := fun _ _ _ h => (by cases h)

theorem Safe.fail : (fail : Codec α).Safe where
  inRange _ _ h := absurd h List.not_mem_nil
  forward _ _ _ h := by cases h

@[simp] theorem not_writes_fail (a : α) : ¬ (fail : Codec α).Writes a := by
  simp [Writes, fail]

/-- Takes no bytes: a value that is not written is read as `d`. -/
def absent (d : α) : Codec α where
  write _ := some []
  read bytes := ⟨[], some (d, bytes)⟩

theorem Lawful.absent (d : α) : (absent d).Lawful fun _ => d where
  round := by
    intro a bs rest h
    cases h
    exact ⟨rfl, List.not_mem_nil⟩
  canon := by
    intro bytes a rest h
    cases h
    exact ⟨[], rfl, fun _ => rfl⟩

theorem Safe.absent (d : α) : (absent d).Safe where
  inRange _ _ h := absurd h List.not_mem_nil
  forward bytes a rest h := by
    cases h
    exact le_refl _

@[simp] theorem writes_absent (d a : α) : (absent d).Writes a :=
  rfl

/-! ## One after the other -/

/-- Two formats in a row, the second chosen by the first value. -/
def seq (c : Codec α) (d : α → Codec β) : Codec (α × β) where
  write p := (c.write p.1).bind fun x => ((d p.1).write p.2).map fun y => x ++ y
  read := c.read.bind fun a => Reader.bind (d a).read fun b bytes => ⟨[], some ((a, b), bytes)⟩

section

variable (c : Codec α) (d : α → Codec β)

theorem seq_write (p : α × β) (bs : List UInt8) : (c.seq d).write p = some bs ↔
      ∃ x y, c.write p.1 = some x ∧ (d p.1).write p.2 = some y ∧ x ++ y = bs := by
  simp only [seq, Option.bind_eq_some_iff, Option.map_eq_some_iff]
  constructor
  · rintro ⟨x, hx, y, hy, rfl⟩
    exact ⟨x, y, hx, hy, rfl⟩
  · rintro ⟨x, y, hx, hy, rfl⟩
    exact ⟨x, hx, y, hy, rfl⟩

theorem seq_read_value (bytes : List UInt8) (p : α × β) (rest : List UInt8) :
    ((c.seq d).read bytes).value = some (p, rest) ↔ ∃ mid, (c.read bytes).value = some (p.1, mid) ∧
        ((d p.1).read mid).value = some (p.2, rest) := by
  simp only [seq, Reader.bind_value, Option.some.injEq, Prod.mk.injEq]
  constructor
  · rintro ⟨a, mid, ha, b, last, hb, rfl, rfl⟩
    exact ⟨mid, ha, hb⟩
  · rintro ⟨mid, ha, hb⟩
    exact ⟨p.1, mid, ha, p.2, rest, hb, rfl, rfl⟩

theorem mem_seq_notes (bytes : List UInt8) (e : Note) : e ∈ ((c.seq d).read bytes).notes ↔
      e ∈ (c.read bytes).notes ∨
        ∃ a mid, (c.read bytes).value = some (a, mid) ∧ e ∈ ((d a).read mid).notes := by
  simp [seq, Reader.mem_bind_notes]

end

theorem Lawful.seq {d : α → Codec β} {m : α → β → β} (hc : c.Lawful n)
    (hd : ∀ a, (d a).Lawful (m a)) (hn : ∀ a, d (n a) = d a) :
    (c.seq d).Lawful fun p => (n p.1, m p.1 p.2) where
  round := by
    intro p bs rest h
    rcases (seq_write c d p bs).mp h with ⟨x, y, hx, hy, rfl⟩
    rw [List.append_assoc]
    have hfirst := hc.round p.1 x (y ++ rest) hx
    have hsecond := (hd p.1).round p.2 y rest hy
    rw [← hn] at hsecond
    exact (Reader.reads_bind _ _ _ _ _).mpr ⟨n p.1, y ++ rest, hfirst,
      (Reader.reads_bind _ _ _ _ _).mpr ⟨_, rest, hsecond, rfl, List.not_mem_nil⟩⟩
  canon := by
    intro bytes p rest h
    rcases (seq_read_value c d bytes p rest).mp h with ⟨mid, ha, hb⟩
    rcases hc.canon _ _ _ ha with ⟨x, hx, hxmid⟩
    rcases (hd p.1).canon _ _ _ hb with ⟨y, hy, hyrest⟩
    refine ⟨x ++ y, (seq_write c d p _).mpr ⟨x, y, hx, hy, rfl⟩, ?_⟩
    intro hcut
    rw [mem_seq_notes, not_or] at hcut
    rw [List.append_assoc, hyrest fun h => hcut.2 ⟨_, mid, ha, h⟩, hxmid hcut.1]

theorem Safe.seq {d : α → Codec β} (hc : c.Safe) (hd : ∀ a, (d a).Safe) : (c.seq d).Safe where
  inRange := by
    intro bytes e he
    rcases (mem_seq_notes c d bytes e).mp he with h | ⟨a, mid, -, h⟩
    · exact hc.inRange bytes e h
    · exact (hd a).inRange mid e h
  forward := by
    intro bytes p rest h
    rcases (seq_read_value c d bytes p rest).mp h with ⟨mid, ha, hb⟩
    exact le_trans ((hd p.1).forward _ _ _ hb) (hc.forward _ _ _ ha)

@[simp] theorem writes_seq (c : Codec α) (d : α → Codec β) (p : α × β) :
    (c.seq d).Writes p ↔ c.Writes p.1 ∧ (d p.1).Writes p.2 := by
  simp only [writes_iff, seq_write]
  constructor
  · rintro ⟨-, x, y, hx, hy, -⟩
    exact ⟨⟨x, hx⟩, y, hy⟩
  · rintro ⟨⟨x, hx⟩, y, hy⟩
    exact ⟨x ++ y, x, y, hx, hy, rfl⟩

theorem Wide.seq (hc : c.Wide) (d : α → Codec β) : (c.seq d).Wide := by
  intro p bs h
  rcases (seq_write c d p bs).mp h with ⟨x, y, hx, -, rfl⟩
  have hpos : 0 < x.length := hc _ _ hx
  rw [List.length_append]
  omega

/-- Two formats in a row. -/
def pair (c : Codec α) (d : Codec β) : Codec (α × β) :=
  c.seq fun _ => d

theorem Lawful.pair {d : Codec β} {m : β → β} (hc : c.Lawful n) (hd : d.Lawful m) :
    (c.pair d).Lawful fun p => (n p.1, m p.2) :=
  hc.seq (fun _ => hd) fun _ => rfl

theorem Safe.pair {d : Codec β} (hc : c.Safe) (hd : d.Safe) : (c.pair d).Safe :=
  hc.seq fun _ => hd

@[simp] theorem writes_pair (c : Codec α) (d : Codec β) (p : α × β) :
    (c.pair d).Writes p ↔ c.Writes p.1 ∧ d.Writes p.2 :=
  writes_seq c _ p

theorem pair_write (c : Codec α) (d : Codec β) (p : α × β) (bs : List UInt8) :
    (c.pair d).write p = some bs ↔
      ∃ x y, c.write p.1 = some x ∧ d.write p.2 = some y ∧ x ++ y = bs :=
  seq_write c _ p bs

theorem Wide.pair (hc : c.Wide) (d : Codec β) : (c.pair d).Wide :=
  hc.seq _

/-! ## Another view of the same bytes -/

/-- A value is written through a view of it, where it has one. -/
def map (c : Codec β) (view : α → Option β) (build : β → α) : Codec α where
  write a := (view a).bind c.write
  read := Reader.bind c.read fun b bytes => ⟨[], some (build b, bytes)⟩

section

variable (c : Codec β) (view : α → Option β) (build : β → α)

theorem map_write (a : α) (bs : List UInt8) :
    (c.map view build).write a = some bs ↔ ∃ b, view a = some b ∧ c.write b = some bs := by
  rw [map, Option.bind_eq_some_iff]

theorem map_read_value (bytes : List UInt8) (a : α) (rest : List UInt8) :
    ((c.map view build).read bytes).value = some (a, rest) ↔
      ∃ b, (c.read bytes).value = some (b, rest) ∧ build b = a := by
  simp only [map, Reader.bind_value, Option.some.injEq, Prod.mk.injEq]
  constructor
  · rintro ⟨b, mid, hb, ha, rfl⟩
    exact ⟨b, hb, ha⟩
  · rintro ⟨b, hb, ha⟩
    exact ⟨b, rest, hb, ha, rfl⟩

@[simp] theorem map_read_notes (bytes : List UInt8) :
    ((c.map view build).read bytes).notes = (c.read bytes).notes := by
  simp only [map, Reader.bind]
  cases (c.read bytes).value <;> simp

end

variable {m : α → α}

/-- The view of what was built may differ from what was read where that is not written. -/
theorem Lawful.map_of_write_eq {c : Codec β} {n : β → β} (hc : c.Lawful n) {view : α → Option β}
    {build : β → α}
    (hview : ∀ b, c.Writes b → ∃ b', view (build b) = some b' ∧ c.write b' = c.write b)
    (hbuild : ∀ a b, view a = some b → build (n b) = m a) : (c.map view build).Lawful m where
  round := by
    intro a bs rest h
    rcases (map_write c view build a bs).mp h with ⟨b, hb, hbs⟩
    have hread := hc.round b bs rest hbs
    refine ⟨(map_read_value c view build _ _ _).mpr ⟨n b, hread.1, hbuild a b hb⟩, ?_⟩
    rw [map_read_notes]
    exact hread.2
  canon := by
    intro bytes a rest h
    rcases (map_read_value c view build _ _ _).mp h with ⟨b, hb, rfl⟩
    rcases hc.canon _ _ _ hb with ⟨bs, hbs, hbytes⟩
    rcases hview b ((c.writes_iff b).mpr ⟨bs, hbs⟩) with ⟨b', hb', hwrite⟩
    refine ⟨bs, (map_write c view build _ _).mpr ⟨b', hb', hwrite.trans hbs⟩, ?_⟩
    rw [map_read_notes]
    exact hbytes

theorem Lawful.map {c : Codec β} {n : β → β} (hc : c.Lawful n) {view : α → Option β} {build : β → α}
    (hview : ∀ b, c.Writes b → view (build b) = some b)
    (hbuild : ∀ a b, view a = some b → build (n b) = m a) : (c.map view build).Lawful m :=
  hc.map_of_write_eq (fun b hb => ⟨b, hview b hb, rfl⟩) hbuild

theorem Safe.map {c : Codec β} (hc : c.Safe) (view : α → Option β) (build : β → α) :
    (c.map view build).Safe where
  inRange := by
    intro bytes e he
    rw [map_read_notes] at he
    exact hc.inRange bytes e he
  forward := by
    intro bytes a rest h
    rcases (map_read_value _ _ _ _ _ _).mp h with ⟨b, hb, -⟩
    exact hc.forward _ _ _ hb

@[simp] theorem writes_map (c : Codec β) (view : α → Option β) (build : β → α) (a : α) :
    (c.map view build).Writes a ↔ ∃ b, view a = some b ∧ c.Writes b := by
  simp only [writes_iff, map_write]
  exact ⟨fun ⟨bs, b, hb, hbs⟩ => ⟨b, hb, bs, hbs⟩, fun ⟨b, hb, bs, hbs⟩ => ⟨bs, b, hb, hbs⟩⟩

theorem Wide.map {c : Codec β} (hc : c.Wide) (view : α → Option β) (build : β → α) :
    (c.map view build).Wide := by
  intro a bs h
  rcases (map_write c view build a bs).mp h with ⟨b, -, hb⟩
  exact hc b bs hb

/-! ## A value in front that says how to read on -/

/-- A key of the value is written first, and the key chooses the format of the value. -/
def header (k : Codec κ) (key : α → κ) (body : κ → Codec α) : Codec α where
  write a := (k.write (key a)).bind fun x => ((body (key a)).write a).map fun y => x ++ y
  read := k.read.bind fun x => (body x).read

/-- The value stands after its key, and the key is computed from it. -/
theorem header_eq (k : Codec κ) (key : α → κ) (body : κ → Codec α) :
    header k key body = (k.seq body).map (fun a => some (key a, a)) Prod.snd := by
  have hread : (header k key body).read =
      ((k.seq body).map (fun a => some (key a, a)) Prod.snd).read := by
    funext bytes
    simp only [header, map, seq, Reader.bind]
    cases (k.read bytes).value with
    | none => rfl
    | some p =>
      cases hbody : ((body p.1).read p.2).value with
      | none | some q => simp [hbody]
  exact congrArg (mk _) hread

variable {k : Codec κ}

/-- A body that writes only values of its own key makes a lawful format. -/
theorem Lawful.header {key : α → κ} {body : κ → Codec α} {n : κ → α → α} (hk : k.Lawful id)
    (hbody : ∀ x, (body x).Lawful (n x)) (hkey : ∀ x a, (body x).Writes a → key a = x) :
    (header k key body).Lawful fun a => n (key a) a := by
  rw [header_eq]
  refine (hk.seq hbody fun _ => rfl).map (fun p hp => ?_) fun a p hp => ?_
  · rw [hkey p.1 p.2 ((writes_seq k body p).mp hp).2]
  · cases hp
    rfl

theorem Safe.header {body : κ → Codec α} (hk : k.Safe) (key : α → κ) (hbody : ∀ x, (body x).Safe) :
    (header k key body).Safe := by
  rw [header_eq]
  exact (hk.seq hbody).map _ _

@[simp] theorem writes_header (k : Codec κ) (key : α → κ) (body : κ → Codec α) (a : α) :
    (header k key body).Writes a ↔ k.Writes (key a) ∧ (body (key a)).Writes a :=
  writes_seq k body (key a, a)

theorem Wide.header (hk : k.Wide) (key : α → κ) (body : κ → Codec α) :
    (header k key body).Wide := by
  rw [header_eq]
  exact (hk.seq body).map _ _

/-! ## Conditions -/

/-- A condition on the value, tested after it is read and when it is written. Testing it performs
    the operations `ops`. -/
def check (c : Codec α) (p : α → Bool) (ops : α → List Note) : Codec α where
  write a := if p a then c.write a else none
  read := Reader.bind c.read fun a bytes => ⟨ops a, if p a then some (a, bytes) else none⟩

section

variable (c : Codec α) (p : α → Bool) (ops : α → List Note)

theorem check_read_value (bytes : List UInt8) (a : α) (rest : List UInt8) :
    ((c.check p ops).read bytes).value = some (a, rest) ↔
      (c.read bytes).value = some (a, rest) ∧ p a = true := by
  simp only [check, Reader.bind_value]
  constructor
  · rintro ⟨b, mid, hb, h⟩
    by_cases hp : p b = true
    · rw [if_pos hp, Option.some.injEq, Prod.mk.injEq] at h
      rw [← h.1, ← h.2]
      exact ⟨hb, hp⟩
    · rw [if_neg hp] at h
      cases h
  · rintro ⟨hb, hp⟩
    exact ⟨a, rest, hb, by rw [if_pos hp]⟩

theorem mem_check_notes (bytes : List UInt8) (e : Note) : e ∈ ((c.check p ops).read bytes).notes ↔
      e ∈ (c.read bytes).notes ∨ ∃ a rest, (c.read bytes).value = some (a, rest) ∧ e ∈ ops a :=
  Reader.mem_bind_notes _ _ _ _

theorem check_write (a : α) (bs : List UInt8) :
    (c.check p ops).write a = some bs ↔ p a = true ∧ c.write a = some bs := by
  by_cases hp : p a = true
  · simp [check, hp]
  · simp [check, hp]

end

theorem Lawful.check (hc : c.Lawful n) {p : α → Bool} {ops : α → List Note}
    (hp : ∀ a, c.Writes a → p a = true → p (n a) = true) (hops : ∀ a, Note.cut ∉ ops a) :
    (c.check p ops).Lawful n where
  round := by
    intro a bs rest h
    rcases (check_write c p ops a bs).mp h with ⟨hpa, hbs⟩
    have hread := hc.round a bs rest hbs
    have hpn : p (n a) = true := hp a ((c.writes_iff a).mpr ⟨bs, hbs⟩) hpa
    refine ⟨(check_read_value c p ops _ _ _).mpr ⟨hread.1, hpn⟩, ?_⟩
    rw [mem_check_notes, not_or]
    exact ⟨hread.2, fun ⟨b, _, _, hb⟩ => hops b hb⟩
  canon := by
    intro bytes a rest h
    rcases (check_read_value c p ops _ _ _).mp h with ⟨hread, hpa⟩
    rcases hc.canon _ _ _ hread with ⟨bs, hbs, hbytes⟩
    refine ⟨bs, (check_write c p ops a bs).mpr ⟨hpa, hbs⟩, ?_⟩
    intro hcut
    rw [mem_check_notes, not_or] at hcut
    exact hbytes hcut.1

theorem Safe.check (hc : c.Safe) (p : α → Bool) {ops : α → List Note}
    (hops : ∀ bytes a rest, (c.read bytes).value = some (a, rest) → ∀ e ∈ ops a, e.InRange) :
    (c.check p ops).Safe where
  inRange := by
    intro bytes e he
    rcases (mem_check_notes c p ops bytes e).mp he with h | ⟨a, rest, ha, h⟩
    · exact hc.inRange bytes e h
    · exact hops bytes a rest ha e h
  forward := by
    intro bytes a rest h
    exact hc.forward _ _ _ ((check_read_value c p ops bytes a rest).mp h).1

@[simp] theorem writes_check (c : Codec α) (p : α → Bool) (ops : α → List Note) (a : α) :
    (c.check p ops).Writes a ↔ p a = true ∧ c.Writes a := by
  simp only [writes_iff, check_write, exists_and_left]

variable {d : Codec α}

section

variable {p : Prop} [Decidable p]
include p

/-- Which format it is can be known beforehand. -/
theorem Lawful.ite (hc : c.Lawful n) (hd : d.Lawful m) :
    (if p then c else d).Lawful fun a => if p then n a else m a := by
  by_cases hp : p
  · simpa only [if_pos hp] using hc
  · simpa only [if_neg hp] using hd

theorem Lawful.fail_ite (hc : ¬ p → c.Lawful n) : (if p then Codec.fail else c).Lawful n := by
  split_ifs with hp
  · exact Lawful.fail n
  · exact hc hp

theorem Safe.ite (hc : c.Safe) (hd : d.Safe) : (if p then c else d).Safe := by
  by_cases hp : p
  · rwa [if_pos hp]
  · rwa [if_neg hp]

theorem writes_ite (c d : Codec α) (a : α) :
    (if p then c else d).Writes a ↔ (p → c.Writes a) ∧ (¬ p → d.Writes a) := by
  by_cases hp : p
  · simp [hp]
  · simp [hp]

theorem ite_write_congr {b : α} (hc : p → c.write a = c.write b)
    (hd : ¬ p → d.write a = d.write b) :
    (if p then c else d).write a = (if p then c else d).write b := by
  split_ifs with hp
  · exact hc hp
  · exact hd hp

end

/-- A reader that gives up unless that many bytes are left. -/
def atLeast (k : Nat) (c : Codec α) : Codec α where
  write := c.write
  read bytes := if bytes.length < k then ⟨[], none⟩ else c.read bytes

theorem Lawful.atLeast (hc : c.Lawful n) {k : Nat}
    (hk : ∀ a bs, c.write a = some bs → k ≤ bs.length) : (atLeast k c).Lawful n where
  round := by
    intro a bs rest h
    have henough : ¬ (bs ++ rest).length < k := by
      have hle : k ≤ bs.length := hk a bs h
      rw [List.length_append]
      omega
    have hread := hc.round a bs rest h
    simp only [Reader.Reads, Codec.atLeast, if_neg henough]
    exact hread
  canon := by
    intro bytes a rest h
    by_cases hfew : bytes.length < k
    · simp [Codec.atLeast, hfew] at h
    · simp only [Codec.atLeast, if_neg hfew] at h ⊢
      exact hc.canon bytes a rest h

theorem Safe.atLeast (hc : c.Safe) (k : Nat) : (atLeast k c).Safe where
  inRange := by
    intro bytes e he
    by_cases hfew : bytes.length < k
    · simp [Codec.atLeast, hfew] at he
    · simp only [Codec.atLeast, if_neg hfew] at he
      exact hc.inRange bytes e he
  forward := by
    intro bytes a rest h
    by_cases hfew : bytes.length < k
    · simp [Codec.atLeast, hfew] at h
    · simp only [Codec.atLeast, if_neg hfew] at h
      exact hc.forward bytes a rest h

@[simp] theorem writes_atLeast (k : Nat) (c : Codec α) (a : α) :
    (atLeast k c).Writes a ↔ c.Writes a :=
  Iff.rfl

/-- The reader performs some operations before it starts. -/
def noting (ops : List Note) (c : Codec α) : Codec α where
  write := c.write
  read bytes := ⟨ops ++ (c.read bytes).notes, (c.read bytes).value⟩

theorem Lawful.noting (hc : c.Lawful n) {ops : List Note} (hops : Note.cut ∉ ops) :
    (noting ops c).Lawful n where
  round := by
    intro a bs rest h
    have hread := hc.round a bs rest h
    refine ⟨hread.1, ?_⟩
    simp only [Codec.noting, List.mem_append, not_or]
    exact ⟨hops, hread.2⟩
  canon := by
    intro bytes a rest h
    rcases hc.canon bytes a rest h with ⟨bs, hbs, hbytes⟩
    refine ⟨bs, hbs, ?_⟩
    simp only [Codec.noting, List.mem_append, not_or]
    exact fun hcut => hbytes hcut.2

@[simp] theorem writes_noting (ops : List Note) (c : Codec α) (a : α) :
    (noting ops c).Writes a ↔ c.Writes a :=
  Iff.rfl

/-! ## Many values -/

/-- One value for each key, without a count. -/
def forEach (f : κ → Codec α) : List κ → Codec (List α)
  | [] => (absent ()).map (fun l => if l.isEmpty then some () else none) fun _ => []
  | k :: ks => ((f k).pair (forEach f ks)).map (fun l => l.head?.map fun a => (a, l.tail))
      fun p => p.1 :: p.2

theorem forEach_cons_write (f : κ → Codec α) (k : κ) (ks : List κ) (l : List α) (bs : List UInt8) :
    (forEach f (k :: ks)).write l = some bs ↔
      ∃ a t x y, l = a :: t ∧ (f k).write a = some x ∧ (forEach f ks).write t = some y ∧
        x ++ y = bs := by
  rw [forEach, map_write]
  cases l with
  | nil => simp
  | cons a t =>
    simp only [List.head?_cons, Option.map_some, List.tail_cons, Option.some.injEq]
    constructor
    · rintro ⟨p, rfl, hp⟩
      rcases (pair_write _ _ _ _).mp hp with ⟨x, y, hx, hy, rfl⟩
      exact ⟨a, t, x, y, rfl, hx, hy, rfl⟩
    · rintro ⟨a', t', x, y, hl, hx, hy, rfl⟩
      rw [List.cons.injEq] at hl
      rw [← hl.1] at hx
      rw [← hl.2] at hy
      exact ⟨(a, t), rfl, (pair_write _ _ _ _).mpr ⟨x, y, hx, hy, rfl⟩⟩

variable {f : κ → Codec α}

theorem Lawful.forEach (hf : ∀ k, (f k).Lawful n) (ks : List κ) :
    (forEach f ks).Lawful (List.map n) := by
  induction ks with
  | nil =>
    refine (Lawful.absent ()).map (fun _ _ => rfl) ?_
    intro l _ hl
    cases l with
    | nil => rfl
    | cons a l => simp at hl
  | cons k ks ih =>
    refine ((hf k).pair ih).map (fun _ _ => rfl) ?_
    intro l p hp
    cases l with
    | nil => simp at hp
    | cons a t =>
      simp only [List.head?_cons, Option.map_some, List.tail_cons, Option.some.injEq] at hp
      rw [← hp]
      rfl

theorem Safe.forEach {ks : List κ} (hf : ∀ k ∈ ks, (f k).Safe) : (forEach f ks).Safe := by
  induction ks with
  | nil => exact (Safe.absent ()).map _ _
  | cons k ks ih =>
    have hrest := ih fun k' hk' => hf k' (List.mem_cons_of_mem k hk')
    exact ((hf k List.mem_cons_self).pair hrest).map _ _

theorem writes_forEach (f : κ → Codec α) (ks : List κ) (l : List α) :
    (forEach f ks).Writes l ↔ List.Forall₂ (fun k a => (f k).Writes a) ks l := by
  induction ks generalizing l with
  | nil =>
    cases l with
    | nil | cons a l => simp [forEach]
  | cons k ks ih =>
    cases l with
    | nil => simp [forEach]
    | cons a l => simp [forEach, ih]

/-- What is written depends on what is written for each key. -/
theorem forEach_write_congr {ι : Type} {g : ι → Codec α} {ks : List κ} {is : List ι}
    (h : List.Forall₂ (fun k i => (f k).write = (g i).write) ks is) :
    (forEach f ks).write = (forEach g is).write := by
  induction h with
  | nil => rfl
  | cons hhead _ ih =>
    ext l : 1
    cases l with
    | nil => rfl
    | cons a l => simp only [forEach, map, pair, seq, hhead, ih]

/-- So many values in a row. -/
def array (n : Nat) (c : Codec α) : Codec (List α) :=
  forEach (fun _ : Unit => c) (List.replicate n ())

theorem Lawful.array (hc : c.Lawful n) (k : Nat) : (array k c).Lawful (List.map n) :=
  Lawful.forEach (fun _ => hc) _

theorem Lawful.array_id (hc : c.Lawful id) (k : Nat) : (Codec.array k c).Lawful id := by
  have h := hc.array k
  rwa [List.map_id_fun] at h

theorem Safe.array (hc : c.Safe) (k : Nat) : (array k c).Safe :=
  Safe.forEach fun _ _ => hc

@[simp] theorem writes_array (k : Nat) (c : Codec α) (l : List α) :
    (array k c).Writes l ↔ l.length = k ∧ ∀ a ∈ l, c.Writes a := by
  rw [array, writes_forEach]
  induction k generalizing l with
  | zero => simp [List.length_eq_zero_iff]; rintro rfl; simp
  | succ k ih =>
    cases l with
    | nil => simp
    | cons a l =>
      rw [List.replicate_succ, List.forall₂_cons, ih]
      simp
      tauto

/-- Values that are written alike one by one are written alike together. -/
theorem array_write_congr {l l' : List α} (h : List.Forall₂ (fun a b => c.write a = c.write b) l l')
    (k : Nat) : (array k c).write l = (array k c).write l' := by
  induction k generalizing l l' with
  | zero =>
    cases h with
    | nil | cons _ _ => rfl
  | succ k ih =>
    cases h with
    | nil => rfl
    | cons hhead htail =>
      have hrest := ih htail
      simp only [array, List.replicate_succ, forEach, map, pair, seq, List.head?_cons,
        Option.map_some, List.tail_cons, Option.bind_some] at hrest ⊢
      rw [hhead, hrest]

/-- Values that take `w` bytes or more each take `w * k` bytes or more together. -/
theorem array_length_le {w : Nat} (hc : ∀ a bs, c.write a = some bs → w ≤ bs.length) (k : Nat)
    (l : List α) (bs : List UInt8) (h : (array k c).write l = some bs) : k * w ≤ bs.length := by
  induction k generalizing l bs with
  | zero => omega
  | succ k ih =>
    rcases (forEach_cons_write _ _ _ _ _).mp h with ⟨a, t, x, y, -, hx, hy, rfl⟩
    have hfirst : w ≤ x.length := hc a x hx
    have hothers : k * w ≤ y.length := ih t y hy
    rw [List.length_append, Nat.add_mul]
    omega

/-- So many values in a row, where the reader computes after each one how many are left. -/
def delimited (n : Nat) (c : Codec α) : Codec (List α) :=
  forEach (fun i => c.check (fun _ => true) fun _ => [.sub n i]) (List.range n)

theorem delimited_write (n : Nat) (c : Codec α) : (delimited n c).write = (array n c).write := by
  refine forEach_write_congr (List.forall₂_iff_get.mpr ⟨by simp, fun i _ _ => ?_⟩)
  simp [check]

theorem Lawful.delimited (hc : c.Lawful n) (k : Nat) : (delimited k c).Lawful (List.map n) :=
  Lawful.forEach (fun _ => hc.check (fun _ _ _ => rfl) fun _ => by simp) _

theorem Lawful.delimited_id (hc : c.Lawful id) (k : Nat) : (Codec.delimited k c).Lawful id := by
  have h := hc.delimited k
  rwa [List.map_id_fun] at h

/-- The loop counter stays below the bound it is taken from. -/
theorem Safe.delimited (hc : c.Safe) (k : Nat) : (delimited k c).Safe := by
  refine Safe.forEach fun i hi => hc.check _ fun _ _ _ _ e he => ?_
  rw [List.mem_singleton] at he
  rw [he]
  exact Nat.le_of_lt (List.mem_range.mp hi)

@[simp] theorem writes_delimited (k : Nat) (c : Codec α) (l : List α) :
    (delimited k c).Writes l ↔ l.length = k ∧ ∀ a ∈ l, c.Writes a := by
  rw [Writes, delimited_write]
  exact writes_array k c l

theorem delimited_write_congr {l l' : List α}
    (h : List.Forall₂ (fun a b => c.write a = c.write b) l l') (k : Nat) :
    (delimited k c).write l = (delimited k c).write l' := by
  rw [delimited_write, array_write_congr h]

/-! ## Sizes -/

/-- The value with the number of bytes it was read from, which is a difference of two positions. -/
def measured (c : Codec α) : Codec (α × Nat) where
  write p := c.write p.1
  read bytes := Reader.bind c.read (fun a rest =>
    ⟨[.sub bytes.length rest.length], some ((a, bytes.length - rest.length), rest)⟩) bytes

/-- The number of bytes the value is written with. -/
def size (c : Codec α) (a : α) : Nat :=
  ((c.write a).getD []).length

theorem size_eq {bs : List UInt8} (h : c.write a = some bs) : c.size a = bs.length := by
  rw [size, h, Option.getD_some]

section

variable (c : Codec α) (bytes : List UInt8)

theorem measured_read_value (p : α × Nat) (rest : List UInt8) :
    ((c.measured).read bytes).value = some (p, rest) ↔
      (c.read bytes).value = some (p.1, rest) ∧ p.2 = bytes.length - rest.length := by
  simp only [measured, Reader.bind_value, Option.some.injEq, Prod.mk.injEq]
  constructor
  · rintro ⟨a, mid, ha, rfl, rfl⟩
    exact ⟨ha, rfl⟩
  · rintro ⟨ha, hp⟩
    exact ⟨p.1, rest, ha, by rw [← hp], rfl⟩

theorem mem_measured_notes (e : Note) : e ∈ ((c.measured).read bytes).notes ↔
      e ∈ (c.read bytes).notes ∨
        ∃ a rest, (c.read bytes).value = some (a, rest) ∧ e = .sub bytes.length rest.length := by
  simp [measured, Reader.mem_bind_notes]

theorem cut_mem_measured_notes :
    Note.cut ∈ ((c.measured).read bytes).notes ↔ Note.cut ∈ (c.read bytes).notes := by
  simp [mem_measured_notes]

end

theorem Lawful.measured (hc : c.Lawful n) : (c.measured).Lawful fun p => (n p.1, c.size p.1) where
  round := by
    intro p bs rest h
    have hread := hc.round p.1 bs rest h
    refine ⟨(measured_read_value c _ _ _).mpr ⟨hread.1, ?_⟩, ?_⟩
    · have hsize : c.size p.1 = bs.length := size_eq h
      rw [hsize, List.length_append, Nat.add_sub_cancel]
    · rw [cut_mem_measured_notes]
      exact hread.2
  canon := by
    intro bytes p rest h
    rcases (measured_read_value c _ _ _).mp h with ⟨hread, -⟩
    rw [cut_mem_measured_notes]
    exact hc.canon _ _ _ hread

theorem Safe.measured (hc : c.Safe) : (c.measured).Safe where
  inRange := by
    intro bytes e he
    rcases (mem_measured_notes c bytes e).mp he with h | ⟨a, rest, ha, rfl⟩
    · exact hc.inRange bytes e h
    · exact hc.forward bytes a rest ha
  forward := by
    intro bytes p rest h
    exact hc.forward _ _ _ ((measured_read_value c bytes p rest).mp h).1

@[simp] theorem writes_measured (c : Codec α) (p : α × Nat) :
    (c.measured).Writes p ↔ c.Writes p.1 :=
  Iff.rfl

end Codec
