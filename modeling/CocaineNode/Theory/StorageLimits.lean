import CocaineNode.Theory.PortableStorage

/-!
# The Precautions of the Reader

On any bytes at all, and for any limits, the reader of portable storage stays
inside its buffer, opens no more calls than it is allowed, and makes no more
objects, fields and strings than the limits say. Its arithmetic on the limits
does not wrap, and the room it makes for arrays is bounded by the length of the
buffer.

Two accounts carry this. A call that returns has read at least one byte for
every string that it counted and for every element that it made room for: `Done`
says so, with what is left over as a parameter, so that an element of an array
can pay for its own place. A call that throws may leave arrays open that were
never filled. There is at most one of them for each open section, and each was
checked against the bytes that were left: `Failed` counts them.

The sum `m_strings + 1` is the one step that no limit guards. It does not wrap
because of the first account: there are fewer strings than bytes.

## Theorems

* `readSection_accounts`: The two accounts of a section.
* `readSection_bounded`: The precautions hold on every buffer.
-/

namespace CocaineNode

namespace PortableStorage

open Throwing (Ends)

/-! ## The record -/

/-- Bytes are inside the buffer, calls are not too deep and no arithmetic wraps. -/
def Note.Safe : Note → Prop
  | .access available wanted => wanted ≤ available
  | .enter depth => depth ≤ recursionLimit
  | .sub a b => b ≤ a
  | .add a b => a.toNat + b.toNat < 2 ^ 64
  | .reserve _ _ => True

/-- The number of elements that room was made for. -/
def reserved : List Note → Nat
  | [] => 0
  | .reserve _ n :: notes => n + reserved notes
  | _ :: notes => reserved notes

/-- The room made for elements, for the size of an element of each type. -/
def reservedBytes (size : EntryType → Nat) : List Note → Nat
  | [] => 0
  | .reserve t n :: notes => n * size t + reservedBytes size notes
  | _ :: notes => reservedBytes size notes

theorem reservedBytes_le {size : EntryType → Nat} {m : Nat} (hm : ∀ t, size t ≤ m)
    (notes : List Note) : reservedBytes size notes ≤ reserved notes * m := by
  induction notes with
  | nil => exact Nat.zero_le _
  | cons n notes ih =>
    cases n with
    | reserve t k =>
      rw [reservedBytes, reserved, Nat.add_mul]
      exact Nat.add_le_add (Nat.mul_le_mul_left k (hm t)) ih
    | access a w | enter d | sub a b | add a b => exact ih

namespace BufferReader

/-! ## The two accounts -/

/-- What holds of the reader at every call. -/
structure Sound (r : BufferReader) : Prop where
  count : r.count = r.ptr.length
  depth : r.recursionCount < recursionLimit
  counted : ∀ c, (r.counted c).toNat ≤ (r.limit c).toNat
  notes : ∀ n ∈ r.notes, n.Safe

/-- Strings can be counted for all the bytes that are left. -/
def Room (r : BufferReader) : Prop :=
  r.strings.toNat + r.ptr.length < 2 ^ 64

/-- The counters of `s` are those of `r` and the tally, under the same limits. -/
structure Counted (r : BufferReader) (t : Tally) (s : BufferReader) : Prop where
  sound : s.Sound
  depth : s.recursionCount = r.recursionCount
  limit : ∀ c, s.limit c = r.limit c
  counted : ∀ c, (s.counted c).toNat = (r.counted c).toNat + t.count c

/-- A call that started in `r` returns in `s`: at least `least` bytes are left over once each string
    and each element has had one, and so many calls were open. -/
structure Done (r : BufferReader) (t : Tally) (least frames : Nat) (s : BufferReader) : Prop
    extends Counted r t s where
  consumed : t.strings + s.ptr.length + least ≤ r.ptr.length
  reserved : reserved s.notes + s.ptr.length + least ≤ reserved r.notes + r.ptr.length
  frames : r.recursionCount + frames < recursionLimit

/-- Strings were counted or room was made for `n` elements, which have not been read. -/
structure Owing (r : BufferReader) (t : Tally) (n : Nat) (s : BufferReader) : Prop
    extends Counted r t s where
  ptr : s.ptr = r.ptr
  owed : t.strings ≤ n
  reserved : reserved s.notes ≤ reserved r.notes + n

/-- A call that started in `r` throws in `s`. There are at most `k` arrays that were not filled, and
    the calls allowed were used up only if there were not enough of them. -/
structure Failed (r : BufferReader) (k fuel : Nat) (e : Stop) (s : BufferReader) : Prop where
  notes : ∀ n ∈ s.notes, n.Safe
  reserved : reserved s.notes ≤ reserved r.notes + k * r.ptr.length
  spent : e = .spent → r.recursionCount + fuel < recursionLimit

variable {r s u : BufferReader} {t t' : Tally} {m m' f f' k n fuel : Nat} {e : Stop}

theorem Sound.refl (h : r.Sound) : r.Done 0 0 0 r where
  sound := h
  depth := rfl
  limit := fun _ => rfl
  counted := fun c => by cases c <;> rfl
  consumed := by
    rw [Tally.zero_strings]
    omega
  reserved := le_refl _
  frames := h.depth

/-- A call that throws before it has done anything. -/
theorem Sound.failed (h : r.Sound) (k fuel : Nat) : r.Failed k fuel .threw r :=
  ⟨h.notes, Nat.le_add_right _ _, nofun⟩

theorem Counted.trans (h : r.Counted t s) (h' : s.Counted t' u) : r.Counted (t + t') u where
  sound := h'.sound
  depth := h'.depth.trans h.depth
  limit := fun c => (h'.limit c).trans (h.limit c)
  counted := by
    intro c
    rw [h'.counted, h.counted, Tally.add_count, Nat.add_assoc]

theorem Counted.strings (h : r.Counted t s) : s.strings.toNat = r.strings.toNat + t.strings :=
  h.counted .strings

theorem Done.trans (h : r.Done t m f s) (h' : s.Done t' m' f' u) :
    r.Done (t + t') (m + m') (max f f') u where
  toCounted := h.toCounted.trans h'.toCounted
  consumed := by
    have hfirst := h.consumed
    have hsecond := h'.consumed
    rw [Tally.add_strings]
    omega
  reserved := by
    have hfirst := h.reserved
    have hsecond := h'.reserved
    omega
  frames := by
    have hfirst := h.frames
    have hsecond := h'.frames
    rw [h.depth] at hsecond
    omega

theorem Done.adapt (h : r.Done t m f s) (ht : t = t') (hm : m' ≤ m) (hf : f' ≤ f) :
    r.Done t' m' f' s where
  toCounted := ht ▸ h.toCounted
  consumed := by
    have := h.consumed
    rw [← ht]
    omega
  reserved := by
    have := h.reserved
    omega
  frames := by
    have := h.frames
    omega

/-- What is owed is paid by the bytes that are read next. -/
theorem Owing.paid (h : r.Owing t n s) (h' : s.Done t' m f u) (hn : n ≤ m) :
    r.Done (t + t') (m - n) f u where
  toCounted := h.toCounted.trans h'.toCounted
  consumed := by
    have howed := h.owed
    have hsecond := h'.consumed
    rw [h.ptr] at hsecond
    rw [Tally.add_strings]
    omega
  reserved := by
    have howed := h.reserved
    have hsecond := h'.reserved
    rw [h.ptr] at hsecond
    omega
  frames := by
    have := h'.frames
    rw [h.depth] at this
    exact this

theorem Done.room (h : r.Done t m f s) (hroom : r.Room) : s.Room := by
  have hconsumed := h.consumed
  rw [Room] at hroom ⊢
  rw [h.strings]
  omega

theorem Done.length_le (h : r.Done t m f s) : s.ptr.length ≤ r.ptr.length := by
  have := h.consumed
  omega

/-- What a later part of a call leaves behind, the call leaves behind. -/
theorem Done.failed (h : r.Done t m f s) (h' : s.Failed k fuel e u) (hk : 1 ≤ k) :
    r.Failed k fuel e u where
  notes := h'.notes
  reserved := by
    have hfirst := h.reserved
    have hsecond := h'.reserved
    have hlen := h.length_le
    -- The bytes that the first part read are worth at least one each.
    have hmul : k * s.ptr.length + (r.ptr.length - s.ptr.length) ≤ k * r.ptr.length := by
      rcases Nat.exists_eq_add_of_le hlen with ⟨d, hd⟩
      rw [hd, Nat.mul_add, Nat.add_sub_cancel_left]
      exact Nat.add_le_add_left (Nat.le_mul_of_pos_left d hk) _
    omega
  spent := fun he => h.depth ▸ h'.spent he

/-- An array that was not filled is one more of them. -/
theorem Owing.failed (h : r.Owing t n s) (h' : s.Failed k fuel e u) (hn : n ≤ r.ptr.length) :
    r.Failed (k + 1) fuel e u where
  notes := h'.notes
  reserved := by
    have hfirst := h.reserved
    have hsecond := h'.reserved
    rw [h.ptr] at hsecond
    rw [Nat.add_mul, Nat.one_mul]
    omega
  spent := fun he => h.depth ▸ h'.spent he

/-- Where only counts were added, no array was left open. -/
theorem Owing.counted_failed (h : r.Owing t n s)
    (hreserved : PortableStorage.reserved s.notes = PortableStorage.reserved r.notes)
    (h' : s.Failed k fuel e u) : r.Failed k fuel e u where
  notes := h'.notes
  reserved := by
    have hsecond := h'.reserved
    rw [h.ptr, hreserved] at hsecond
    exact hsecond
  spent := fun he => h.depth ▸ h'.spent he

theorem Failed.mono (h : r.Failed k fuel e s) {k' fuel' : Nat} (hk : k ≤ k')
    (hfuel : fuel' ≤ fuel) : r.Failed k' fuel' e s where
  notes := h.notes
  reserved := h.reserved.trans (Nat.add_le_add_left (Nat.mul_le_mul_right _ hk) _)
  spent := fun he => by
    have := h.spent he
    omega

end BufferReader

open BufferReader

/-! ## Rules -/

/-- From `r` the call returns with an account of what it returns, or throws with one. -/
def Accounts {α : Type} (p : Reader α) (r : BufferReader) (t : α → Tally) (least : Nat)
    (frames : α → Nat) (k fuel : Nat) : Prop :=
  Ends p r (fun a s => r.Done (t a) least (frames a) s) (r.Failed k fuel)

section Rules

variable {α β : Type} {p : Reader α} {q : α → Reader β} {body : Reader β} {r s : BufferReader}
  {t : Tally} {t' : α → Tally} {m m' f k k' fuel fuel' : Nat} {f' : α → Nat}
  {Q : β → BufferReader → Prop}

theorem Accounts.mono (h : Accounts p r t' m f' k fuel) (hk : k ≤ k') (hfuel : fuel' ≤ fuel) :
    Accounts p r t' m f' k' fuel' :=
  Ends.mono h (fun _ _ h => h) fun _ _ h => h.mono hk hfuel

/-- The last part of a call. -/
theorem BufferReader.Done.last {R : α → BufferReader → Prop} (hs : r.Done t m f s) (hk : 1 ≤ k)
    (hp : Accounts p s t' m' f' k fuel)
    (hR : ∀ a u, r.Done (t + t' a) (m + m') (max f (f' a)) u → R a u) :
    Ends p s R (r.Failed k fuel) :=
  Ends.mono hp (fun a u hu => hR a u (hs.trans hu)) fun _ _ hu => hs.failed hu hk

/-- One part after the other. -/
theorem BufferReader.Done.next (hs : r.Done t m f s) (hk : 1 ≤ k)
    (hp : Accounts p s t' m' f' k fuel)
    (hq : ∀ a u, r.Done (t + t' a) (m + m') (max f (f' a)) u → Ends (q a) u Q (r.Failed k fuel)) :
    Ends (p >>= q) s Q (r.Failed k fuel) :=
  Ends.bind (hs.last hk hp hq)

/-- A check, and what follows it. -/
theorem BufferReader.Done.check {c : Prop} [Decidable c] (hs : r.Done t m f s) (hk : 1 ≤ k)
    (hbody : c → Ends body s Q (r.Failed k fuel)) :
    Ends (do check c; body) s Q (r.Failed k fuel) := by
  apply Ends.bind
  rw [PortableStorage.check]
  split_ifs with hc
  · exact Ends.pure (hbody hc)
  · exact Ends.throw (hs.failed (hs.sound.failed k fuel) hk)

theorem BufferReader.Sound.note (hr : r.Sound) {n : Note} (hn : n.Safe) :
    BufferReader.Sound { r with notes := n :: r.notes } where
  count := hr.count
  depth := hr.depth
  counted := hr.counted
  notes := by
    intro n' hn'
    rcases List.mem_cons.mp hn' with rfl | hn'
    · exact hn
    · exact hr.notes n' hn'

theorem BufferReader.Sound.enter (hr : r.Sound) (h : r.enter.recursionCount < recursionLimit) :
    r.enter.Sound where
  count := hr.count
  depth := h
  counted := hr.counted
  notes := by
    refine (hr.note (n := .enter (r.recursionCount + 1)) ?_).notes
    exact hr.depth

section

variable (hr : r.Sound) (hbody : r.enter.Sound → Accounts p r.enter t' m f' k fuel)
include hr hbody

/-- An open call, around what it does. -/
theorem accounts_limited : Accounts (limited p) r t' m (fun a => f' a + 1) k (fuel + 1) := by
  rw [Accounts, Ends, limited]
  split_ifs with hdepth
  · have hends := hbody (hr.enter hdepth)
    cases hrun : p r.enter with
    | ok a s =>
      have hdone := hends.ok hrun
      have hcount : s.recursionCount = r.recursionCount + 1 := hdone.depth
      have hback : s.leave.recursionCount = r.recursionCount := by
        rw [leave, hcount, Nat.add_sub_cancel]
      refine ⟨⟨⟨hdone.sound.count, ?_, hdone.sound.counted, hdone.sound.notes⟩, hback, hdone.limit,
        hdone.counted⟩, hdone.consumed, hdone.reserved, ?_⟩
      · rw [hback]
        exact hr.depth
      · have hframes : r.recursionCount + 1 + f' a < recursionLimit := hdone.frames
        omega
    | error e s =>
      have hfailed := hends.error hrun
      refine ⟨hfailed.notes, hfailed.reserved, ?_⟩
      intro he
      have hspent : r.recursionCount + 1 + fuel < recursionLimit := hfailed.spent he
      omega
  · refine ⟨(hr.note (n := .enter (r.recursionCount + 1)) ?_).notes, Nat.le_add_right _ _,
      fun he => by cases he⟩
    exact hr.depth

/-- An open call, where the bound on the open sections is not used up. -/
theorem limited_accounts : Accounts (limited p) r t' m (fun a => f' a + 1) k fuel :=
  (accounts_limited hr hbody).mono (le_refl k) (Nat.le_succ fuel)

end

theorem Accounts.weaken {f : α → Nat} (h : Accounts p r t' m f' k fuel) (hm : m' ≤ m)
    (hf : ∀ a, f a ≤ f' a) : Accounts p r t' m' f k fuel :=
  Ends.mono h (fun a _ hs => hs.adapt rfl hm (hf a)) fun _ _ h => h

/-- An open call takes one of the calls that are counted. -/
theorem limited_accounts_pred {f : α → Nat} (hr : r.Sound)
    (hbody : r.enter.Sound → Accounts p r.enter t' m (fun a => f a - 1) k fuel) :
    Accounts (limited p) r t' m f k fuel :=
  (limited_accounts hr hbody).weaken (le_refl m) fun _ => by omega

end Rules

/-! ## Bytes, numbers and strings -/

section Plain

variable {r s : BufferReader} {k fuel : Nat} (hr : r.Sound)
include hr

/-- The bytes at the pointer, when there are so many of them. -/
theorem takeBytes_accounts {n : Nat} (hn : n ≤ r.count) (k fuel : Nat) :
    Accounts (takeBytes n) r (fun _ => 0) n (fun _ => 0) k fuel := by
  have hlen : n ≤ r.ptr.length := hr.count ▸ hn
  have hdrop : (r.ptr.drop n).length = r.ptr.length - n := List.length_drop
  refine ⟨⟨⟨?_, hr.depth, hr.counted, ?_⟩, rfl, hr.refl.limit, hr.refl.counted⟩, ?_, ?_, hr.depth⟩
  · change r.count - n = (r.ptr.drop n).length
    rw [hdrop, hr.count]
  · exact (hr.note (n := .access r.ptr.length n) hlen).notes
  · change 0 + (r.ptr.drop n).length + n ≤ r.ptr.length
    omega
  · change reserved r.notes + (r.ptr.drop n).length + n ≤ reserved r.notes + r.ptr.length
    omega

theorem readRaw_accounts (n : Nat) (hk : 1 ≤ k) :
    Accounts (readRaw n) r (fun _ => 0) n (fun _ => 1) k fuel := by
  refine limited_accounts hr fun henter => ?_
  refine Ends.get (henter.refl.check hk fun hn => ?_)
  exact takeBytes_accounts henter hn k fuel

theorem readPod_accounts (t : PodType) (hk : 1 ≤ k) :
    Accounts (readPod t) r (fun _ => 0) t.size (fun _ => 2) k fuel := by
  refine limited_accounts hr fun henter => ?_
  refine henter.refl.next hk (readRaw_accounts henter t.size hk) ?_
  intro bytes s hs
  split_ifs with hbool
  · refine hs.check hk fun _ => Ends.pure ?_
    exact hs.adapt rfl (by omega) (le_max_right _ _)
  · exact Ends.pure (hs.adapt rfl (by omega) (le_max_right _ _))

theorem readSecName_accounts (hk : 1 ≤ k) :
    Accounts readSecName r (fun _ => 0) 1 (fun _ => 3) k fuel := by
  refine limited_accounts hr fun henter => ?_
  refine henter.refl.next hk (readPod_accounts henter .uint8 hk) ?_
  intro len s hs
  refine hs.check hk fun hlen => ?_
  refine hs.last hk (readRaw_accounts hs.sound len.val hk) ?_
  intro name u hu
  exact hu.adapt rfl (by change 1 ≤ 0 + 1 + len.val; omega) (by simp)

theorem peekByte_accounts (h : 1 ≤ r.count) (k fuel : Nat) :
    Accounts peekByte r (fun _ => 0) 0 (fun _ => 0) k fuel := by
  have hlen : 1 ≤ r.ptr.length := hr.count ▸ h
  have hsound := hr.note (n := .access r.ptr.length 1) hlen
  refine ⟨⟨hsound, rfl, hr.refl.limit, hr.refl.counted⟩, ?_, le_refl _, hr.depth⟩
  change 0 + r.ptr.length + 0 ≤ r.ptr.length
  omega

omit hr in
theorem sizeType_pos (mark : UInt8) : 1 ≤ (sizeType mark).size := by
  rw [sizeType]
  split_ifs <;> decide

theorem readVarint_accounts (hk : 1 ≤ k) :
    Accounts readVarint r (fun _ => 0) 1 (fun _ => 4) k fuel := by
  refine limited_accounts hr fun henter => ?_
  refine Ends.get (henter.refl.check hk fun hcount => ?_)
  refine henter.refl.next hk (peekByte_accounts henter hcount k fuel) ?_
  intro b s hs
  have hnumber : Accounts (readNew (readPod (sizeType (b &&& 0x03)))) s (fun _ => 0)
      (sizeType (b &&& 0x03)).size (fun _ => 3) k fuel :=
    limited_accounts hs.sound fun h => readPod_accounts h _ hk
  refine hs.next hk hnumber ?_
  intro v u hu
  have hpos := sizeType_pos (b &&& 0x03)
  exact Ends.pure (hu.adapt rfl (by omega) (le_max_right _ _))

theorem readString_accounts (hk : 1 ≤ k) :
    Accounts readString r (fun _ => 0) 1 (fun _ => 5) k fuel := by
  refine limited_accounts hr fun henter => ?_
  refine henter.refl.next hk (readVarint_accounts henter hk) ?_
  intro len s hs
  refine hs.check hk fun _ => Ends.get (hs.check hk fun hlen => ?_)
  refine hs.last hk (takeBytes_accounts hs.sound hlen k fuel) ?_
  intro bytes u hu
  exact hu.adapt rfl (by omega) (by simp)

end Plain

/-! ## Counting -/

section Counting

variable {r s : BufferReader} {k fuel : Nat}

theorem bump_notes (r : BufferReader) (n : UInt64) (c : Counter) :
    (r.bump n c).notes = r.notes := by
  cases c <;> rfl

/-- More of a kind are counted, as far as the limit allows. -/
theorem BufferReader.Sound.bump (hr : r.Sound) (c : Counter) {n : UInt64} {notes : List Note}
    (hroom : (r.counted c).toNat + n.toNat ≤ (r.limit c).toNat) (hnotes : ∀ n ∈ notes, n.Safe)
    (hreserved : reserved notes = reserved r.notes) :
    r.Owing (.single n.toNat c) (Tally.single n.toNat c).strings
      ({ r with notes := notes }.bump n c) := by
  have hlimit : (r.limit c).toNat < 2 ^ 64 := (r.limit c).toNat_lt
  have hadd : (r.counted c + n).toNat = (r.counted c).toNat + n.toNat := by
    rw [UInt64.toNat_add, Nat.mod_eq_of_lt (by omega)]
  have hcounted (i : Counter) : (({ r with notes := notes }.bump n c).counted i).toNat =
      (r.counted i).toNat + (Tally.single n.toNat c).count i := by
    cases c <;> cases i <;> first | exact hadd | rfl
  have hbelow (i : Counter) :
      (r.counted i).toNat + (Tally.single n.toNat c).count i ≤ (r.limit i).toNat := by
    have hi := hr.counted i
    cases c <;> cases i <;> first | exact hroom | exact hi
  have hsound (i : Counter) := (hcounted i).trans_le (hbelow i)
  cases c <;> exact ⟨⟨⟨hr.count, hr.depth, hsound, hnotes⟩, rfl, fun _ => rfl, hcounted⟩, rfl,
    le_refl _, hreserved.le.trans (Nat.le_add_right _ _)⟩

theorem addCount_owing (hr : r.Sound) (c : Counter) (n : UInt64) (k fuel : Nat) :
    Ends (addCount c n) r
      (fun _ s => r.Owing (.single n.toNat c) (Tally.single n.toNat c).strings s ∧
        reserved s.notes = reserved r.notes) (r.Failed k fuel) := by
  have hle : r.counted c ≤ r.limit c := UInt64.le_iff_toNat_le.mpr (hr.counted c)
  have hsub : (r.limit c - r.counted c).toNat = (r.limit c).toNat - (r.counted c).toNat :=
    UInt64.toNat_sub_of_le _ _ hle
  have hnoted := hr.note (n := .sub (r.limit c) (r.counted c)) hle
  change Ends (do
    check (n ≤ r.limit c - r.counted c)
    note (.add (r.counted c) n)
    modify fun r => r.bump n c) { r with notes := .sub (r.limit c) (r.counted c) :: r.notes } _ _
  rw [check]
  split_ifs with hn
  · have hroom : (r.counted c).toNat + n.toNat ≤ (r.limit c).toNat := by
      have := UInt64.le_iff_toNat_le.mp hn
      have := hr.counted c
      omega
    have hsafe : (Note.add (r.counted c) n).Safe := by
      have := (r.limit c).toNat_lt
      change (r.counted c).toNat + n.toNat < 2 ^ 64
      omega
    refine ⟨hr.bump c hroom (hnoted.note hsafe).notes rfl, ?_⟩
    rw [bump_notes]
    rfl
  · exact ⟨hnoted.notes, Nat.le_add_right _ _, fun he => by cases he⟩

/-- What the number of elements adds to the counts is owed. -/
theorem countElements_owing (hr : r.Sound) (type : EntryType) (n : UInt64) (k fuel : Nat) :
    Ends (countElements type n) r
      (fun _ s => r.Owing (elementsTally type n.toNat) (elementsTally type n.toNat).strings s ∧
        reserved s.notes = reserved r.notes) (r.Failed k fuel) := by
  have hnothing : r.Owing 0 0 r ∧ reserved r.notes = reserved r.notes :=
    ⟨⟨hr.refl.toCounted, rfl, le_refl _, le_refl _⟩, rfl⟩
  cases type with
  | pod t => exact Ends.pure hnothing
  | string => exact addCount_owing hr .strings n k fuel
  | object => exact addCount_owing hr .objects n k fuel
  | array => exact Ends.pure hnothing

theorem elementsTally_strings_le (type : EntryType) (n : Nat) :
    (elementsTally type n).strings ≤ n := by
  cases type with
  | pod t => exact Nat.zero_le n
  | string => exact le_refl n
  | object | array => exact Nat.zero_le n

/-- The room made for them is owed with them. -/
theorem reserveElements_owing {type : EntryType} {n : UInt64} {E : Stop → BufferReader → Prop}
    (hs : r.Owing (elementsTally type n.toNat) (elementsTally type n.toNat).strings s)
    (hreserved : reserved s.notes = reserved r.notes) :
    Ends (reserveElements type n) s
      (fun _ u => r.Owing (elementsTally type n.toNat) n.toNat u) E := by
  have howed := elementsTally_strings_le type n.toNat
  rw [reserveElements]
  split_ifs with hbool
  · exact Ends.pure ⟨hs.toCounted, hs.ptr, howed, hreserved.le.trans (Nat.le_add_right _ _)⟩
  · have hnoted := hs.sound.note (n := .reserve type n.toNat) trivial
    refine ⟨⟨hnoted, hs.depth, hs.limit, hs.counted⟩, hs.ptr, howed, ?_⟩
    change n.toNat + reserved s.notes ≤ reserved r.notes + n.toNat
    omega

theorem countString_owing (hr : r.Sound) (hroom : r.strings.toNat + 1 < 2 ^ 64) (k fuel : Nat) :
    Ends countString r (fun _ s => r.Owing ⟨0, 0, 1⟩ 1 s ∧ reserved s.notes = reserved r.notes)
      (r.Failed k fuel) := by
  have hnoted := hr.note (n := .add r.strings 1) hroom
  have hadd : (r.strings + 1).toNat = r.strings.toNat + 1 := by
    exact Nat.mod_eq_of_lt hroom
  change Ends (do
    check (r.strings + 1 ≤ r.maxStrings)
    modify fun r => r.bump 1 .strings) { r with notes := .add r.strings 1 :: r.notes } _ _
  rw [check]
  split_ifs with hle
  · have hle' : r.strings.toNat + 1 ≤ r.maxStrings.toNat := by
      rw [← hadd]
      exact UInt64.le_iff_toNat_le.mp hle
    exact ⟨hr.bump .strings (n := 1) hle' hnoted.notes rfl, rfl⟩
  · exact ⟨hnoted.notes, Nat.le_add_right _ _, fun he => by cases he⟩

theorem countObject_owing (hr : r.Sound) (k fuel : Nat) :
    Ends countObject r (fun _ s => r.Owing ⟨1, 0, 0⟩ 0 s ∧ reserved s.notes = reserved r.notes)
      (r.Failed k fuel) := by
  change Ends (do
    check (r.objects < r.maxObjects)
    note (.add r.objects 1)
    modify fun r => r.bump 1 .objects) r _ _
  rw [check]
  split_ifs with hlt
  · have hlt' : r.objects.toNat + 1 ≤ r.maxObjects.toNat := UInt64.lt_iff_toNat_lt.mp hlt
    have hsafe : (Note.add r.objects 1).Safe := lt_of_le_of_lt hlt' r.maxObjects.toNat_lt
    exact ⟨hr.bump .objects (n := 1) hlt' (hr.note hsafe).notes rfl, rfl⟩
  · exact hr.failed k fuel

end Counting

/-! ## Arrays -/

section Arrays

variable {α : Type} {p : Reader α} {r s : BufferReader} {t : α → Tally} {f : α → Nat}
  {tl : List α → Tally} {fl : List α → Nat} {k fuel : Nat}

/-- The elements of an array, each of which takes at least one byte more than it owes. -/
theorem times_accounts (P : BufferReader → Prop) (t : α → Tally) (f : α → Nat)
    (tl : List α → Tally) (fl : List α → Nat) (hk : 1 ≤ k)
    (hP : ∀ {r s t m f}, BufferReader.Done r t m f s → P r → P s) (hnil : tl [] = 0 ∧ fl [] = 0)
    (hcons : ∀ a l, tl (a :: l) = t a + tl l ∧ fl (a :: l) = max (f a) (fl l))
    (hp : ∀ r : BufferReader, r.Sound → P r → Accounts p r t 1 f k fuel) (n : Nat)
    (hr : r.Sound) (hPr : P r) :
    Ends (Throwing.times n p) r (fun l s => l.length = n ∧ r.Done (tl l) n (fl l) s)
      (r.Failed k fuel) := by
  induction n generalizing r with
  | zero =>
    refine Ends.pure ⟨rfl, ?_⟩
    rw [hnil.1, hnil.2]
    exact hr.refl
  | succ n ih =>
    refine Ends.then (hp r hr hPr) ?_
    intro a s hs
    refine Ends.bind (Ends.mono (ih hs.sound (hP hs hPr)) ?_ fun _ _ h => hs.failed h hk)
    rintro l u ⟨hlen, hu⟩
    refine Ends.pure ⟨by rw [List.length_cons, hlen], ?_⟩
    exact (hs.trans hu).adapt (hcons a l).1.symm (by omega) (hcons a l).2.le

theorem BufferReader.Owing.room {type : EntryType} {n : Nat}
    (h : r.Owing (elementsTally type n) n s) (htype : type ≠ .string)
    (hroom : r.Room) : s.Room := by
  have hzero : (elementsTally type n).strings = 0 := by
    cases type with
    | string => exact absurd rfl htype
    | pod t | object | array => rfl
  rw [Room, h.ptr, h.strings, hzero]
  exact hroom

theorem readAe_accounts (hr : r.Sound) (hroom : r.Room) (type : EntryType)
    (helements : ∀ (n : Nat) (s : BufferReader), s.Sound → (type ≠ .string → s.Room) →
      Ends (Throwing.times n (readNew p)) s (fun l u => l.length = n ∧ s.Done (tl l) n (fl l) u)
        (s.Failed k fuel)) :
    Accounts (readAe type p) r (fun l => elementsTally type l.length + tl l) 1
      (fun l => max 4 (fl l) + 1) (k + 1) fuel := by
  have hk' : 1 ≤ k + 1 := Nat.le_add_left 1 k
  refine limited_accounts hr fun henter => ?_
  refine henter.refl.next hk' (readVarint_accounts henter hk') ?_
  intro size s hs
  refine Ends.get (hs.check hk' fun hsize => ?_)
  have hlen : size.toNat ≤ s.ptr.length := hs.sound.count ▸ hsize.trans (Nat.div_le_self _ _)
  refine Ends.bind (Ends.mono (countElements_owing hs.sound type size (k + 1) fuel) ?_
    fun _ _ h => hs.failed h hk')
  rintro - u ⟨hu, hreserved⟩
  refine Ends.then (reserveElements_owing hu hreserved) ?_
  intro _ v hv
  -- From here the elements pay for what is owed, or one more array is left open.
  have hroom' : type ≠ .string → v.Room := fun htype => hv.room htype (hs.room hroom)
  refine Ends.mono (helements size.toNat v hv.sound hroom') ?_ ?_
  · rintro l w ⟨hl, hw⟩
    rw [← hl] at hv hw
    refine (hs.trans (hv.paid hw (le_refl _))).adapt ?_ (by omega) ?_
    · rw [Tally.add_zero, Tally.zero_add]
    · simp
  · intro e w hw
    exact hs.failed (hv.failed hw hlen) hk'

end Arrays

/-! ## Sections -/

/-- A call that reads a section accounts for it. -/
def SectionAccounts (sec : Reader Section) (k fuel : Nat) : Prop :=
  ∀ r : BufferReader, r.Sound → r.Room → Accounts sec r Section.tally 1 Section.frames k fuel

section Sections

variable {r s : BufferReader} {sec : Reader Section} {k fuel : Nat}

theorem podSize_pos (t : PodType) : 1 ≤ t.size := by
  cases t <;> decide

theorem pods_ends (fuel : Nat) (hk : 1 ≤ k) (t : PodType) (n : Nat) (hr : r.Sound) :
    Ends (Throwing.times n (readNew (readPod t))) r (fun l s => l.length = n ∧ r.Done 0 n 0 s)
      (r.Failed k fuel) := by
  refine times_accounts (fun _ => True) (fun _ => 0) (fun _ => 0) (fun _ => 0) (fun _ => 0) hk
    (fun _ _ => trivial) ⟨rfl, rfl⟩ (fun _ _ => ⟨rfl, rfl⟩) ?_ n hr trivial
  intro r hr _
  exact (limited_accounts hr fun h => readPod_accounts h t hk).weaken (podSize_pos t)
    fun _ => Nat.zero_le _

theorem strings_ends (fuel : Nat) (hk : 1 ≤ k) (n : Nat) (hr : r.Sound) :
    Ends (Throwing.times n (readNew readString)) r
      (fun l s => l.length = n ∧ r.Done 0 n (if l = [] then 0 else 6) s) (r.Failed k fuel) := by
  refine times_accounts (fun _ => True) (fun _ => 0) (fun _ => 6) (fun _ => 0)
    (fun l => if l = [] then 0 else 6) hk (fun _ _ => trivial) ⟨rfl, rfl⟩ ?_ ?_ n hr trivial
  · intro a l
    refine ⟨rfl, ?_⟩
    by_cases hl : l = [] <;> simp [hl]
  · intro r hr _
    exact limited_accounts hr fun h => readString_accounts h hk

theorem sections_ends (hk : 1 ≤ k) (hsec : SectionAccounts sec k fuel) (n : Nat) (hr : r.Sound)
    (hroom : r.Room) :
    Ends (Throwing.times n (readNew sec)) r
      (fun l s => l.length = n ∧ r.Done (tallySections l) n (framesSections l) s)
      (r.Failed k fuel) := by
  refine times_accounts BufferReader.Room Section.tally (fun s => s.frames + 1) tallySections
    framesSections hk Done.room ⟨rfl, rfl⟩ ?_ ?_ n hr hroom
  · intro a l
    refine ⟨rfl, ?_⟩
    rw [framesSections, Nat.add_comm]
  · intro r hr hroom
    exact limited_accounts hr fun h => hsec r.enter h hroom

/-- No element that is an array is ever read, so any account of such elements will do. -/
theorem arrays_ends (fuel : Nat) (hk : 1 ≤ k) (n : Nat) (hr : r.Sound) :
    Ends (Throwing.times n (readNew readArrayEntry)) r
      (fun l s => l.length = n ∧ r.Done (tallyArrays l) n 0 s) (r.Failed k fuel) := by
  refine times_accounts (fun _ => True) ArrayEntry.tally (fun _ => 0) tallyArrays (fun _ => 0) hk
    (fun _ _ => trivial) ⟨rfl, rfl⟩ (fun _ _ => ⟨rfl, rfl⟩) ?_ n hr trivial
  intro r hr _
  have hentry (h : r.enter.Sound) :
      Accounts readArrayEntry r.enter ArrayEntry.tally 1 (fun _ => 1) k fuel :=
    limited_accounts h fun h' => Ends.throw (h'.failed k fuel)
  exact (limited_accounts hr hentry).weaken (le_refl 1) fun _ => Nat.zero_le _

variable (hk : 1 ≤ k) (hsec : SectionAccounts sec k fuel) (hr : r.Sound) (hroom : r.Room)
include hk hsec hr hroom

theorem loadStorageArrayEntry_accounts (type : UInt8) :
    Accounts (loadStorageArrayEntry sec type) r StorageEntry.tally 1 StorageEntry.frames (k + 1)
      fuel := by
  refine limited_accounts_pred hr fun henter => ?_
  have hroom' : r.enter.Room := hroom
  cases EntryType.ofCode (type &&& ~~~flagArray) with
  | none => exact Ends.throw (henter.failed _ _)
  | some kind =>
    cases kind with
    | pod t =>
      have hae := readAe_accounts henter hroom' (.pod t) fun n s hs _ => pods_ends fuel hk t n hs
      refine Ends.then hae ?_
      intro l s hs
      exact Ends.pure hs
    | string =>
      have hae := readAe_accounts henter hroom' .string fun n s hs _ => strings_ends fuel hk n hs
      refine Ends.then hae ?_
      intro l s hs
      refine Ends.pure (hs.adapt rfl (le_refl 1) ?_)
      by_cases hl : l = [] <;> simp [hl, StorageEntry.frames, ArrayEntry.frames]
    | object =>
      have hae := readAe_accounts henter hroom' .object
        fun n s hs hroom => sections_ends hk hsec n hs (hroom fun h => by cases h)
      refine Ends.then hae ?_
      intro l s hs
      refine Ends.pure (hs.adapt rfl (le_refl 1) ?_)
      simp only [StorageEntry.frames, ArrayEntry.frames]
      omega
    | array =>
      have hae := readAe_accounts henter hroom' .array fun n s hs _ => arrays_ends fuel hk n hs
      refine Ends.then hae ?_
      intro l s hs
      exact Ends.pure (hs.adapt (Tally.zero_add _) (le_refl 1) (le_refl _))

omit hsec hroom in
theorem readSePod_accounts (t : PodType) :
    Accounts (readSePod t) r StorageEntry.tally 0 StorageEntry.frames k fuel := by
  refine limited_accounts_pred hr fun henter => ?_
  refine Ends.then (readPod_accounts henter t hk) ?_
  intro v s hs
  exact Ends.pure (hs.adapt rfl (Nat.zero_le _) (le_refl 2))

omit hsec hroom in
/-- A string pays for its place in the count with the byte of its size. -/
theorem readSeString_accounts (hroom : r.strings.toNat + 1 < 2 ^ 64) :
    Accounts readSeString r StorageEntry.tally 0 StorageEntry.frames k fuel := by
  refine limited_accounts_pred hr fun henter => ?_
  refine Ends.then (countString_owing henter hroom k fuel) ?_
  rintro - s ⟨hs, hreserved⟩
  have hread : Accounts (readNew readString) s (fun _ => 0) 1 (fun _ => 6) k fuel :=
    limited_accounts hs.sound fun h => readString_accounts h hk
  refine Ends.bind (Ends.mono hread ?_ fun _ _ h => hs.counted_failed hreserved h)
  intro bytes u hu
  exact Ends.pure ((hs.paid hu (le_refl 1)).adapt rfl (Nat.zero_le _) (le_refl _))

omit hk in
theorem readSeSection_accounts :
    Accounts (readSeSection sec) r StorageEntry.tally 0 StorageEntry.frames k fuel := by
  refine limited_accounts_pred hr fun henter => ?_
  refine Ends.then (countObject_owing henter k fuel) ?_
  rintro - s ⟨hs, hreserved⟩
  have hroom' : s.Room := by
    rw [Room, hs.ptr, hs.strings]
    exact hroom
  refine Ends.bind (Ends.mono (hsec s hs.sound hroom') ?_
    fun _ _ h => hs.counted_failed hreserved h)
  intro a u hu
  refine Ends.pure ((hs.paid hu (Nat.zero_le 1)).adapt rfl (Nat.zero_le _) ?_)
  simp only [StorageEntry.frames]
  omega

theorem readSeArray_accounts :
    Accounts (readSeArray sec) r StorageEntry.tally 0 StorageEntry.frames (k + 1) fuel := by
  have hk' : 1 ≤ k + 1 := Nat.le_add_left 1 k
  refine limited_accounts_pred hr fun henter => ?_
  refine henter.refl.next hk' (readPod_accounts henter .uint8 hk') ?_
  intro type s hs
  refine hs.check hk' fun _ => ?_
  refine hs.last hk' (loadStorageArrayEntry_accounts hk hsec hs.sound (hs.room hroom) _) ?_
  intro e u hu
  exact hu.adapt (Tally.zero_add _) (Nat.zero_le _) ((Nat.sub_le _ _).trans (le_max_right _ _))

theorem loadStorageEntry_accounts : Accounts (loadStorageEntry sec) r StorageEntry.tally 1
      (fun e => max 2 e.frames + 1) (k + 1) fuel := by
  have hk' : 1 ≤ k + 1 := Nat.le_add_left 1 k
  refine limited_accounts hr fun henter => ?_
  refine henter.refl.next hk' (readPod_accounts henter .uint8 hk') ?_
  intro type s hs
  have hroom' : s.Room := hs.room hroom
  -- The byte of the type leaves room for one string more.
  have hstrings : s.strings.toNat + 1 < 2 ^ 64 := by
    have hconsumed := hs.consumed
    have hcount : s.strings.toNat = r.strings.toNat + 0 := hs.strings
    have hptr : r.enter.ptr.length = r.ptr.length := rfl
    have hsize : PodType.uint8.size = 1 := rfl
    rw [Room] at hroom
    omega
  refine hs.last hk' (?_ : Accounts _ s StorageEntry.tally 0 StorageEntry.frames (k + 1) fuel) ?_
  · split_ifs with harray
    · exact (loadStorageArrayEntry_accounts hk hsec hs.sound hroom' _).weaken (Nat.zero_le 1)
        fun _ => le_refl _
    · cases EntryType.ofCode (UInt8.ofNat type.val) with
      | none => exact Ends.throw (hs.sound.failed _ _)
      | some kind =>
        cases kind with
        | pod t => exact readSePod_accounts hk' hs.sound t
        | string => exact readSeString_accounts hk' hs.sound hstrings
        | object =>
          exact (readSeSection_accounts hsec hs.sound hroom').mono (Nat.le_succ k) (le_refl _)
        | array => exact readSeArray_accounts hk hsec hs.sound hroom'
  · intro e u hu
    refine hu.adapt (Tally.zero_add _) (le_refl 1) ?_
    simp

omit hk hsec hr hroom

/-! The entries are kept in the order of their names, so the one that was read last need not stand
last. -/

section

variable (name : Blob) (e : StorageEntry) (es : List (Blob × StorageEntry))

theorem tallyEntries_insert : tallyEntries (insertEntry name e es) = e.tally + tallyEntries es := by
  induction es with
  | nil => rfl
  | cons p es ih =>
    rw [insertEntry]
    split_ifs with h
    · rfl
    · rw [tallyEntries, ih]
      ext <;> simp [tallyEntries] <;> omega

theorem framesEntries_insert : framesEntries (insertEntry name e es) =
      max (max 3 (1 + max 2 e.frames)) (framesEntries es) := by
  induction es with
  | nil => rfl
  | cons p es ih =>
    rw [insertEntry]
    split_ifs with h
    · rfl
    · rw [framesEntries, ih, framesEntries]
      omega

theorem insertEntry_length : (insertEntry name e es).length = es.length + 1 := by
  induction es with
  | nil => rfl
  | cons p es ih =>
    rw [insertEntry]
    split_ifs with h
    · rfl
    · rw [List.length_cons, ih, List.length_cons]

end

theorem readEntries_ends {entry : Reader StorageEntry} (hk : 1 ≤ k)
    (hentry : ∀ r : BufferReader, r.Sound → r.Room →
      Accounts entry r StorageEntry.tally 1 (fun e => max 2 e.frames + 1) k fuel)
    (n : Nat) (es : List (Blob × StorageEntry)) (hr : r.Sound) (hroom : r.Room) :
    Ends (readEntries entry n es) r
      (fun es' s => es'.length = es.length + n ∧ ∃ t f, tallyEntries es' = tallyEntries es + t ∧
        framesEntries es' = max (framesEntries es) f ∧ r.Done t 0 f s) (r.Failed k fuel) := by
  induction n generalizing es r with
  | zero =>
    refine Ends.pure ⟨rfl, 0, 0, rfl, ?_, hr.refl⟩
    rw [Nat.max_zero]
  | succ n ih =>
    refine hr.refl.next hk (readSecName_accounts hr hk) ?_
    intro name s hs
    refine hs.check hk fun _ => ?_
    refine hs.next hk (hentry s hs.sound (hs.room hroom)) ?_
    intro e u hu
    refine Ends.mono (ih (insertEntry name e es) hu.sound (hu.room hroom)) ?_
      fun _ _ h => hu.failed h hk
    rintro es' v ⟨hlen, t, f, htally, hframes, hv⟩
    refine ⟨?_, e.tally + t, max (max 3 (1 + max 2 e.frames)) f, ?_, ?_, ?_⟩
    · rw [hlen, insertEntry_length]
      omega
    · rw [htally, tallyEntries_insert]
      ext <;> simp <;> omega
    · rw [hframes, framesEntries_insert]
      omega
    · refine (hu.trans hv).adapt ?_ (Nat.zero_le _) ?_
      · ext <;> simp
      · omega

theorem readSection_accounts (fuel : Nat) : SectionAccounts (readSection fuel) (fuel + 1) fuel := by
  induction fuel with
  | zero =>
    intro r hr _
    exact Ends.throw ⟨hr.notes, Nat.le_add_right _ _, fun _ => hr.depth⟩
  | succ fuel ih =>
    intro r hr hroom
    have hk : 1 ≤ fuel + 1 + 1 := by omega
    have hframes (s : Section) : s.frames ≤ (s.frames - 1) + 1 := by omega
    refine Accounts.weaken (accounts_limited hr fun henter => ?_) (le_refl 1) hframes
    refine henter.refl.next hk (readVarint_accounts henter hk) ?_
    intro count s hs
    refine Ends.bind (Ends.mono (addCount_owing hs.sound .fields count _ fuel) ?_
      fun _ _ h => hs.failed h hk)
    rintro - u ⟨hu, hreserved⟩
    have hroom' : u.Room := by
      rw [Room, hu.ptr, hu.strings]
      exact hs.room hroom
    have hentry (r : BufferReader) (hr : r.Sound) (hroom : r.Room) :=
      loadStorageEntry_accounts (Nat.le_add_left 1 fuel) ih hr hroom
    refine Ends.bind (Ends.mono (readEntries_ends hk hentry count.toNat [] hu.sound hroom') ?_
      fun _ _ h => hs.failed (hu.counted_failed hreserved h) hk)
    rintro es v ⟨hlen, t, f, htally, hf, hv⟩
    refine Ends.pure ((hs.trans (hu.paid hv (le_refl 0))).adapt ?_ (le_refl 1) ?_)
    · rw [Section.tally, hlen, htally]
      ext <;> simp [Tally.single, tallyEntries]
    · simp only [Section.frames, hf, framesEntries]
      omega

end Sections

/-! ## Every buffer -/

/-- The record of a run on the buffer is safe, and the room made for elements is at most a constant
    times the length of the buffer, for any bound on the size of an element. -/
structure BufferReader.Bounded (r : BufferReader) (buffer : Blob) : Prop where
  notes : ∀ n ∈ r.notes, n.Safe
  reserved : ∀ (size : EntryType → Nat) (m : Nat), (∀ t, size t ≤ m) →
    reservedBytes size r.notes ≤ (recursionLimit + 1) * m * buffer.length

theorem bounded_of_reserved {r : BufferReader} {buffer : Blob} (hnotes : ∀ n ∈ r.notes, n.Safe)
    (hreserved : reserved r.notes ≤ (recursionLimit + 1) * buffer.length) : r.Bounded buffer where
  notes := hnotes
  reserved := by
    intro size m hm
    calc reservedBytes size r.notes
        ≤ reserved r.notes * m := reservedBytes_le hm r.notes
      _ ≤ (recursionLimit + 1) * buffer.length * m := Nat.mul_le_mul_right m hreserved
      _ = (recursionLimit + 1) * m * buffer.length := Nat.mul_right_comm _ _ _

theorem newReader_sound (buffer : Blob) (limits : Limits) : (newReader buffer limits).Sound where
  count := rfl
  depth := (by decide : 0 < recursionLimit)
  counted := fun c => by cases c <;> exact Nat.zero_le _
  notes := nofun

theorem newReader_room (buffer : Span) (limits : Limits) :
    (newReader buffer.bytes limits).Room := by
  change 0 + buffer.bytes.length < 2 ^ 64
  rw [Nat.zero_add]
  exact buffer.fits

/-- On every buffer and for all limits the reader ends, its record is bounded, and what it returns
    is within the limits. -/
theorem readSection_bounded (buffer : Span) (limits : Limits) :
    Ends (readSection recursionLimit) (newReader buffer.bytes limits)
      (fun s r => r.Bounded buffer.bytes ∧ s.tally.objects ≤ limits.objects.toNat ∧
        s.tally.fields ≤ limits.fields.toNat ∧ s.tally.strings ≤ limits.strings.toNat)
      (fun e r => e = .threw ∧ r.Bounded buffer.bytes) := by
  refine Ends.mono (readSection_accounts recursionLimit _ (newReader_sound _ _)
    (newReader_room buffer limits)) ?_ ?_
  · intro s r hr
    have hreserved : reserved r.notes + r.ptr.length + 1 ≤ 0 + buffer.bytes.length := hr.reserved
    have hwithin (c : Counter) :
        s.tally.count c ≤ ((newReader buffer.bytes limits).limit c).toNat := by
      have hle := hr.sound.counted c
      rw [hr.limit, hr.counted] at hle
      exact (Nat.le_add_left _ _).trans hle
    refine ⟨bounded_of_reserved hr.sound.notes ?_, hwithin .objects, hwithin .fields,
      hwithin .strings⟩
    have hle : 1 * buffer.bytes.length ≤ (recursionLimit + 1) * buffer.bytes.length :=
      Nat.mul_le_mul_right _ (by decide)
    omega
  · intro e r hr
    have hreserved :
      reserved r.notes ≤ 0 + (recursionLimit + 1) * buffer.bytes.length := hr.reserved
    rw [Nat.zero_add] at hreserved
    refine ⟨?_, bounded_of_reserved hr.notes hreserved⟩
    -- The calls allowed are as many as can be open.
    cases e with
    | threw => rfl
    | spent =>
      have hspent : 0 + recursionLimit < recursionLimit := hr.spent rfl
      omega

end PortableStorage

end CocaineNode
