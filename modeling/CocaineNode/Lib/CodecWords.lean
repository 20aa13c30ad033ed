import CocaineNode.Lib.Codec
import Mathlib.Data.Nat.Bitwise
import Mathlib.Tactic.Linarith
import Mathlib.Tactic.Ring

/-!
# Numbers as Bytes

The number formats a `Codec` is made from: words of a fixed number of bytes, and
varints, which hold seven bits in each byte and mark the last byte by a clear
high bit.

The varint reader is the one that keeps going as long as there is input. It
refuses a byte that does not fit the width and a last byte that adds nothing, so
a varint has one encoding. It does not refuse to be cut off: when the input ends
it comes back with what it has so far. `Codec.Note.cut` is recorded there, and
nowhere else.

## Theorems

* `Codec.Safe.varint`: The shifts of the varint reader stay inside their widths.
* `Codec.Lawful.counted`: A list of elements of at least a byte each.
-/

namespace Codec

open List UInt8 Nat

variable {α : Type}

/-! ## Fixed sizes -/

/-- So many bytes, whatever they are. -/
def raw (n : Nat) (enc : α → List UInt8) (dec : List UInt8 → α) : Codec α where
  write a := some (enc a)
  read bytes :=
    if bytes.length < n then ⟨[], none⟩ else ⟨[], some (dec (bytes.take n), bytes.drop n)⟩

variable {n : Nat}

theorem Lawful.raw {enc : α → List UInt8} {dec : List UInt8 → α} (hlen : ∀ a, (enc a).length = n)
    (hdec : ∀ a, dec (enc a) = a) (henc : ∀ bs, bs.length = n → enc (dec bs) = bs) :
    (raw n enc dec).Lawful id where
  round := by
    intro a bs rest h
    cases h
    have henough : ¬ (enc a ++ rest).length < n := by
      rw [length_append, hlen]
      omega
    simp only [Reader.Reads, Codec.raw, if_neg henough, id]
    rw [take_left' (hlen a), drop_left' (hlen a), hdec]
    exact ⟨rfl, not_mem_nil⟩
  canon := by
    intro bytes a rest h
    by_cases hfew : bytes.length < n
    · simp [Codec.raw, hfew] at h
    · simp only [Codec.raw, if_neg hfew, Option.some.injEq, Prod.mk.injEq] at h
      rcases h with ⟨rfl, rfl⟩
      have htake : (bytes.take n).length = n := by
        rw [length_take]
        omega
      refine ⟨_, rfl, fun _ => ?_⟩
      rw [henc _ htake, take_append_drop]

theorem Safe.raw (n : Nat) (enc : α → List UInt8) (dec : List UInt8 → α) :
    (raw n enc dec).Safe where
  inRange := by
    intro bytes e he
    by_cases hfew : bytes.length < n
    · simp [Codec.raw, hfew] at he
    · simp [Codec.raw, hfew] at he
  forward := by
    intro bytes a rest h
    by_cases hfew : bytes.length < n
    · simp [Codec.raw, hfew] at h
    · simp only [Codec.raw, if_neg hfew, Option.some.injEq, Prod.mk.injEq] at h
      rw [← h.2, length_drop]
      omega

/-- The lowest `n` bytes of a number, the lowest first. -/
def littleEndian : Nat → Nat → List UInt8
  | 0, _ => []
  | n + 1, v => ofNat v :: littleEndian n (v / 256)

/-- The number that bytes stand for, the lowest byte first. -/
def ofLittleEndian : List UInt8 → Nat
  | [] => 0
  | b :: bs => b.toNat + 256 * ofLittleEndian bs

@[simp] theorem littleEndian_length (n v : Nat) : (littleEndian n v).length = n := by
  induction n generalizing v with
  | zero => rfl
  | succ n ih => rw [littleEndian, length_cons, ih]

theorem ofLittleEndian_littleEndian (n v : Nat) :
    ofLittleEndian (littleEndian n v) = v % 256 ^ n := by
  induction n generalizing v with
  | zero => rw [littleEndian, ofLittleEndian, pow_zero, mod_one]
  | succ n ih =>
    have hmul : v % 256 ^ (n + 1) = v % 256 + 256 * (v / 256 % 256 ^ n) := by
      rw [pow_succ', mod_mul]
    rw [littleEndian, ofLittleEndian, ih, toNat_ofNat', hmul]

theorem littleEndian_ofLittleEndian (bs : List UInt8) :
    littleEndian bs.length (ofLittleEndian bs) = bs := by
  induction bs with
  | nil => rfl
  | cons b bs ih =>
    have hb : b.toNat < 256 := b.toNat_lt
    rw [length_cons, littleEndian, ofLittleEndian]
    congr 1
    · apply UInt8.toNat_inj.mp
      rw [UInt8.toNat_ofNat']
      omega
    · rw [show (b.toNat + 256 * ofLittleEndian bs) / 256 = ofLittleEndian bs by omega, ih]

theorem ofLittleEndian_lt (bs : List UInt8) : ofLittleEndian bs < 256 ^ bs.length := by
  induction bs with
  | nil => exact one_pos
  | cons b bs ih =>
    have hb : b.toNat < 256 := b.toNat_lt
    rw [ofLittleEndian, length_cons, pow_succ']
    omega

private theorem pow_bytes (n : Nat) : 2 ^ (8 * n) = 256 ^ n := by
  rw [pow_mul, show 2 ^ 8 = 256 from rfl]

variable (n)

theorem ofLittleEndian_word (x : BitVec (8 * n)) :
    BitVec.ofNat (8 * n) (ofLittleEndian (littleEndian n x.toNat)) = x := by
  apply BitVec.eq_of_toNat_eq
  rw [ofLittleEndian_littleEndian, BitVec.toNat_ofNat, pow_bytes, mod_mod, ← pow_bytes,
    mod_eq_of_lt x.isLt]

theorem littleEndian_word (bs : List UInt8) (h : bs.length = n) :
    littleEndian n (BitVec.ofNat (8 * n) (ofLittleEndian bs)).toNat = bs := by
  have hlt : ofLittleEndian bs < 2 ^ (8 * n) := by
    rw [pow_bytes, ← h]
    exact ofLittleEndian_lt bs
  rw [BitVec.toNat_ofNat, mod_eq_of_lt hlt, ← h, littleEndian_ofLittleEndian]

/-- A word of `n` bytes, the lowest first. -/
def word (n : Nat) : Codec (BitVec (8 * n)) :=
  raw n (fun x => littleEndian n x.toNat) fun bs => BitVec.ofNat _ (ofLittleEndian bs)

theorem Lawful.word : (word n).Lawful id :=
  Lawful.raw (fun _ => littleEndian_length _ _) (ofLittleEndian_word n) (littleEndian_word n)

theorem Safe.word : (word n).Safe :=
  Safe.raw _ _ _

/-- A word of `n` bytes, the highest first: bytes compare as the words do. -/
def blob (n : Nat) : Codec (BitVec (8 * n)) :=
  raw n (fun x => (littleEndian n x.toNat).reverse)
    fun bs => BitVec.ofNat _ (ofLittleEndian bs.reverse)

theorem Lawful.blob : (blob n).Lawful id := by
  refine Lawful.raw (fun x => ?_) (fun x => ?_) (fun bs hbs => ?_)
  · rw [length_reverse, littleEndian_length]
  · rw [reverse_reverse, ofLittleEndian_word]
  · rw [littleEndian_word n _ (by rw [length_reverse, hbs]), reverse_reverse]

theorem Safe.blob : (blob n).Safe :=
  Safe.raw _ _ _

@[simp] theorem writes_blob (x : BitVec (8 * n)) : (blob n).Writes x :=
  rfl

theorem blob_length (x : BitVec (8 * n)) (bs : List UInt8)
    (h : (blob n).write x = some bs) : bs.length = n := by
  cases h
  rw [length_reverse, littleEndian_length]

variable {n}

/-- One byte. -/
def byte : Codec UInt8 :=
  raw 1 (fun b => [b]) fun bs => bs.headD 0

theorem Lawful.byte : byte.Lawful id := by
  refine Lawful.raw (fun _ => rfl) (fun _ => rfl) (fun bs hbs => ?_)
  rcases length_eq_one_iff.mp hbs with ⟨b, rfl⟩
  rfl

theorem Safe.byte : byte.Safe :=
  Safe.raw _ _ _

@[simp] theorem writes_byte (b : UInt8) : byte.Writes b :=
  rfl

theorem Wide.byte : byte.Wide := by
  intro b bs h
  cases h
  exact one_pos

/-! ## Varints -/

/-- Seven bits a byte, the lowest first, with the high bit set in all but the last. -/
def writeVarint (n : Nat) : List UInt8 :=
  if n < 128 then [ofNat n]
  else ofNat (n % 128 + 128) :: writeVarint (n / 128)

/-- The operations of the test whether a byte fits. It is made when seven bits or fewer are left. -/
def varintGuard (w shift : Nat) : List Note :=
  if w ≤ shift + 7 then [.sub w shift, .shl 32 (w - shift)] else []

/-- The loop that reads a varint, from a shift on and with what it has read so far. The width of
    the shifted integers is that of `int` or of the result, whichever is larger. -/
def readVarint (w : Nat) (shift : Nat) (value : BitVec w) : Reader (BitVec w)
  | [] => ⟨[.cut], some (value, [])⟩
  | b :: rest =>
    -- The byte does not fit what is left of the width.
    if w ≤ shift + 7 ∧ 2 ^ (w - shift) ≤ b.toNat then ⟨varintGuard w shift, none⟩
    -- A shorter encoding would do.
    else if b = 0 ∧ shift ≠ 0 then ⟨varintGuard w shift, none⟩
    else
      let value' := value ||| BitVec.ofNat w (b.toNat % 128) <<< shift
      let ops := varintGuard w shift ++ [.shl (max 32 w) shift]
      if b.toNat < 128 then ⟨ops, some (value', rest)⟩
      else
        let o := readVarint w (shift + 7) value' rest
        ⟨ops ++ o.notes, o.value⟩

/-- An integer of `w` bits as a varint. -/
def varint (w : Nat) : Codec (BitVec w) where
  write x := some (writeVarint x.toNat)
  read := readVarint w 0 0

theorem writeVarint_small (h : n < 128) : writeVarint n = [UInt8.ofNat n] := by
  rw [writeVarint, if_pos h]

theorem writeVarint_large (h : ¬ n < 128) :
    writeVarint n = ofNat (n % 128 + 128) :: writeVarint (n / 128) := by
  rw [writeVarint, if_neg h]

theorem writeVarint_pos (n : Nat) : 0 < (writeVarint n).length := by
  by_cases h : n < 128
  · rw [writeVarint_small h]
    exact one_pos
  · rw [writeVarint_large h]
    exact succ_pos _

variable {w shift m : Nat} {value : BitVec w}

/-- What a byte adds at a shift it fits at. -/
theorem toNat_place (hv : value.toNat < 2 ^ shift) (hm : m * 2 ^ shift < 2 ^ w) :
    (value ||| BitVec.ofNat w m <<< shift).toNat = value.toNat + m * 2 ^ shift := by
  have hmw : m < 2 ^ w := by
    nlinarith
  rw [BitVec.toNat_or, BitVec.toNat_shiftLeft, BitVec.toNat_ofNat, mod_eq_of_lt hmw,
    Nat.shiftLeft_eq, Nat.mod_eq_of_lt hm, Nat.or_comm, Nat.mul_comm m,
    ← two_pow_add_eq_or_of_lt hv, add_comm]

/-- A byte that the reader lets through fits. -/
theorem place_lt {b : Nat} (hs : shift < w) (h : ¬ (w ≤ shift + 7 ∧ 2 ^ (w - shift) ≤ b)) :
    b % 128 * 2 ^ shift < 2 ^ w := by
  have hpos : 0 < 2 ^ shift := Nat.two_pow_pos shift
  by_cases hlast : w ≤ shift + 7
  · have hb : b < 2 ^ (w - shift) := by
      by_contra hc
      exact h ⟨hlast, by omega⟩
    have hle : b % 128 ≤ b := mod_le b 128
    calc b % 128 * 2 ^ shift ≤ b * 2 ^ shift := mul_le_mul_right _ hle
      _ < 2 ^ (w - shift) * 2 ^ shift := mul_lt_mul_of_pos_right hb hpos
      _ = 2 ^ w := pow_sub_mul_pow 2 hs.le
  · have hmod : b % 128 < 128 := mod_lt _ (by omega)
    calc b % 128 * 2 ^ shift < 2 ^ 7 * 2 ^ shift := mul_lt_mul_of_pos_right hmod hpos
      _ = 2 ^ (shift + 7) := by rw [← pow_add, add_comm]
      _ ≤ 2 ^ w := Nat.pow_le_pow_right (by omega) (by omega)

/-- Only a byte with a clear high bit fits when seven bits or fewer are left. -/
theorem continues_lt {b : Nat} (h : ¬ (w ≤ shift + 7 ∧ 2 ^ (w - shift) ≤ b)) (hb : ¬ b < 128) :
    shift + 7 < w := by
  by_contra hc
  have hle : 2 ^ (w - shift) ≤ 2 ^ 7 := Nat.pow_le_pow_right (by omega) (by omega)
  exact h ⟨by omega, by omega⟩

theorem readVarint_nil (w shift : Nat) (value : BitVec w) :
    readVarint w shift value [] = ⟨[.cut], some (value, [])⟩ := by
  rw [readVarint]

variable {x : BitVec w} {bytes : List UInt8}

/-- What was read is the varint of a number, and unless it was cut off of no other. -/
theorem readVarint_canon {rest : List UInt8} (hs : shift < w) (hv : value.toNat < 2 ^ shift)
    (h : (readVarint w shift value bytes).value = some (x, rest)) :
    ∃ m, x.toNat = value.toNat + m * 2 ^ shift ∧
      (Note.cut ∉ (readVarint w shift value bytes).notes →
        (shift ≠ 0 → m ≠ 0) ∧ writeVarint m ++ rest = bytes) := by
  induction bytes generalizing shift value with
  | nil =>
    rw [readVarint_nil] at h ⊢
    simp only [Option.some.injEq, Prod.mk.injEq] at h
    refine ⟨0, by rw [h.1]; omega, ?_⟩
    intro hcut
    exact absurd (mem_singleton.mpr rfl) hcut
  | cons b bytes ih =>
    rw [readVarint] at h ⊢
    by_cases hover : w ≤ shift + 7 ∧ 2 ^ (w - shift) ≤ b.toNat
    · rw [if_pos hover] at h
      cases h
    rw [if_neg hover] at h ⊢
    by_cases hzero : b = 0 ∧ shift ≠ 0
    · rw [if_pos hzero] at h
      cases h
    rw [if_neg hzero] at h ⊢
    have hplace := toNat_place hv (place_lt hs hover)
    by_cases hlast : b.toNat < 128
    · -- The last byte: its seven bits are all there is.
      rw [if_pos hlast] at h ⊢
      simp only [Option.some.injEq, Prod.mk.injEq] at h
      rw [mod_eq_of_lt hlast] at hplace h
      refine ⟨b.toNat, by rw [← h.1, hplace], fun _ => ⟨?_, ?_⟩⟩
      · intro hshift hb
        exact hzero ⟨UInt8.toNat_inj.mp hb, hshift⟩
      · rw [writeVarint_small hlast, ← h.2, UInt8.ofNat_toNat]
        rfl
    · rw [if_neg hlast] at h ⊢
      have hnext : shift + 7 < w := continues_lt hover hlast
      have hseven : 2 ^ (shift + 7) = 2 ^ shift * 128 := by
        rw [pow_add, show 2 ^ 7 = 128 from rfl]
      have hmod : b.toNat % 128 < 128 := mod_lt _ (by omega)
      have hv' : (value ||| BitVec.ofNat w (b.toNat % 128) <<< shift).toNat < 2 ^ (shift + 7) := by
        rw [hplace, hseven]
        nlinarith
      rcases ih hnext hv' h with ⟨m, hm, hrest⟩
      refine ⟨b.toNat % 128 + 128 * m, ?_, ?_⟩
      · rw [hm, hplace, hseven]
        ring
      · intro hcut
        rw [mem_append, not_or] at hcut
        rcases hrest hcut.2 with ⟨hm0, hbytes⟩
        -- The rest is not zero, so the number does not fit one byte.
        have hlarge : ¬ b.toNat % 128 + 128 * m < 128 := by omega
        have hb : b.toNat < 256 := b.toNat_lt
        refine ⟨fun _ => by omega, ?_⟩
        rw [writeVarint_large hlarge, show (b.toNat % 128 + 128 * m) / 128 = m by omega,
          show (b.toNat % 128 + 128 * m) % 128 + 128 = b.toNat by omega, UInt8.ofNat_toNat,
          cons_append, hbytes]

/-- A number that is left at a shift is below what is left of the width. -/
theorem left_lt {v : Nat} (x : BitVec w) (hs : shift < w) (hx : x.toNat = v + m * 2 ^ shift) :
    m * 2 ^ shift < 2 ^ w ∧ m < 2 ^ (w - shift) := by
  have hfit : m * 2 ^ shift < 2 ^ w := by
    omega
  refine ⟨hfit, ?_⟩
  rw [← pow_sub_mul_pow 2 hs.le] at hfit
  exact Nat.lt_of_mul_lt_mul_right hfit

theorem not_cut_mem_varintGuard (w shift : Nat) : Note.cut ∉ varintGuard w shift := by
  rw [varintGuard]
  by_cases hlast : w ≤ shift + 7
  · simp [hlast]
  · simp [hlast]

section

variable (rest : List UInt8) (hs : shift < w) (hv : value.toNat < 2 ^ shift)
  (hx : x.toNat = value.toNat + m * 2 ^ shift) (hm : shift ≠ 0 → m ≠ 0)
include rest hs hv hx hm

/-- A last byte is read back. -/
theorem readVarint_round_last (hsmall : m < 128) :
    (readVarint w shift value).Reads (ofNat m :: rest) x rest := by
  rcases left_lt x hs hx with ⟨hfit, hmw⟩
  have hb : (ofNat m).toNat = m := by
    rw [toNat_ofNat']
    omega
  have hover : ¬ (w ≤ shift + 7 ∧ 2 ^ (w - shift) ≤ m) := by omega
  have hzero : ¬ (ofNat m = 0 ∧ shift ≠ 0) := by
    rintro ⟨h0, hshift⟩
    apply hm hshift
    rw [← hb, h0]
    rfl
  have hvalue : value ||| BitVec.ofNat w m <<< shift = x :=
    BitVec.eq_of_toNat_eq (by rw [toNat_place hv hfit, hx])
  rw [Reader.Reads, readVarint]
  simp only [hb, if_neg hover, if_neg hzero, if_pos hsmall, mod_eq_of_lt hsmall, hvalue, true_and]
  simp [not_cut_mem_varintGuard]

/-- What was written is read back. -/
theorem readVarint_round : (readVarint w shift value).Reads (writeVarint m ++ rest) x rest := by
  -- One byte less of the number for every seven bits more of the shift.
  induction m using Nat.strongRecOn generalizing shift value with
  | ind m ih =>
    by_cases hsmall : m < 128
    · rw [writeVarint_small hsmall]
      exact readVarint_round_last rest hs hv hx hm hsmall
    rcases left_lt x hs hx with ⟨hfit, hmw⟩
    have hb : (ofNat (m % 128 + 128)).toNat = m % 128 + 128 := by
      rw [toNat_ofNat']
      omega
    have hnext : shift + 7 < w := by
      by_contra hc
      have hle : 2 ^ (w - shift) ≤ 2 ^ 7 := Nat.pow_le_pow_right (by omega) (by omega)
      omega
    have hover : ¬ (w ≤ shift + 7 ∧ 2 ^ (w - shift) ≤ m % 128 + 128) := by omega
    have hzero : ¬ (ofNat (m % 128 + 128) = 0 ∧ shift ≠ 0) := by
      rintro ⟨h0, -⟩
      rw [h0] at hb
      simp at hb
    have hseven : 2 ^ (shift + 7) = 2 ^ shift * 128 := by rw [pow_add, show 2 ^ 7 = 128 from rfl]
    have hmod : m % 128 < 128 := mod_lt _ (by omega)
    have hplace : (value ||| BitVec.ofNat w (m % 128) <<< shift).toNat
        = value.toNat + m % 128 * 2 ^ shift := by
      refine toNat_place hv (lt_of_le_of_lt ?_ hfit)
      exact mul_le_mul_right _ (mod_le m 128)
    have hv' : (value ||| BitVec.ofNat w (m % 128) <<< shift).toNat < 2 ^ (shift + 7) := by
      rw [hplace, hseven]
      nlinarith
    have hx' : x.toNat = (value ||| BitVec.ofNat w (m % 128) <<< shift).toNat
        + m / 128 * 2 ^ (shift + 7) := by
      rw [hx, hplace, hseven]
      calc value.toNat + m * 2 ^ shift
          = value.toNat + (m % 128 + 128 * (m / 128)) * 2 ^ shift := by
            rw [mod_add_div]
        _ = _ := by ring
    have hrest := ih (m / 128) (by omega) hnext hv' hx' fun _ => by omega
    rw [writeVarint_large hsmall, Reader.Reads, cons_append, readVarint]
    simp only [hb, if_neg hover, if_neg hzero, show ¬ m % 128 + 128 < 128 by omega, if_false,
      show (m % 128 + 128) % 128 = m % 128 by omega]
    exact ⟨hrest.1, by simp [not_cut_mem_varintGuard, hrest.2]⟩

end

theorem Lawful.varint (hw : 0 < w) : (varint w).Lawful id where
  round := by
    intro x bs rest h
    cases h
    refine readVarint_round rest hw ?_ ?_ (absurd rfl)
    · simp
    · simp
  canon := by
    intro bytes x rest h
    rcases readVarint_canon hw (by simp) h with ⟨m, hm, hbytes⟩
    have hx : x.toNat = m := by simpa using hm
    refine ⟨_, rfl, fun hcut => ?_⟩
    rw [hx]
    exact (hbytes hcut).2

theorem readVarint_safe (hs : shift < w) (e : Note)
    (he : e ∈ (readVarint w shift value bytes).notes) : e.InRange := by
  induction bytes generalizing shift value with
  | nil =>
    rw [readVarint_nil, mem_singleton] at he
    rw [he]
    exact trivial
  | cons b bytes ih =>
    -- The test of the byte shifts by what is left of the width.
    have hguard : ∀ e' ∈ varintGuard w shift, e'.InRange := by
      intro e' he'
      rw [varintGuard] at he'
      split_ifs at he' with hlast
      · simp only [mem_cons, not_mem_nil, or_false] at he'
        rcases he' with rfl | rfl
        · exact le_of_lt hs
        · show w - shift < 32
          omega
      · exact absurd he' not_mem_nil
    have hplace : (Note.shl (max 32 w) shift).InRange := lt_of_lt_of_le hs (le_max_right 32 w)
    rw [readVarint] at he
    split_ifs at he with hover hzero hlast
    · exact hguard e he
    · exact hguard e he
    · simp only [mem_append, mem_singleton] at he
      rcases he with h | rfl
      · exact hguard e h
      · exact hplace
    · simp only [mem_append, mem_singleton] at he
      rcases he with (h | rfl) | h
      · exact hguard e h
      · exact hplace
      · exact ih (continues_lt hover hlast) h

theorem readVarint_forward {rest : List UInt8}
    (h : (readVarint w shift value bytes).value = some (x, rest)) : rest.length ≤ bytes.length := by
  induction bytes generalizing shift value with
  | nil =>
    cases h
    exact le_refl _
  | cons b bytes ih =>
    rw [readVarint] at h
    split_ifs at h with hover hzero hlast
    · cases h
      exact le_succ _
    · exact le_succ_of_le (ih h)

theorem Safe.varint (hw : 0 < w) : (varint w).Safe where
  inRange _ e he := readVarint_safe hw e he
  forward _ _ _ h := readVarint_forward h

@[simp] theorem writes_varint (w : Nat) (x : BitVec w) : (varint w).Writes x :=
  rfl

theorem Wide.varint (w : Nat) : (varint w).Wide := by
  intro x bs h
  cases h
  exact writeVarint_pos _

/-! ## Lists behind their length -/

/-- The number of elements as a 64-bit varint, then the elements. A reader gives up when there are
    fewer bytes than elements. -/
def counted (c : Codec α) : Codec (List α) :=
  header (varint 64) (fun l => BitVec.ofNat 64 l.length) fun n => atLeast n.toNat (array n.toNat c)

variable {c : Codec α}

theorem Lawful.counted {n : α → α} (hc : c.Lawful n) (hwide : c.Wide) :
    (counted c).Lawful (List.map n) := by
  refine Lawful.header (Lawful.varint (by omega)) (fun k => (hc.array _).atLeast ?_) ?_
  · intro l bs h
    have hlen := array_length_le hwide k.toNat l bs h
    omega
  · intro k l h
    rw [writes_atLeast, writes_array] at h
    rw [h.1, BitVec.ofNat_toNat, BitVec.setWidth_eq]

theorem Lawful.counted_id (hc : c.Lawful id) (hwide : c.Wide) : (Codec.counted c).Lawful id := by
  have h := hc.counted hwide
  rwa [map_id_fun] at h

theorem Safe.counted (hc : c.Safe) : (counted c).Safe :=
  (Safe.varint (by omega)).header _ fun _ => (hc.array _).atLeast _

@[simp] theorem writes_counted (c : Codec α) (l : List α) :
    (counted c).Writes l ↔ l.length < 2 ^ 64 ∧ ∀ a ∈ l, c.Writes a := by
  rw [counted, writes_header, writes_atLeast, writes_array, BitVec.toNat_ofNat]
  constructor
  · rintro ⟨-, hlen, hl⟩
    refine ⟨?_, hl⟩
    rw [hlen]
    exact mod_lt _ (by omega)
  · rintro ⟨hlen, hl⟩
    exact ⟨writes_varint _ _, (mod_eq_of_lt hlen).symm, hl⟩

end Codec
