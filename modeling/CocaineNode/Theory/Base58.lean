import CocaineNode.Core.Base58
import CocaineNode.Lib.Radix

/-!
# Base 58 Is One to One

A block of bytes and the symbols it is written with stand for the same number.
The sizes are chosen so that every number of `n` bytes fits in the symbols for
`n` bytes, and a block of symbols is accepted only if its number fits in the
bytes. So for blocks, and with them for strings, `decode` accepts exactly what
`encode` writes.

An address is decoded to what it was encoded from, but the converse fails for
one kind of string: where every byte before the checksum announces another one,
the tag is cut off by the end of the buffer, and it is accepted as it stands.

## Theorems

* `Base58.decode_iff_encode`: The same for strings.
* `Base58.encode_decode_unique`: Both directions, with `encode` never writing out of bounds.
* `Base58.decodeAddr_iff`: What an address is accepted for.
-/

namespace CocaineNode

open List UInt64

namespace Base58

open Radix

/-- The number a block of bytes stands for. -/
def number (block : Blob) : Nat :=
  bigEndian 256 (block.map UInt8.toNat)

/-- The symbols spell the number. -/
def Spells (symbols : Blob) (n : Nat) : Prop :=
  ∃ ds, symbols = ds.map letter ∧ (∀ d ∈ ds, d < 58) ∧ bigEndian 58 ds = n

/-! ## Symbols and bytes -/

theorem reverseAlphabet_letter : ∀ d < 58, reverseAlphabet (letter d) = some d := by
  decide +kernel

theorem reverseAlphabet_some {symbol : UInt8} {d : Nat} (h : reverseAlphabet symbol = some d) :
    d < 58 ∧ letter d = symbol := by
  have hall : ∀ n : Fin 256, ∀ d ∈ reverseAlphabet (UInt8.ofNat n),
      d < 58 ∧ letter d = UInt8.ofNat n := by decide +kernel
  have hsymbol := hall ⟨symbol.toNat, symbol.toNat_lt⟩ d
  rw [UInt8.ofNat_toNat] at hsymbol
  exact hsymbol h

variable (block : Blob)

theorem mem_map_toNat_lt : ∀ d ∈ block.map UInt8.toNat, d < 256 := by
  intro d hd
  rcases mem_map.mp hd with ⟨b, -, rfl⟩
  exact b.toNat_lt

theorem number_lt : number block < 256 ^ block.length := by
  have hlt := bigEndian_lt (by decide) (mem_map_toNat_lt block)
  rwa [length_map] at hlt

theorem number_inj {block block' : Blob} (hlen : block.length = block'.length)
    (h : number block = number block') : block = block' := by
  have hmap := bigEndian_inj (by decide) (by rw [length_map, length_map, hlen])
    (mem_map_toNat_lt block) (mem_map_toNat_lt block') h
  exact map_injective_iff.mpr (fun _ _ => UInt8.toNat_inj.mp) hmap

/-- A spelling is determined by its number and its length. -/
theorem Spells.unique {symbols symbols' : Blob} {n : Nat} (hlen : symbols.length = symbols'.length)
    (h : Spells symbols n) (h' : Spells symbols' n) : symbols = symbols' := by
  rcases h with ⟨ds, rfl, hds, hn⟩
  rcases h' with ⟨es, rfl, hes, hn'⟩
  rw [length_map, length_map] at hlen
  rw [bigEndian_inj (by decide) hlen hds hes (hn.trans hn'.symm)]

theorem uint8beTo64_toNat (hlen : block.length ≤ 8) : (uint8beTo64 block).toNat = number block := by
  induction block using reverseRecOn with
  | nil => rfl
  | append_singleton block b ih =>
    rw [length_append, length_singleton] at hlen
    have hlt : number (block ++ [b]) < 256 ^ 8 :=
      (number_lt _).trans_le (Nat.pow_le_pow_right (by decide) (by
        rw [length_append, length_singleton]; exact hlen))
    rw [number, map_append, map_singleton, bigEndian_concat] at hlt ⊢
    rw [uint8beTo64, foldl_concat, UInt64.toNat_add, UInt64.toNat_mul]
    change ((uint8beTo64 block).toNat * 256 % 2 ^ 64 + b.toUInt64.toNat) % 2 ^ 64 = _
    rw [ih (by omega), UInt8.toNat_toUInt64]
    change number block * 256 + b.toNat < 256 ^ 8 at hlt
    change _ = number block * 256 + b.toNat
    omega

variable (num : UInt64) (size : Nat)

theorem length_uint64To8be : (uint64To8be num size).length = size := by
  rw [uint64To8be, length_map, length_range]

/-- The bytes of a number, one more at a time. -/
theorem bigEndian_range (n size : Nat) :
    bigEndian 256 ((range size).map fun i => n / 256 ^ (size - 1 - i) % 256) =
      n % 256 ^ size := by
  induction size generalizing n with
  | zero => rw [range_zero, map_nil, bigEndian_nil, pow_zero, Nat.mod_one]
  | succ size ih =>
    have hinit : (range size).map (fun i => n / 256 ^ (size + 1 - 1 - i) % 256) =
        (range size).map fun i => n / 256 / 256 ^ (size - 1 - i) % 256 := by
      apply map_congr_left
      intro i hi
      rw [mem_range] at hi
      rw [Nat.div_div_eq_div_mul, ← Nat.pow_succ',
        show size + 1 - 1 - i = size - 1 - i + 1 by omega]
    rw [range_succ, map_append, hinit, map_singleton, bigEndian_concat, ih,
      Nat.pow_succ', Nat.mod_mul]
    simp only [Nat.add_sub_cancel, Nat.sub_self, pow_zero, Nat.div_one]
    omega

theorem number_uint64To8be (h : num.toNat < 256 ^ size) :
    number (uint64To8be num size) = num.toNat := by
  rw [number, uint64To8be, map_map]
  have hbytes : (UInt8.toNat ∘ fun i => UInt8.ofNat (num.toNat / 256 ^ (size - 1 - i))) =
      fun i => num.toNat / 256 ^ (size - 1 - i) % 256 := by
    funext i
    exact UInt8.toNat_ofNat'
  rw [hbytes, bigEndian_range, Nat.mod_eq_of_lt h]

/-! ## The sizes of blocks -/

/-- The number of symbols for a number of bytes. -/
def encodedSize (size : Nat) : Nat :=
  encodedBlockSizes.getD size 0

/-- The symbols have room for every block of bytes. -/
theorem pow_le_pow_encodedSize : ∀ size ≤ 8, 256 ^ size ≤ 58 ^ encodedSize size := by
  decide

theorem encodedSize_le : ∀ size ≤ 8, encodedSize size ≤ 11 := by
  decide

theorem decodedBlockSizes_eq (encoded : Nat) : decodedBlockSizes encoded =
    [some 0, none, some 1, some 2, none, some 3, some 4, some 5, none, some 6, some 7,
      some 8].getD encoded none :=
  rfl

theorem decodedBlockSizes_iff (encoded size : Nat) :
    decodedBlockSizes encoded = some size ↔ size ≤ 8 ∧ encodedSize size = encoded := by
  rw [decodedBlockSizes_eq]
  by_cases hlarge : encoded < 12
  · by_cases hsize : size ≤ 8
    · have hall : ∀ e < 12, ∀ n ≤ 8, decodedBlockSizes e = some n ↔
          n ≤ 8 ∧ encodedSize n = e := by decide
      exact hall encoded hlarge size hsize
    · have hall : ∀ e < 12, ∀ n ∈ decodedBlockSizes e, n ≤ 8 := by decide
      constructor
      · intro h
        exact absurd (hall encoded hlarge size h) hsize
      · intro h
        exact absurd h.1 hsize
  · -- The table ends at the size of a full block.
    constructor
    · intro h
      rw [getD_eq_getElem?_getD, getElem?_eq_none (Nat.le_of_not_lt hlarge)] at h
      cases h
    · rintro ⟨hsize, rfl⟩
      exact absurd (Nat.lt_succ_of_le (encodedSize_le size hsize)) hlarge

/-! ## One block -/

/-- The loop fills the room it has with the digits of the number. -/
theorem encodeLoop_spells (i : Nat) (num : UInt64) (tail : Blob) (h : num.toNat < 58 ^ i) :
    ∃ symbols, symbols.length = i ∧ Spells symbols num.toNat ∧
      encodeLoop i num (replicate i (letter 0) ++ tail) = some (symbols ++ tail) := by
  induction i generalizing num tail with
  | zero =>
    have hzero : num.toNat = 0 := by simpa using h
    refine ⟨[], rfl, ⟨[], rfl, by simp, by rw [hzero, bigEndian_nil]⟩, ?_⟩
    rw [encodeLoop, if_neg]
    · rfl
    · rw [lt_iff_toNat_lt, hzero]
      exact Nat.lt_irrefl 0
  | succ i ih =>
    by_cases hpos : 0 < num
    · have hdiv : (num / 58).toNat = num.toNat / 58 := UInt64.toNat_div num 58
      have hmod : (num % 58).toNat = num.toNat % 58 := UInt64.toNat_mod num 58
      rcases ih (num / 58) (letter (num % 58).toNat :: tail) (by
        rw [hdiv]
        exact Nat.div_lt_of_lt_mul (by rwa [Nat.pow_succ'] at h)) with ⟨symbols, hlen, hspells, heq⟩
      rcases hspells with ⟨ds, rfl, hds, hn⟩
      refine ⟨ds.map letter ++ [letter (num % 58).toNat], ?_, ⟨ds ++ [num.toNat % 58], ?_, ?_, ?_⟩,
        ?_⟩
      · rw [length_append, hlen, length_singleton]
      · rw [map_append, map_singleton, hmod]
      · intro d hd
        rw [mem_append, mem_singleton] at hd
        rcases hd with hd | rfl
        · exact hds d hd
        · exact Nat.mod_lt _ (by decide)
      · rw [bigEndian_concat, hn, hdiv]
        omega
      · rw [encodeLoop, if_pos hpos]
        -- The last free place takes the lowest digit.
        have hset : (replicate (i + 1) (letter 0) ++ tail).set i (letter (num % 58).toNat) =
            replicate i (letter 0) ++ letter (num % 58).toNat :: tail := by
          rw [replicate_succ', append_assoc, singleton_append,
            set_append_right _ _ (by rw [length_replicate]), length_replicate,
            Nat.sub_self, set_cons_zero]
        rw [hset, heq, append_assoc, singleton_append]
    · have hzero : num.toNat = 0 := by
        exact Nat.eq_zero_of_not_pos hpos
      refine ⟨replicate (i + 1) (letter 0), length_replicate, ⟨replicate (i + 1) 0, ?_, ?_, ?_⟩, ?_⟩
      · rw [map_replicate]
      · intro d hd
        rw [eq_of_mem_replicate hd]
        decide
      · rw [bigEndian_replicate_zero, hzero]
      · rw [encodeLoop, if_neg hpos]

/-- A block of bytes always has room. -/
theorem encodeBlock_spells (hblock : block.length ≤ 8) :
    ∃ symbols, encodeBlock block = some symbols ∧ symbols.length = encodedSize block.length ∧
      Spells symbols (number block) := by
  have hroom : (uint8beTo64 block).toNat < 58 ^ encodedSize block.length := by
    rw [uint8beTo64_toNat block hblock]
    exact (number_lt block).trans_le (pow_le_pow_encodedSize _ hblock)
  rcases encodeLoop_spells _ _ [] hroom with ⟨symbols, hlen, hspells, heq⟩
  rw [uint8beTo64_toNat block hblock] at hspells
  rw [append_nil, append_nil] at heq
  exact ⟨symbols, heq, hlen, hspells⟩

/-- A block is written with the symbols that spell its number. -/
theorem encodeBlock_iff (block symbols : Blob) (hblock : block.length ≤ 8) :
    encodeBlock block = some symbols ↔
      symbols.length = encodedSize block.length ∧ Spells symbols (number block) := by
  rcases encodeBlock_spells block hblock with ⟨written, hwritten, hlen, hspells⟩
  constructor
  · intro h
    rw [hwritten, Option.some.injEq] at h
    rw [← h]
    exact ⟨hlen, hspells⟩
  · rintro ⟨hlen', hspells'⟩
    rw [hwritten, hspells.unique (hlen.trans hlen'.symm) hspells']

/-- One digit is added when the sum fits in 64 bits. -/
theorem decodeLoop_cons (symbol : UInt8) (rest : Blob) (resNum order r : UInt64) :
    decodeLoop (symbol :: rest) resNum order = some r ↔
      ∃ d, d < 58 ∧ letter d = symbol ∧ resNum.toNat + order.toNat * d < 2 ^ 64 ∧
        decodeLoop rest (ofNat (resNum.toNat + order.toNat * d)) (order * 58) = some r := by
  have htmp (d : Nat) : resNum + ofNat (order.toNat * d) =
      ofNat (resNum.toNat + order.toNat * d) := by
    rw [UInt64.ofNat_add, UInt64.ofNat_toNat]
  rw [decodeLoop]
  constructor
  · intro h
    split at h
    · cases h
    · rename_i d hd
      rcases reverseAlphabet_some hd with ⟨hlt, hletter⟩
      simp only at h
      split at h
      · cases h
      · rename_i hfits
        simp only [Bool.or_eq_true, decide_eq_true_eq, not_or, ne_eq, Decidable.not_not] at hfits
        rcases hfits with ⟨hcarry, hhigh⟩
        rw [UInt64.lt_iff_toNat_lt, UInt64.toNat_add, UInt64.toNat_ofNat'] at hcarry
        have hsum : resNum.toNat + order.toNat * d < 2 ^ 64 := by omega
        rw [htmp] at h
        exact ⟨d, hlt, hletter, hsum, h⟩
  · rintro ⟨d, hlt, rfl, hsum, h⟩
    rw [reverseAlphabet_letter d hlt]
    simp only [htmp]
    rw [if_neg]
    · exact h
    · simp only [Bool.or_eq_true, decide_eq_true_eq, not_or, ne_eq, Decidable.not_not]
      rw [lt_iff_toNat_lt, toNat_ofNat']
      constructor
      · omega
      · omega

/-- What the loop accepts: symbols of the alphabet whose number fits in 64 bits. `k` symbols have
    been read before. -/
theorem decodeLoop_iff (symbols : Blob) (resNum order r : UInt64) (k : Nat)
    (horder : symbols ≠ [] → order.toNat = 58 ^ k) (hk : k + symbols.length ≤ 11) :
    decodeLoop symbols resNum order = some r ↔ ∃ ds, symbols = ds.map letter ∧ (∀ d ∈ ds, d < 58) ∧
        r.toNat = resNum.toNat + 58 ^ k * Nat.ofDigits 58 ds := by
  induction symbols generalizing resNum order k with
  | nil =>
    rw [decodeLoop, Option.some.injEq]
    constructor
    · rintro rfl
      exact ⟨[], rfl, by simp, by simp⟩
    · rintro ⟨ds, hds, -, hr⟩
      rw [map_eq_nil_iff.mp hds.symm, Nat.ofDigits_nil, Nat.mul_zero, Nat.add_zero] at hr
      exact (UInt64.toNat_inj.mp hr).symm
  | cons symbol rest ih =>
    have horder := horder (cons_ne_nil _ _)
    rw [length_cons] at hk
    -- The power of 58 only overflows after the last symbol.
    have hnext : rest ≠ [] → (order * 58).toNat = 58 ^ (k + 1) := by
      intro hrest
      have hpos := length_pos_iff.mpr hrest
      rw [UInt64.toNat_mul, horder]
      change 58 ^ k * 58 % 2 ^ 64 = _
      rw [← Nat.pow_succ]
      refine Nat.mod_eq_of_lt ((Nat.pow_le_pow_right (by decide) (?_ : k + 1 ≤ 10)).trans_lt
        (by decide))
      omega
    rw [decodeLoop_cons, horder]
    constructor
    · rintro ⟨d, hd, rfl, hsum, h⟩
      rw [ih _ _ (k + 1) hnext (by omega), toNat_ofNat', Nat.mod_eq_of_lt hsum] at h
      rcases h with ⟨ds, rfl, hds, hr⟩
      refine ⟨d :: ds, rfl, ?_, ?_⟩
      · exact forall_mem_cons.mpr ⟨hd, hds⟩
      · rw [hr, Nat.ofDigits_cons, Nat.pow_succ]
        ring
    · rintro ⟨ds, hsymbols, hds, hr⟩
      rcases map_eq_cons_iff.mp hsymbols.symm with ⟨d, ds', rfl, hletter, hrest⟩
      rw [Nat.ofDigits_cons] at hr
      have hsum : resNum.toNat + 58 ^ k * d < 2 ^ 64 := by
        have hlt := r.toNat_lt
        rw [hr, Nat.mul_add] at hlt
        omega
      refine ⟨d, hds d (by simp), hletter, hsum, ?_⟩
      rw [ih _ _ (k + 1) hnext (by omega), toNat_ofNat', Nat.mod_eq_of_lt hsum]
      refine ⟨ds', hrest.symm, fun e he => hds e (mem_cons_of_mem _ he), ?_⟩
      rw [hr, Nat.pow_succ]
      ring

/-- A whole block of symbols is read as the number it spells. -/
theorem decodeLoop_spells (symbols : Blob) (r : UInt64) (h : symbols.length ≤ 11) :
    decodeLoop symbols.reverse 0 1 = some r ↔ Spells symbols r.toNat := by
  rw [decodeLoop_iff symbols.reverse 0 1 r 0 (fun _ => rfl) (by rw [length_reverse]; omega)]
  constructor
  · rintro ⟨ds, hsymbols, hds, hr⟩
    refine ⟨ds.reverse, ?_, fun d hd => hds d (mem_reverse.mp hd), ?_⟩
    · rw [map_reverse, ← hsymbols, reverse_reverse]
    · rw [bigEndian, reverse_reverse, hr]
      simp
  · rintro ⟨ds, rfl, hds, hr⟩
    refine ⟨ds.reverse, by rw [map_reverse], fun d hd => hds d (mem_reverse.mp hd), ?_⟩
    rw [← hr, bigEndian]
    simp

/-- A block of symbols is accepted when it has the size for some number of bytes and spells the
    number of those bytes. -/
theorem decodeBlock_iff (symbols block : Blob) :
    decodeBlock symbols = some block ↔ block ≠ [] ∧ block.length ≤ 8 ∧
      symbols.length = encodedSize block.length ∧ Spells symbols (number block) := by
  rw [decodeBlock]
  constructor
  · intro h
    split at h
    · cases h
    · cases h
    · rename_i size hne hsize
      rcases (decodedBlockSizes_iff _ _).mp hsize with ⟨hle, hlen⟩
      have hsymbols : symbols.length ≤ 11 := hlen ▸ encodedSize_le size hle
      split at h
      · cases h
      · rename_i resNum hloop
        split at h
        · cases h
        · rename_i hfits
          rw [Option.some.injEq] at h
          rw [decodeLoop_spells _ _ hsymbols] at hloop
          have hlt : resNum.toNat < 256 ^ size := by
            rw [show 256 = 2 ^ 8 by rfl, ← Nat.pow_mul]
            -- A full block may take any word.
            by_cases hfull : size < fullBlockSize
            · exact Nat.lt_of_not_le fun hge => hfits ⟨hfull, hge⟩
            · have heq : size = 8 := Nat.le_antisymm hle (Nat.le_of_not_lt hfull)
              rw [heq]
              exact resNum.toNat_lt
          rw [← h, number_uint64To8be resNum size hlt, length_uint64To8be]
          refine ⟨?_, hle, hlen.symm, hloop⟩
          intro hnil
          have hzero := congrArg length hnil
          rw [length_uint64To8be] at hzero
          exact hne hzero
  · rintro ⟨hne, hle, hlen, hspells⟩
    have hsymbols : symbols.length ≤ 11 := hlen ▸ encodedSize_le _ hle
    have hnumber : number block < 2 ^ 64 :=
      (number_lt block).trans_le (Nat.pow_le_pow_right (by decide) hle)
    have hword : (ofNat (number block)).toNat = number block := by
      rw [toNat_ofNat', Nat.mod_eq_of_lt hnumber]
    have hloop : decodeLoop symbols.reverse 0 1 = some (ofNat (number block)) := by
      rw [decodeLoop_spells _ _ hsymbols, hword]
      exact hspells
    rw [(decodedBlockSizes_iff symbols.length block.length).mpr ⟨hle, hlen.symm⟩, hloop]
    have hpos : block.length ≠ 0 := fun hzero => hne (length_eq_zero_iff.mp hzero)
    split
    · rename_i heq
      cases heq
    · rename_i heq
      exact absurd (Option.some.inj heq) hpos
    · rename_i size _ heq
      rw [← Option.some.inj heq]
      simp only
      rw [if_neg, Option.some.injEq]
      · refine number_inj (length_uint64To8be _ _) ?_
        rw [number_uint64To8be _ _ (by rw [hword]; exact number_lt block), hword]
      · rintro ⟨-, hge⟩
        rw [hword, show 2 ^ (8 * block.length) = 256 ^ block.length by
          rw [Nat.pow_mul]] at hge
        exact absurd (number_lt block) (Nat.not_lt.mpr hge)

/-- For blocks, `decode_block` accepts exactly what `encode_block` writes. -/
theorem decodeBlock_iff_encodeBlock (symbols block : Blob) : decodeBlock symbols = some block ↔
      block ≠ [] ∧ block.length ≤ 8 ∧ encodeBlock block = some symbols := by
  rw [decodeBlock_iff]
  constructor
  · rintro ⟨hne, hle, hspelling⟩
    exact ⟨hne, hle, (encodeBlock_iff block symbols hle).mpr hspelling⟩
  · rintro ⟨hne, hle, hencode⟩
    exact ⟨hne, hle, (encodeBlock_iff block symbols hle).mp hencode⟩

/-! ## Strings -/

variable (n : Nat) (data enc : Blob)

theorem encodeBlocks_succ_iff :
    encodeBlocks (n + 1) data = some enc ↔ ∃ first rest, encodeBlock (data.take 8) = some first ∧
      encodeBlocks n (data.drop 8) = some rest ∧ first ++ rest = enc := by
  simp [encodeBlocks, fullBlockSize, Option.bind_eq_some_iff]

theorem decodeBlocks_succ_iff (enc data : Blob) :
    decodeBlocks (n + 1) enc = some data ↔ ∃ first rest, decodeBlock (enc.take 11) = some first ∧
      decodeBlocks n (enc.drop 11) = some rest ∧ first ++ rest = data := by
  simp [decodeBlocks, fullEncodedBlockSize, Option.bind_eq_some_iff]

theorem encodedSize_tail : ∀ size < 8, encodedSize size < 11 := by
  decide

theorem encodedSize_pos : ∀ size ≤ 8, 0 < size → 0 < encodedSize size := by
  decide

/-- A block that is shorter than a full one, in bytes or in symbols. -/
theorem tail_iff : (data.length < 8 ∧ encodeBlocks 0 data = some enc) ↔
      (enc.length < 11 ∧ decodeBlocks 0 enc = some data) := by
  simp only [encodeBlocks, decodeBlocks, List.isEmpty_iff]
  by_cases hdata : data = []
  · subst hdata
    by_cases henc : enc = []
    · subst henc
      simp
    · -- No block of symbols is read as nothing.
      rw [if_pos rfl, if_neg henc, decodeBlock_iff_encodeBlock]
      simp [Ne.symm henc]
  · rw [if_neg hdata]
    have hpos : 0 < data.length := List.length_pos_iff.mpr hdata
    constructor
    · rintro ⟨hlt, hencode⟩
      have hlen := ((encodeBlock_iff data enc hlt.le).mp hencode).1
      have henc : enc ≠ [] := by
        have hsome := encodedSize_pos data.length hlt.le hpos
        exact List.length_pos_iff.mp (by omega)
      rw [if_neg henc, decodeBlock_iff_encodeBlock]
      exact ⟨hlen ▸ encodedSize_tail _ hlt, hdata, hlt.le, hencode⟩
    · rintro ⟨hlt, hdecode⟩
      have henc : enc ≠ [] := by
        rintro rfl
        rw [if_pos rfl, Option.some.injEq] at hdecode
        exact hdata hdecode.symm
      rw [if_neg henc] at hdecode
      rcases (decodeBlock_iff_encodeBlock enc data).mp hdecode with ⟨-, hle, hencode⟩
      have hlen := ((encodeBlock_iff data enc hle).mp hencode).1
      refine ⟨Nat.lt_of_le_of_ne hle ?_, hencode⟩
      intro hfull
      rw [hfull] at hlen
      exact absurd hlt (by rw [hlen]; decide)

/-- The blocks of a string correspond one by one. -/
theorem blocks_iff : (data.length / 8 = n ∧ encodeBlocks n data = some enc) ↔
      (enc.length / 11 = n ∧ decodeBlocks n enc = some data) := by
  induction n generalizing data enc with
  | zero =>
    rw [Nat.div_eq_zero_iff_lt (by decide), Nat.div_eq_zero_iff_lt (by decide)]
    exact tail_iff data enc
  | succ n ih =>
    rw [encodeBlocks_succ_iff, decodeBlocks_succ_iff]
    constructor
    · rintro ⟨hlen, first, rest, hfirst, hrest, rfl⟩
      have htake : (data.take 8).length = 8 := by rw [length_take]; omega
      have hsize := ((encodeBlock_iff _ _ htake.le).mp hfirst).1
      rw [htake] at hsize
      change first.length = 11 at hsize
      rcases (ih (data.drop 8) rest).mp ⟨by rw [length_drop]; omega, hrest⟩ with
        ⟨hlen', hdecode⟩
      refine ⟨by rw [length_append]; omega, data.take 8, data.drop 8, ?_, ?_,
        take_append_drop 8 data⟩
      · rw [take_left' hsize, decodeBlock_iff_encodeBlock]
        exact ⟨length_pos_iff.mp (by omega), htake.le, hfirst⟩
      · rw [drop_left' hsize]
        exact hdecode
    · rintro ⟨hlen, first, rest, hfirst, hrest, rfl⟩
      have htake : (enc.take 11).length = 11 := by rw [length_take]; omega
      rcases (decodeBlock_iff_encodeBlock _ _).mp hfirst with ⟨-, hle, hencode⟩
      have hsize := ((encodeBlock_iff _ _ hle).mp hencode).1
      -- Only a full block has eleven symbols.
      have hfull : first.length = 8 := by
        have hall : ∀ m ≤ 8, 11 = encodedSize m → m = 8 := by decide
        exact hall first.length hle (htake ▸ hsize)
      rcases (ih rest (enc.drop 11)).mpr ⟨by rw [length_drop]; omega, hrest⟩ with
        ⟨hlen', hencode'⟩
      refine ⟨by rw [length_append]; omega, enc.take 11, enc.drop 11, ?_, ?_,
        take_append_drop 11 enc⟩
      · rw [take_left' hfull]
        exact hencode
      · rw [drop_left' hfull]
        exact hencode'

/-- Every string is written, with the symbols for its full blocks and for what is left. -/
theorem encodeBlocks_some (data : Blob) (hn : data.length / 8 = n) :
    ∃ enc, encodeBlocks n data = some enc ∧
      enc.length = 11 * n + encodedSize (data.length % 8) := by
  induction n generalizing data with
  | zero =>
    have hlt : data.length < 8 := by omega
    simp only [encodeBlocks, List.isEmpty_iff, Nat.mod_eq_of_lt hlt, Nat.mul_zero, Nat.zero_add]
    split
    · rename_i hnil
      exact ⟨[], rfl, by rw [hnil]; rfl⟩
    · rcases encodeBlock_spells data hlt.le with ⟨enc, henc, hlen, -⟩
      exact ⟨enc, henc, hlen⟩
  | succ n ih =>
    have htake : (data.take 8).length = 8 := by rw [List.length_take]; omega
    rcases encodeBlock_spells (data.take 8) htake.le with ⟨first, hfirst, hsize, -⟩
    rcases ih (data.drop 8) (by rw [length_drop]; omega) with ⟨rest, hrest, hlen⟩
    refine ⟨first ++ rest,
      (encodeBlocks_succ_iff n data _).mpr ⟨first, rest, hfirst, hrest, rfl⟩, ?_⟩
    rw [htake] at hsize
    change first.length = 11 at hsize
    rw [length_drop, show (data.length - 8) % 8 = data.length % 8 by omega] at hlen
    rw [length_append, hsize, hlen]
    omega

/-- A string is accepted exactly when it is what the data it stands for is written as. -/
theorem decode_iff_encode (enc data : Blob) : decode enc = some data ↔ encode data = some enc := by
  constructor
  · intro h
    rw [decode] at h
    split at h
    · cases h
    · rcases (blocks_iff _ data enc).mpr ⟨rfl, h⟩ with ⟨hlen, hencode⟩
      rw [encode, fullBlockSize, hlen]
      exact hencode
  · intro h
    rcases (blocks_iff _ data enc).mp ⟨rfl, h⟩ with ⟨hlen, hdecode⟩
    rcases encodeBlocks_some _ data rfl with ⟨enc', henc', hlength⟩
    cases Option.some.inj (henc'.symm.trans h)
    have htail : data.length % 8 < 8 := Nat.mod_lt _ (by decide)
    have hmod : enc.length % 11 = encodedSize (data.length % 8) := by
      omega
    rw [decode, fullEncodedBlockSize, hmod, (decodedBlockSizes_iff _ (data.length % 8)).mpr
      ⟨htail.le, rfl⟩]
    rw [hlen]
    exact hdecode

/-- Every byte string is encoded within its buffer and decoded again, and a string that is
    accepted is the encoding of what it was decoded to. -/
theorem encode_decode_unique : (∀ data, ∃ enc, encode data = some enc ∧ decode enc = some data) ∧
      ∀ enc data, decode enc = some data → encode data = some enc := by
  constructor
  · intro data
    rcases encodeBlocks_some _ data rfl with ⟨enc, henc, -⟩
    exact ⟨enc, henc, (decode_iff_encode enc data).mpr henc⟩
  · intro enc data h
    exact (decode_iff_encode enc data).mp h

/-! ## Addresses -/

open Codec

/-- When the end of the buffer cuts off a varint, every byte of it announced another one. -/
theorem le_of_cut {w shift : Nat} {value : BitVec w} {bytes : Blob}
    (h : Note.cut ∈ (readVarint w shift value bytes).notes) : ∀ b ∈ bytes, 128 ≤ b.toNat := by
  induction bytes generalizing shift value with
  | nil => simp
  | cons b rest ih =>
    rw [readVarint] at h
    simp only at h
    split_ifs at h with hover hzero hlast
    · exact absurd h (not_cut_mem_varintGuard w shift)
    · exact absurd h (not_cut_mem_varintGuard w shift)
    · simp [not_cut_mem_varintGuard] at h
    · simp only [mem_append, not_cut_mem_varintGuard, mem_singleton, reduceCtorEq, or_self,
        false_or] at h
      exact forall_mem_cons.mpr ⟨not_lt.mp hlast, ih h⟩

variable (C : Blob → Hash)

theorem length_addrChecksum (buf : Blob) : (addrChecksum C buf).length = addrChecksumSize := by
  simp [addrChecksum, addrChecksumSize]

/-- What an address is accepted for. -/
theorem decodeAddr_iff (addr : Blob) (tag : BitVec 64) (data : Blob) :
    decodeAddr C addr = some (tag, data) ↔ ∃ buf, decode addr = some (buf ++ addrChecksum C buf) ∧
      (readVarint 64 0 0 buf).value = some (tag, data) ∧ data.length < buf.length := by
  simp only [decodeAddr, Option.bind_eq_bind, Option.bind_eq_some_iff]
  constructor
  · rintro ⟨bytes, hdecode, h⟩
    split_ifs at h with hshort hsum
    rcases Option.bind_eq_some_iff.mp h with ⟨⟨tag', data'⟩, hread, h⟩
    simp only [Option.ite_none_right_eq_some, Option.some.injEq, Prod.mk.injEq] at h
    rcases h with ⟨hlen, rfl, rfl⟩
    refine ⟨_, ?_, hread, hlen⟩
    rw [not_not.mp hsum, take_append_drop]
    exact hdecode
  · rintro ⟨buf, hdecode, hread, hlen⟩
    have hsize : (buf ++ addrChecksum C buf).length - addrChecksumSize = buf.length := by
      rw [length_append, length_addrChecksum, Nat.add_sub_cancel]
    refine ⟨_, hdecode, ?_⟩
    rw [if_neg (by rw [length_append, length_addrChecksum]; omega), hsize, take_left, drop_left,
      if_neg (not_not.mpr rfl), hread]
    simp [hlen]

/-- The last byte of a varint announces no other. -/
theorem exists_lt_writeVarint (n : Nat) : ∃ b ∈ writeVarint n, b.toNat < 128 := by
  fun_induction writeVarint n with
  | case1 n h => exact ⟨_, mem_singleton_self _, by rw [UInt8.toNat_ofNat']; omega⟩
  | case2 n h ih =>
    rcases ih with ⟨b, hb, hlow⟩
    exact ⟨b, mem_cons_of_mem _ hb, hlow⟩

/-- The bytes of an address before its checksum. -/
theorem take_addrChecksum (buf : Blob) : (buf ++ addrChecksum C buf).take
    ((buf ++ addrChecksum C buf).length - addrChecksumSize) = buf := by
  rw [length_append, length_addrChecksum, Nat.add_sub_cancel, take_left]

/-- An address is decoded to what it was encoded from. A string that is accepted is the encoding of
    what it was decoded to exactly if some byte before the checksum ends the tag. -/
theorem encodeAddr_decodeAddr_unique_iff : (∀ tag data, ∃ addr, encodeAddr C tag data = some addr ∧
      decodeAddr C addr = some (tag, data)) ∧
    ∀ addr tag data, decodeAddr C addr = some (tag, data) →
      (encodeAddr C tag data = some addr ↔ ∀ bytes, decode addr = some bytes →
        ∃ b ∈ bytes.take (bytes.length - addrChecksumSize), b.toNat < 128) := by
  have hlawful := Lawful.varint (w := 64) (by decide)
  constructor
  · intro tag data
    rcases encodeBlocks_some _ (writeVarint tag.toNat ++ data ++
      addrChecksum C (writeVarint tag.toNat ++ data)) rfl with ⟨addr, henc, -⟩
    have hdec := (decode_iff_encode addr _).mpr henc
    refine ⟨addr, henc, (decodeAddr_iff C addr tag data).mpr ⟨_, hdec, ?_, ?_⟩⟩
    · exact (hlawful.round tag _ data rfl).1
    · rw [length_append]
      exact Nat.lt_add_of_pos_left (writeVarint_pos _)
  · intro addr tag data h
    rcases (decodeAddr_iff C addr tag data).mp h with ⟨buf, hdec, hread, -⟩
    constructor
    · intro henc bytes hbytes
      rw [encodeAddr] at henc
      rw [← decode_iff_encode, hbytes, Option.some.injEq] at henc
      rw [henc, take_addrChecksum]
      rcases exists_lt_writeVarint tag.toNat with ⟨b, hb, hlow⟩
      exact ⟨b, mem_append_left _ hb, hlow⟩
    · intro hends
      rcases hends _ hdec with ⟨b, hb, hlow⟩
      rw [take_addrChecksum] at hb
      rcases hlawful.canon _ _ _ hread with ⟨tagBytes, htag, hbytes⟩
      cases htag
      -- The byte below 128 ended the tag, so it was not cut off.
      have hbuf := hbytes fun hcut => absurd (le_of_cut hcut b hb) (not_le.mpr hlow)
      rw [encodeAddr, hbuf]
      exact (decode_iff_encode _ _).mp hdec

/-- A tag whose only byte announces another one is accepted when nothing follows but the checksum,
    and the address is spelled otherwise than the one for the same tag. -/
theorem decodeAddr_two_spellings : let C : Blob → Hash := fun _ => 0
    let addr : Blob := (encode [0x81, 0, 0, 0, 0]).getD []
    decodeAddr C addr = some (1, []) ∧ encodeAddr C 1 [] ≠ some addr := by
  decide +kernel

end Base58

end CocaineNode
