import CocaineNode.Core.Types
import CocaineNode.Lib.CodecWords
import CocaineNode.Lib.Throwing

/-!
# Portable Storage in Binary

The format of every message between peers: a section is a map from names to
entries, an entry is a scalar, a string, a section or an array, and an array
has elements of one kind.

The writer is `pack_entry_to_buff`. The reader is `throwable_buffer_reader`. It
counts what it has created against three limits, it counts the calls that are
open against a fourth, and it asks for a least number of bytes for every element
before it makes room for an array. `Note` records what a run does that its
result does not show: which bytes it looked at, how deep it was, the arithmetic
on the limits and the room it made.

A scalar is kept as the number its bytes stand for, the lowest byte first, so
that signed and floating types are told apart by their tag alone.

## Main definitions

* `PortableStorage.Section`, `PortableStorage.StorageEntry`, `PortableStorage.ArrayEntry`: The tree.
* `PortableStorage.packSection`: The writer.
-/

namespace CocaineNode

namespace PortableStorage

open Codec (littleEndian ofLittleEndian)

/-! ## The tree -/

/-- The types of fixed size. -/
inductive PodType where
  | int64
  | int32
  | int16
  | int8
  | uint64
  | uint32
  | uint16
  | uint8
  | double
  | bool
  deriving DecidableEq, Repr

/-- The number of bytes. -/
def PodType.size : PodType → Nat
  | .int64 | .uint64 | .double => 8
  | .int32 | .uint32 => 4
  | .int16 | .uint16 => 2
  | .int8 | .uint8 | .bool => 1

/-- The number of values. -/
def PodType.card (t : PodType) : Nat :=
  if t = .bool then 2 else 256 ^ t.size

theorem PodType.card_pos (t : PodType) : 0 < t.card := by
  cases t <;> decide

/-- A value, as the number its bytes stand for. -/
abbrev PodType.Val (t : PodType) : Type :=
  Fin t.card

mutual

/-- `storage_entry`. -/
inductive StorageEntry where
  | pod (t : PodType) (v : t.Val)
  | string (s : Blob)
  | object (s : Section)
  | array (a : ArrayEntry)

/-- `array_entry`: the elements are of one type. -/
inductive ArrayEntry where
  | pods (t : PodType) (l : List t.Val)
  | strings (l : List Blob)
  | objects (l : List Section)
  | arrays (l : List ArrayEntry)

/-- `section`: a map from names to entries, as the list of its pairs. -/
inductive Section where
  | mk (entries : List (Blob × StorageEntry))

end

/-- `m_entries`. -/
def Section.entries : Section → List (Blob × StorageEntry)
  | .mk es => es

/-! ## Tags -/

/-- `SERIALIZE_TYPE_*`. -/
inductive EntryType where
  | pod (t : PodType)
  | string
  | object
  | array
  deriving DecidableEq, Repr

/-- The byte that stands for a type. -/
def EntryType.code : EntryType → UInt8
  | .pod .int64 => 1
  | .pod .int32 => 2
  | .pod .int16 => 3
  | .pod .int8 => 4
  | .pod .uint64 => 5
  | .pod .uint32 => 6
  | .pod .uint16 => 7
  | .pod .uint8 => 8
  | .pod .double => 9
  | .string => 10
  | .pod .bool => 11
  | .object => 12
  | .array => 13

/-- The type a byte stands for. -/
def EntryType.ofCode (c : UInt8) : Option EntryType :=
  match c.toNat with
  | 1 => some (.pod .int64)
  | 2 => some (.pod .int32)
  | 3 => some (.pod .int16)
  | 4 => some (.pod .int8)
  | 5 => some (.pod .uint64)
  | 6 => some (.pod .uint32)
  | 7 => some (.pod .uint16)
  | 8 => some (.pod .uint8)
  | 9 => some (.pod .double)
  | 10 => some .string
  | 11 => some (.pod .bool)
  | 12 => some .object
  | 13 => some .array
  | _ => none

/-- `SERIALIZE_FLAG_ARRAY`. -/
def flagArray : UInt8 := 0x80

/-- `ps_min_bytes`: the bytes the reader asks for, for each element of an array. -/
def EntryType.minBytes : EntryType → Nat
  | .pod t => t.size
  | .string => 2
  | .object => 1
  | .array => 1

/-! ## The writer -/

/-- `pack_varint`: the two lowest bits say how many bytes there are. -/
def packVarint (val : Nat) : Option Blob :=
  if val ≤ 63 then some (littleEndian 1 (val * 4))
  else if val ≤ 16383 then some (littleEndian 2 (val * 4 + 1))
  else if val ≤ 1073741823 then some (littleEndian 4 (val * 4 + 2))
  else if val < 2 ^ 62 then some (littleEndian 8 (val * 4 + 3))
  else none

/-- `put_string`. -/
def putString (s : Blob) : Option Blob :=
  (packVarint s.length).map (· ++ s)

/-- The bytes of a scalar. -/
def packPod (t : PodType) (v : t.Val) : Blob :=
  littleEndian t.size v

/-- The strings of an array, one after the other. -/
def packStrings : List Blob → Option Blob
  | [] => some []
  | s :: rest => (putString s).bind fun x => (packStrings rest).map (x ++ ·)

/-- An array: its tag, the number of its elements and the elements. -/
def packArray (type : EntryType) (n : Nat) (elements : Option Blob) : Option Blob :=
  (packVarint n).bind fun size =>
    elements.map fun body => (type.code ||| flagArray) :: (size ++ body)

/-- The name of an entry. -/
def packName (name : Blob) : Option Blob :=
  if name.length < 255 ∧ name ≠ [] then some (UInt8.ofNat name.length :: name) else none

mutual

/-- `pack_entry_to_buff` for a section. -/
def packSection : Section → Option Blob
  | .mk es => (packVarint es.length).bind fun size => (packEntries es).map (size ++ ·)

/-- The entries of a section in the order of their names. -/
def packEntries : List (Blob × StorageEntry) → Option Blob
  | [] => some []
  | (name, e) :: rest =>
    (packName name).bind fun n =>
      (packStorageEntry e).bind fun x => (packEntries rest).map fun y => n ++ (x ++ y)

/-- `storage_entry_store_visitor`. -/
def packStorageEntry : StorageEntry → Option Blob
  | .pod t v => some ((EntryType.pod t).code :: packPod t v)
  | .string s => (putString s).map (EntryType.string.code :: ·)
  | .object s => (packSection s).map (EntryType.object.code :: ·)
  | .array a => packArrayEntry a

/-- `array_entry_store_visitor`. -/
def packArrayEntry : ArrayEntry → Option Blob
  | .pods t l => packArray (.pod t) l.length (some (l.flatMap (packPod t)))
  | .strings l => packArray .string l.length (packStrings l)
  | .objects l => packArray .object l.length (packSections l)
  | .arrays l => packArray .array l.length (packArrays l)

/-- The sections of an array, one after the other. -/
def packSections : List Section → Option Blob
  | [] => some []
  | s :: rest => (packSection s).bind fun x => (packSections rest).map (x ++ ·)

/-- The arrays of an array, one after the other. -/
def packArrays : List ArrayEntry → Option Blob
  | [] => some []
  | a :: rest => (packArrayEntry a).bind fun x => (packArrays rest).map (x ++ ·)

end

/-! ## The state of the reader -/

/-- Something a reader does that its result does not show. -/
inductive Note where
  /-- It looks at `wanted` bytes with `available` bytes in front of the end of the buffer. -/
  | access (available wanted : Nat)
  /-- A call is opened, the `depth`th one that is open. -/
  | enter (depth : Nat)
  /-- The unsigned subtraction `a - b`. -/
  | sub (a b : UInt64)
  /-- The unsigned addition `a + b`. -/
  | add (a b : UInt64)
  /-- Room is made for `n` elements of an array. -/
  | reserve (t : EntryType) (n : Nat)
  deriving DecidableEq, Repr

/-- `throwable_buffer_reader`. The pointer is kept as the bytes from there to the end of the
    buffer; `count` is the number of them that the reader believes in. -/
structure BufferReader where
  ptr : Blob
  count : Nat
  recursionCount : Nat
  objects : UInt64
  fields : UInt64
  strings : UInt64
  maxObjects : UInt64
  maxFields : UInt64
  maxStrings : UInt64
  notes : List Note
  deriving DecidableEq, Repr

/-- How a call ends that does not return. -/
inductive Stop where
  /-- It throws. -/
  | threw
  /-- It is still running when the calls allowed to it are used up. -/
  | spent
  deriving DecidableEq, Repr

/-- A call of the reader. -/
abbrev Reader (α : Type) : Type :=
  EStateM Stop BufferReader α

variable {α : Type}

/-- `CHECK_AND_ASSERT_THROW_MES`. -/
def check (p : Prop) [Decidable p] : Reader Unit :=
  if p then pure () else throw .threw

/-- A line in the record. -/
def note (n : Note) : Reader Unit :=
  modify fun r => { r with notes := n :: r.notes }

/-- `EPEE_PORTABLE_STORAGE_RECURSION_LIMIT_INTERNAL`. -/
def recursionLimit : Nat := 100

/-- A call is opened. -/
def BufferReader.enter (r : BufferReader) : BufferReader :=
  { r with
    recursionCount := r.recursionCount + 1
    notes := .enter (r.recursionCount + 1) :: r.notes }

/-- A call is left. -/
def BufferReader.leave (r : BufferReader) : BufferReader :=
  { r with recursionCount := r.recursionCount - 1 }

/-- `RECURSION_LIMITATION`: the call counts as open until it is left, however it is left. -/
def limited (body : Reader α) : Reader α := fun r =>
  if r.enter.recursionCount < recursionLimit then
    match body r.enter with
    | .ok a s => .ok a s.leave
    | .error e s => .error e s.leave
  else .error .threw r.enter

/-! ## The reader -/

/-- The bytes at the pointer, which moves behind them. -/
def takeBytes (n : Nat) : Reader Blob := fun r =>
  .ok (r.ptr.take n)
    { r with
      ptr := r.ptr.drop n, count := r.count - n, notes := .access r.ptr.length n :: r.notes }

/-- The byte at the pointer, which stays. -/
def peekByte : Reader UInt8 := fun r =>
  .ok (r.ptr.headD 0) { r with notes := .access r.ptr.length 1 :: r.notes }

/-- `read(void* target, size_t count)`. -/
def readRaw (n : Nat) : Reader Blob :=
  limited do
    check (n ≤ (← get).count)
    takeBytes n

/-- The value that the bytes of a scalar stand for. -/
def unpackPod (t : PodType) (bytes : Blob) : t.Val :=
  ⟨ofLittleEndian bytes % t.card, Nat.mod_lt _ t.card_pos⟩

/-- `read(t_pod_type& pod_val)`. Any bytes are a value, but for `bool`. -/
def readPod (t : PodType) : Reader t.Val :=
  limited do
    let bytes ← readRaw t.size
    if t = .bool then check (ofLittleEndian bytes ≤ 1)
    pure (unpackPod t bytes)

/-- `t_type read()`: into a new variable. -/
def readNew (body : Reader α) : Reader α :=
  limited body

/-- `read_sec_name`. -/
def readSecName : Reader Blob :=
  limited do
    let len ← readPod .uint8
    check (0 < len.val)
    readRaw len.val

/-- The width of the number that a size mark announces. -/
def sizeType (mark : UInt8) : PodType :=
  if mark = 0 then .uint8 else if mark = 1 then .uint16 else if mark = 2 then .uint32 else .uint64

/-- `read_varint`. -/
def readVarint : Reader UInt64 :=
  limited do
    check (1 ≤ (← get).count)
    let b ← peekByte
    let v ← readNew (readPod (sizeType (b &&& 0x03)))
    pure (UInt64.ofNat (v.val / 4))

/-- `MAX_STRING_LEN_POSSIBLE`. -/
def maxStringLen : Nat := 2000000000

/-- `read(std::string& str)`. -/
def readString : Reader Blob :=
  limited do
    let len ← readVarint
    check (len.toNat < maxStringLen)
    check (len.toNat ≤ (← get).count)
    takeBytes len.toNat

/-- `read(array_entry &ae)`. -/
def readArrayEntry : Reader ArrayEntry :=
  limited (throw .threw)

/-- The counts that are held against a limit. -/
inductive Counter where
  | objects
  | fields
  | strings
  deriving DecidableEq, Repr

/-- `m_objects`, `m_fields`, `m_strings`. -/
def BufferReader.counted (r : BufferReader) : Counter → UInt64
  | .objects => r.objects
  | .fields => r.fields
  | .strings => r.strings

/-- `max_objects`, `max_fields`, `max_strings`. -/
def BufferReader.limit (r : BufferReader) : Counter → UInt64
  | .objects => r.maxObjects
  | .fields => r.maxFields
  | .strings => r.maxStrings

/-- The reader with `n` more counted. -/
def BufferReader.bump (r : BufferReader) (n : UInt64) : Counter → BufferReader
  | .objects => { r with objects := r.objects + n }
  | .fields => { r with fields := r.fields + n }
  | .strings => { r with strings := r.strings + n }

/-- The check of a size against what is left below a limit, and the addition to the count. -/
def addCount (c : Counter) (n : UInt64) : Reader Unit := do
  let r ← get
  note (.sub (r.limit c) (r.counted c))
  check (n ≤ r.limit c - r.counted c)
  note (.add (r.counted c) n)
  modify fun r => r.bump n c

/-- `size <= max_objects - m_objects` and `m_objects += size`. -/
def addObjects : UInt64 → Reader Unit :=
  addCount .objects

/-- `count <= max_fields - m_fields` and `m_fields += count`. -/
def addFields : UInt64 → Reader Unit :=
  addCount .fields

/-- `size <= max_strings - m_strings` and `m_strings += size`. -/
def addStrings : UInt64 → Reader Unit :=
  addCount .strings

/-- What an array adds to the counts before its elements are read. -/
def countElements (type : EntryType) (n : UInt64) : Reader Unit :=
  match type with
  | .object => addObjects n
  | .string => addStrings n
  | .pod _ | .array => pure ()

/-- `reserve`, which does nothing for a `std::deque<bool>`. -/
def reserveElements (type : EntryType) (n : UInt64) : Reader Unit :=
  if type = .pod .bool then pure () else note (.reserve type n.toNat)

/-- `read_ae`. -/
def readAe (type : EntryType) (element : Reader α) : Reader (List α) :=
  limited do
    let size ← readVarint
    check (size.toNat ≤ (← get).count / type.minBytes)
    countElements type size
    reserveElements type size
    Throwing.times size.toNat (readNew element)

/-- `load_storage_array_entry`, for a way to read a section. -/
def loadStorageArrayEntry (sec : Reader Section) (type : UInt8) : Reader StorageEntry :=
  limited do
    match EntryType.ofCode (type &&& ~~~flagArray) with
    | some (.pod t) => do
        let l ← readAe (.pod t) (readPod t)
        pure (.array (.pods t l))
    | some .string => do
        let l ← readAe .string readString
        pure (.array (.strings l))
    | some .object => do
        let l ← readAe .object sec
        pure (.array (.objects l))
    | some .array => do
        let l ← readAe .array readArrayEntry
        pure (.array (.arrays l))
    | none => throw .threw

/-- `read_se` for a type of fixed size. -/
def readSePod (t : PodType) : Reader StorageEntry :=
  limited do
    let v ← readPod t
    pure (.pod t v)

/-- `m_strings + 1 <= max_strings` and `m_strings += 1`. -/
def countString : Reader Unit := do
  let r ← get
  note (.add r.strings 1)
  check (r.strings + 1 ≤ r.maxStrings)
  modify fun r => r.bump 1 .strings

/-- `m_objects < max_objects` and `++m_objects`. -/
def countObject : Reader Unit := do
  let r ← get
  check (r.objects < r.maxObjects)
  note (.add r.objects 1)
  modify fun r => r.bump 1 .objects

/-- `read_se<std::string>`. -/
def readSeString : Reader StorageEntry :=
  limited do
    countString
    let s ← readNew readString
    pure (.string s)

/-- `read_se<section>`. -/
def readSeSection (sec : Reader Section) : Reader StorageEntry :=
  limited do
    countObject
    let s ← sec
    pure (.object s)

/-- `read_se<array_entry>`. -/
def readSeArray (sec : Reader Section) : Reader StorageEntry :=
  limited do
    let type ← readPod .uint8
    check (UInt8.ofNat type.val &&& flagArray ≠ 0)
    loadStorageArrayEntry sec (UInt8.ofNat type.val)

/-- `load_storage_entry`. -/
def loadStorageEntry (sec : Reader Section) : Reader StorageEntry :=
  limited do
    let type ← readPod .uint8
    if UInt8.ofNat type.val &&& flagArray ≠ 0 then
      loadStorageArrayEntry sec (UInt8.ofNat type.val)
    else
      match EntryType.ofCode (UInt8.ofNat type.val) with
      | some (.pod t) => readSePod t
      | some .string => readSeString
      | some .object => readSeSection sec
      | some .array => readSeArray sec
      | none => throw .threw

/-- `lower_bound`: the first name that is not below. -/
def lowerBound (name : Blob) (es : List (Blob × StorageEntry)) : Option Blob :=
  (es.find? fun p => decide (¬ p.1 < name)).map Prod.fst

/-- `emplace_hint`: in front of the first name that is above. -/
def insertEntry (name : Blob) (e : StorageEntry) :
    List (Blob × StorageEntry) → List (Blob × StorageEntry)
  | [] => [(name, e)]
  | p :: rest => if name < p.1 then (name, e) :: p :: rest else p :: insertEntry name e rest

/-- The loop over the entries of a section. -/
def readEntries (entry : Reader StorageEntry) :
    Nat → List (Blob × StorageEntry) → Reader (List (Blob × StorageEntry))
  | 0, es => pure es
  | n + 1, es => do
      let name ← readSecName
      check (lowerBound name es ≠ some name)
      let e ← entry
      readEntries entry n (insertEntry name e es)

/-- `read(section& sec)`, with a bound on the sections that can be open. -/
def readSection : Nat → Reader Section
  | 0 => throw .spent
  | fuel + 1 =>
    limited do
      let count ← readVarint
      addFields count
      let es ← readEntries (loadStorageEntry (readSection fuel)) count.toNat []
      pure (.mk es)

/-! ## With the header -/

/-- `limits_t`. -/
structure Limits where
  objects : UInt64
  fields : UInt64
  strings : UInt64

/-- `std::numeric_limits<size_t>::max()` for all of them. -/
def Limits.none : Limits :=
  ⟨0xffffffffffffffff, 0xffffffffffffffff, 0xffffffffffffffff⟩

/-- `epee::span<const uint8_t>`: bytes in memory. -/
structure Span where
  bytes : Blob
  fits : bytes.length < 2 ^ 64

/-- `storage_block_header`: two signatures and the version. -/
def storageBlockHeader : Blob :=
  littleEndian 4 0x01011101 ++ (littleEndian 4 0x01020101 ++ [1])

/-- `store_to_binary`. -/
def storeToBinary (s : Section) : Option Blob :=
  (packSection s).map (storageBlockHeader ++ ·)

/-- The constructor, and `set_limits`. -/
def newReader (buffer : Blob) (limits : Limits) : BufferReader where
  ptr := buffer
  count := buffer.length
  recursionCount := 0
  objects := 0
  fields := 0
  strings := 0
  maxObjects := limits.objects
  maxFields := limits.fields
  maxStrings := limits.strings
  notes := []

/-- `buf_reader.read(m_root)` on the bytes behind the header, with a bound on the sections that can
    be open. -/
def readRoot (fuel : Nat) (source : Blob) (limits : Limits) :
    EStateM.Result Stop BufferReader Section :=
  readSection fuel (newReader (source.drop 9) limits)

/-- The header is there, and bytes follow it. -/
def HeaderOk (source : Blob) : Prop :=
  9 ≤ source.length ∧ source.take 9 = storageBlockHeader ∧ source.length ≠ 9

instance (source : Blob) : Decidable (HeaderOk source) :=
  inferInstanceAs (Decidable (_ ∧ _ ∧ _))

/-- `load_from_binary`: what it leaves in `m_root` when it returns `true`. -/
def loadFromBinary (source : Span) (limits : Option Limits) : Option Section :=
  if HeaderOk source.bytes then
    match readRoot recursionLimit source.bytes (limits.getD .none) with
    | .ok s _ => some s
    | .error _ _ => none
  else none

end PortableStorage

end CocaineNode
