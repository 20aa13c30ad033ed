import CocaineNode.Core.Types
import CocaineNode.Lib.Throwing

/-!
# Portable Storage in JSON

The parser of the JSON that a node is sent by its users: `run_handler`, a state
machine that reads one section and calls itself for the sections inside, and the
scanners for strings, numbers and words.

An iterator is the list of the bytes from its position to the end of the text.
Every `*it` of the source is a `deref`, which records how many bytes there were.
The storage that is filled is a parameter, as it is in the source, and so is
`strtod`.

A handler that meets the end of the text returns as one that has met its `}`
does, but without moving the iterator of its caller. Its value tells the two
apart.

## Main definitions

* `Json.Parser`: The state of a run, and its calls.
* `Json.matchString2`, `Json.matchNumber2`, `Json.matchWord2`: The scanners.
-/

namespace CocaineNode

namespace Json

/-! ## Characters -/

/-- `"`. -/
def quote : UInt8 := 0x22

/-- `\`. -/
def backslash : UInt8 := 0x5c

/-- `-`. -/
def minus : UInt8 := 0x2d

/-- `,`. -/
def comma : UInt8 := 0x2c

/-- `:`. -/
def colon : UInt8 := 0x3a

/-- `u`. -/
def letterU : UInt8 := 0x75

/-- The brace that starts a section. -/
def openBrace : UInt8 := 0x7b

/-- The brace that ends a section. -/
def closeBrace : UInt8 := 0x7d

/-- The bracket that starts an array. -/
def openBracket : UInt8 := 0x5b

/-- The bracket that ends an array. -/
def closeBracket : UInt8 := 0x5d

/-- `lut`: digit 1, floating point 2, letter 4, white space 8, allowed in a number 16, and 32 for
    the two characters that end the verbatim part of a string. -/
def lut (c : UInt8) : UInt8 :=
  if 9 ≤ c ∧ c ≤ 13 ∨ c = 32 then 8
  else if c = 0x22 ∨ c = 0x5c then 32
  else if c = 0x2b ∨ c = 0x2d then 16
  else if c = 0x2e then 18
  else if 0x30 ≤ c ∧ c ≤ 0x39 then 17
  else if c = 0x45 ∨ c = 0x65 then 22
  else if 0x41 ≤ c ∧ c ≤ 0x5a ∨ 0x61 ≤ c ∧ c ≤ 0x7a then 4
  else 0

/-- `isx`: the value of a hexadecimal digit, and `0xff` for what is none. -/
def isx (c : UInt8) : UInt8 :=
  if 0x30 ≤ c ∧ c ≤ 0x39 then c - 0x30
  else if 0x41 ≤ c ∧ c ≤ 0x46 then c - 0x37
  else if 0x61 ≤ c ∧ c ≤ 0x66 then c - 0x57
  else 0xff

/-- `parse::isspace`. -/
def isSpace (c : UInt8) : Prop :=
  lut c &&& 8 ≠ 0

/-- `parse::isdigit`. -/
def isDigit (c : UInt8) : Prop :=
  lut c &&& 1 ≠ 0

/-- May stand in a number. -/
def inNumber (c : UInt8) : Prop :=
  lut c &&& 16 ≠ 0

/-- May stand in a word. -/
def inWord (c : UInt8) : Prop :=
  lut c &&& 4 ≠ 0

/-- `isalpha`. -/
def isAlpha (c : UInt8) : Prop :=
  0x41 ≤ c ∧ c ≤ 0x5a ∨ 0x61 ≤ c ∧ c ≤ 0x7a

instance (c : UInt8) : Decidable (isSpace c) := inferInstanceAs (Decidable (_ ≠ _))

instance (c : UInt8) : Decidable (isDigit c) := inferInstanceAs (Decidable (_ ≠ _))

instance (c : UInt8) : Decidable (inNumber c) := inferInstanceAs (Decidable (_ ≠ _))

instance (c : UInt8) : Decidable (inWord c) := inferInstanceAs (Decidable (_ ≠ _))

instance (c : UInt8) : Decidable (isAlpha c) := inferInstanceAs (Decidable (_ ∨ _))

/-- `boost::iequals` with a word in lower case. -/
def iequals (word lower : Blob) : Bool :=
  word.map (fun c => if 0x41 ≤ c ∧ c ≤ 0x5a then c + 0x20 else c) == lower

/-- `null`. -/
def wordNull : Blob := [0x6e, 0x75, 0x6c, 0x6c]

/-- `true`. -/
def wordTrue : Blob := [0x74, 0x72, 0x75, 0x65]

/-- `false`. -/
def wordFalse : Blob := [0x66, 0x61, 0x6c, 0x73, 0x65]

/-! ## The state of a run -/

/-- Why a run fails. -/
inductive Problem where
  /-- Recursion limitation exceeded. -/
  | recursion
  /-- Wrong JSON character. -/
  | wrongCharacter
  /-- Failed to match string in json entry. -/
  | unmatchedString
  /-- Invalid Unicode escape sequence. -/
  | invalidEscape
  /-- Bad Unicode encoding. -/
  | badUnicode
  /-- Wrong number in json entry. -/
  | wrongNumber
  /-- Failed to match word number in json entry. -/
  | wrongWord
  /-- Invalid number. -/
  | invalidNumber
  /-- Unknown value keyword. -/
  | unknownKeyword
  /-- An array of arrays is not supported. -/
  | arrayOfArrays
  /-- Bad array state. -/
  | badArrayState
  /-- The storage did not take the value or the section. -/
  | failedInsert
  /-- The turns allowed to a loop were used up. -/
  | spent
  deriving DecidableEq, Repr

/-- The storage, for each `*it` the number of bytes from there to the end of the text, and for each
    call of `match_string2` the text behind the quote. -/
structure Run (σ : Type) where
  storage : σ
  derefs : List Nat
  strings : List Blob

/-- A call of the parser. -/
abbrev Parser (σ α : Type) : Type :=
  EStateM Problem (Run σ) α

variable {σ S A D β : Type}

/-- `*it`. Behind the text there is a NUL. -/
def deref (it : Blob) : Parser σ UInt8 := fun r =>
  .ok (it.headD 0) { r with derefs := it.length :: r.derefs }

/-- `CHECK_AND_ASSERT_THROW_MES`. -/
def check (p : Prop) [Decidable p] (e : Problem) : Parser σ Unit :=
  if p then pure () else throw e

/-! ## Strings -/

/-- What the next character of a string is taken for. -/
inductive ScanMode where
  | plain
  | escape
  /-- One of the four digits of a code point: the ones that follow it, and the value so far. -/
  | hex (more dst : Nat)

/-- The character behind a backslash. One that has no meaning stands for itself. -/
def unescape (c : UInt8) : UInt8 :=
  if c = 0x62 then 0x08
  else if c = 0x66 then 0x0c
  else if c = 0x6e then 0x0a
  else if c = 0x72 then 0x0d
  else if c = 0x74 then 0x09
  else if c = 0x76 then 0x0b
  else c

/-- A code point below `0x10000` as UTF-8. -/
def encodeUtf8 (dst : Nat) : Blob :=
  if dst ≤ 0x7f then [UInt8.ofNat dst]
  else if dst ≤ 0x7ff then [UInt8.ofNat (0xc0 + dst / 64), UInt8.ofNat (0x80 + dst % 64)]
  else
    [UInt8.ofNat (0xe0 + dst / 4096), UInt8.ofNat (0x80 + dst / 64 % 64),
      UInt8.ofNat (0x80 + dst % 64)]

/-- The part of a string in front of the first quote or backslash, and what follows it. -/
def verbatim : Blob → Parser σ (Blob × Blob)
  | [] => pure ([], [])
  | c :: rest => do
      let c ← deref (c :: rest)
      if lut c &&& 32 = 0 then do
        let (val, it) ← verbatim rest
        pure (c :: val, it)
      else pure ([], c :: rest)

/-- The loop of `match_string2`: what the string is, and what follows it. -/
def scan : ScanMode → Blob → Blob → Parser σ (Blob × Blob)
  | .hex _ _, _, [] => do
      -- The digits are read without a look at the end. The NUL behind the text is none.
      let _ ← deref []
      throw .badUnicode
  | .plain, _, [] => throw .unmatchedString
  | .escape, _, [] => throw .unmatchedString
  | .plain, val, c :: rest => do
      let c ← deref (c :: rest)
      if c = quote then pure (val, rest)
      else if c = backslash then scan .escape val rest
      else scan .plain (val ++ [c]) rest
  | .escape, val, c :: rest => do
      let c ← deref (c :: rest)
      if c = letterU then do
        check (4 ≤ (c :: rest).length) .invalidEscape
        scan (.hex 3 0) val rest
      else scan .plain (val ++ [unescape c]) rest
  | .hex more dst, val, c :: rest => do
      let c ← deref (c :: rest)
      check (isx c ≠ 0xff) .badUnicode
      match more with
      | 0 => scan .plain (val ++ encodeUtf8 (dst * 16 + (isx c).toNat)) rest
      | more + 1 => scan (.hex more (dst * 16 + (isx c).toNat)) val rest

/-- `match_string2`, from the quote that starts the string. -/
def matchString2 (it : Blob) : Parser σ (Blob × Blob) := do
  modify fun r => { r with strings := it.tail :: r.strings }
  let (val, it) ← verbatim it.tail
  scan .plain val it

/-! ## Numbers and words -/

/-- The characters of a run that satisfy `p`, and what follows them. A run that meets the end of the
    text fails. -/
def spanChars (p : UInt8 → Prop) [DecidablePred p] (e : Problem) : Blob → Parser σ (Blob × Blob)
  | [] => throw e
  | c :: rest => do
      let c ← deref (c :: rest)
      if p c then do
        let (val, it) ← spanChars p e rest
        pure (c :: val, it)
      else pure ([], c :: rest)

/-- `match_number2`: the number, and what follows it. -/
def matchNumber2 (it : Blob) : Parser σ (Blob × Blob) := do
  let c ← deref it
  if c = minus then do
    let (val, it) ← spanChars inNumber .wrongNumber it.tail
    pure (c :: val, it)
  else do
    let (val, it) ← spanChars inNumber .wrongNumber it
    check (val ≠ []) .wrongNumber
    pure (val, it)

/-- `match_word2`: the word, and what follows it. -/
def matchWord2 (it : Blob) : Parser σ (Blob × Blob) := do
  let (val, it) ← spanChars inWord .wrongWord it
  check (val ≠ []) .wrongWord
  pure (val, it)

/-- A value that is not a section and not an array. -/
inductive Value (D : Type) where
  | string (s : Blob)
  | int64 (v : Int)
  | uint64 (v : Nat)
  | double (v : D)
  | bool (b : Bool)

/-- The digits in front, as a number. -/
def leadingDigits (it : Blob) : Nat :=
  (it.takeWhile fun c => decide (isDigit c)).foldl (fun n c => n * 10 + (c.toNat - 0x30)) 0

/-- `strtoll` on a text that starts with a minus, without a value when it sets `errno`. -/
def strtoll (it : Blob) : Option Int :=
  if leadingDigits it.tail ≤ 2 ^ 63 then some (-(leadingDigits it.tail : Int)) else none

/-- `strtoull` on a text that starts with a digit, without a value when it sets `errno`. -/
def strtoull (it : Blob) : Option Nat :=
  if leadingDigits it < 2 ^ 64 then some (leadingDigits it) else none

/-- The value of a number that starts at `it`. The conversions read on to a character that cannot
    stand in a number. -/
def numberValue (strtod : Blob → Option D) (it val : Blob) : Option (Value D) :=
  if (val.drop (if val.head? = some minus then 1 else 0)).any fun c => lut c &&& 2 ≠ 0 then
    (strtod it).map .double
  else if val.head? = some minus then (strtoll it).map .int64
  else (strtoull it).map .uint64

/-- A number and its value. -/
def readNumber (strtod : Blob → Option D) (it : Blob) : Parser σ (Value D × Blob) := do
  let (val, next) ← matchNumber2 it
  let _ ← deref next
  match numberValue strtod it val with
  | some v => pure (v, next)
  | none => throw .invalidNumber

/-! ## The handler -/

/-- `t_storage`. An operation without a value is one that the parser sees fail. -/
structure Storage (σ S A D : Type) where
  setValue : Blob → Value D → Option S → σ → σ
  openSection : Blob → Option S → σ → Option (S × σ)
  insertFirstSection : Blob → Option S → σ → Option ((A × S) × σ)
  insertNextSection : A → σ → Option (S × σ)
  insertFirstValue : Blob → Value D → Option S → σ → Option (A × σ)
  insertNextValue : A → Value D → σ → Option (Unit × σ)
  strtod : Blob → Option D

/-- An operation that has to succeed. -/
def insist (op : σ → Option (β × σ)) : Parser σ β := fun r =>
  match op r.storage with
  | some (b, s) => .ok b { r with storage := s }
  | none => .error .failedInsert r

/-- `match_state`. -/
inductive MatchState where
  | lookupForSectionStart
  | lookupForName
  | waitingSeparator
  | wonderAfterSeparator
  | wonderAfterValue
  | wonderArray
  | arrayAfterValue
  | arrayWaitingValue
  deriving DecidableEq, Repr

/-- `array_mode`. -/
inductive ArrayMode where
  | undefined
  | sections
  | string
  | numbers
  | booleans
  deriving DecidableEq, Repr

/-- The variables of a handler. -/
structure Local (A : Type) where
  state : MatchState
  name : Blob
  hArray : Option A
  arrayMode : ArrayMode

/-- What a turn of the loop comes to. -/
inductive Turn (A : Type) where
  /-- The loop goes on. -/
  | go (l : Local A) (it : Blob)
  /-- The handler returns at the end of its section. -/
  | closed (it : Blob)

/-- `CHECK_ISSPACE`: another turn behind a space. -/
def skipSpace (c : UInt8) (l : Local A) (it : Blob) : Parser σ (Turn A) := do
  check (isSpace c) .wrongCharacter
  pure (.go l it.tail)

/-- The word of a boolean. -/
def booleanValue (word : Blob) : Parser σ (Value D) :=
  if iequals word wordTrue then pure (.bool true)
  else if iequals word wordFalse then pure (.bool false)
  else throw .unknownKeyword

/-- `insert_next_value`. -/
def insertNext (st : Storage σ S A D) (l : Local A) (v : Value D) : Parser σ Unit :=
  match l.hArray with
  | some a => insist (st.insertNextValue a v)
  | none => throw .failedInsert

/-- A section that starts at `it`. The handler that ran out of text left the iterator where it was.
    -/
def enterSection (inner : S → Blob → Parser σ (Option Blob)) (sec : S) (it : Blob) :
    Parser σ Blob := do
  let closed ← inner sec it
  pure (closed.getD it.tail)

/-- `match_state_wonder_after_separator`. -/
def afterSeparator (st : Storage σ S A D) (inner : S → Blob → Parser σ (Option Blob))
    (sec : Option S) (l : Local A) (c : UInt8) (it : Blob) : Parser σ (Turn A) :=
  if c = quote then do
    let (val, next) ← matchString2 it
    modify fun r => { r with storage := st.setValue l.name (.string val) sec r.storage }
    pure (.go { l with state := .wonderAfterValue } next)
  else if isDigit c ∨ c = minus then do
    let (v, next) ← readNumber st.strtod it
    modify fun r => { r with storage := st.setValue l.name v sec r.storage }
    pure (.go { l with state := .wonderAfterValue } next)
  else if isAlpha c then do
    let (word, next) ← matchWord2 it
    if iequals word wordNull then pure (.go { l with state := .wonderAfterValue } next)
    else do
      let v ← booleanValue word
      modify fun r => { r with storage := st.setValue l.name v sec r.storage }
      pure (.go { l with state := .wonderAfterValue } next)
  else if c = openBrace then do
    let new ← insist (st.openSection l.name sec)
    let next ← enterSection inner new it
    pure (.go { l with state := .wonderAfterValue } next)
  else if c = openBracket then pure (.go { l with state := .wonderArray } it.tail)
  else skipSpace c l it

/-- `match_state_wonder_array`. -/
def wonderArray (st : Storage σ S A D) (inner : S → Blob → Parser σ (Option Blob))
    (sec : Option S) (l : Local A) (c : UInt8) (it : Blob) : Parser σ (Turn A) :=
  if c = openBracket then throw .arrayOfArrays
  else if c = openBrace then do
    let (a, new) ← insist (st.insertFirstSection l.name sec)
    let next ← enterSection inner new it
    pure (.go { l with state := .arrayAfterValue, hArray := some a, arrayMode := .sections } next)
  else if c = quote then do
    let (val, next) ← matchString2 it
    let a ← insist (st.insertFirstValue l.name (.string val) sec)
    pure (.go { l with state := .arrayAfterValue, hArray := some a, arrayMode := .string } next)
  else if isDigit c ∨ c = minus then do
    let (v, next) ← readNumber st.strtod it
    let a ← insist (st.insertFirstValue l.name v sec)
    pure (.go { l with state := .arrayAfterValue, hArray := some a, arrayMode := .numbers } next)
  else if c = closeBracket then
    pure (.go { l with state := .wonderAfterValue, arrayMode := .undefined } it.tail)
  else if isAlpha c then do
    let (word, next) ← matchWord2 it
    let v ← booleanValue word
    let a ← insist (st.insertFirstValue l.name v sec)
    pure (.go { l with state := .arrayAfterValue, hArray := some a, arrayMode := .booleans } next)
  else skipSpace c l it

/-- `match_state_array_waiting_value`. -/
def arrayWaiting (st : Storage σ S A D) (inner : S → Blob → Parser σ (Option Blob))
    (l : Local A) (c : UInt8) (it : Blob) : Parser σ (Turn A) :=
  match l.arrayMode with
  | .sections =>
    if c = openBrace then do
      match l.hArray with
      | some a => do
          let new ← insist (st.insertNextSection a)
          let next ← enterSection inner new it
          pure (.go { l with state := .arrayAfterValue } next)
      | none => throw .failedInsert
    else skipSpace c l it
  | .string =>
    if c = quote then do
      let (val, next) ← matchString2 it
      insertNext st l (.string val)
      pure (.go { l with state := .arrayAfterValue } next)
    else skipSpace c l it
  | .numbers =>
    if isDigit c ∨ c = minus then do
      let (v, next) ← readNumber st.strtod it
      insertNext st l v
      pure (.go { l with state := .arrayAfterValue } next)
    else skipSpace c l it
  | .booleans =>
    if isAlpha c then do
      let (word, next) ← matchWord2 it
      let v ← booleanValue word
      insertNext st l v
      pure (.go { l with state := .arrayAfterValue } next)
    else skipSpace c l it
  | .undefined => throw .badArrayState

/-- One turn of the loop, at a position in front of the end. -/
def step (st : Storage σ S A D) (inner : S → Blob → Parser σ (Option Blob)) (sec : Option S)
    (l : Local A) (it : Blob) : Parser σ (Turn A) := do
  let c ← deref it
  match l.state with
  | .lookupForSectionStart =>
    if c = openBrace then pure (.go { l with state := .lookupForName } it.tail)
    else skipSpace c l it
  | .lookupForName =>
    if c = quote then do
      let (name, next) ← matchString2 it
      pure (.go { l with state := .waitingSeparator, name := name } next)
    else if c = closeBrace then pure (.closed it.tail)
    else skipSpace c l it
  | .waitingSeparator =>
    if c = colon then pure (.go { l with state := .wonderAfterSeparator } it.tail)
    else skipSpace c l it
  | .wonderAfterSeparator => afterSeparator st inner sec l c it
  | .wonderAfterValue =>
    if c = comma then pure (.go { l with state := .lookupForName } it.tail)
    else if c = closeBrace then pure (.closed it.tail)
    else skipSpace c l it
  | .wonderArray => wonderArray st inner sec l c it
  | .arrayAfterValue =>
    if c = comma then pure (.go { l with state := .arrayWaitingValue } it.tail)
    else if c = closeBracket then
      pure (.go { l with state := .wonderAfterValue, hArray := none, arrayMode := .undefined }
        it.tail)
    else skipSpace c l it
  | .arrayWaitingValue => arrayWaiting st inner l c it

/-- The loop, with a bound on its turns. It returns what follows the section, or nothing at the end
    of the text. -/
def runLoop (turn : Local A → Blob → Parser σ (Turn A)) :
    Nat → Local A → Blob → Parser σ (Option Blob)
  | _, _, [] => pure none
  | 0, _, _ :: _ => throw .spent
  | fuel + 1, l, c :: rest => do
      match ← turn l (c :: rest) with
      | .closed it => pure (some it)
      | .go l it => runLoop turn fuel l it

/-- `EPEE_JSON_RECURSION_LIMIT_INTERNAL`. -/
def recursionLimit : Nat := 100

/-- The variables at the start of a handler. -/
def Local.start : Local A :=
  ⟨.lookupForSectionStart, [], none, .undefined⟩

/-- `run_handler`, for the number of handlers that may still be opened. -/
def runHandler (st : Storage σ S A D) : Nat → Option S → Blob → Parser σ (Option Blob)
  | 0, _, _ => throw .recursion
  | left + 1, sec, it =>
    runLoop (step st (fun new => runHandler st left (some new)) sec) it.length .start it

/-- `run_handler` as `load_from_json` calls it. -/
def parse (st : Storage σ S A D) (text : Blob) (storage : σ) :
    EStateM.Result Problem (Run σ) (Option Blob) :=
  runHandler st recursionLimit none text ⟨storage, [], []⟩

/-- `load_from_json`. -/
def loadFromJson (st : Storage σ S A D) (text : Blob) (storage : σ) : Bool :=
  match parse st text storage with
  | .ok _ _ => true
  | .error _ _ => false

end Json

end CocaineNode
