import Mathlib.Algebra.Ring.Nat
import Mathlib.Algebra.Ring.Int.Defs
import PageTree.Text.Basic
import PageTree.Value.Parser

/-!
# Reading text by byte offsets

A `ByteReader` is a text and a byte offset into it.  Nothing about it keeps the offset at the
beginning of a character: a step adds bytes to it, or puts it back where the step began, and the
text is cut where it stands.  Each step of `Reading` is given here once more on such offsets, with
its loops as loops.  A cut that does not fall between two characters has no result, nor has a loop
that uses up its rounds; it is given one for each byte of the text and one more, which a loop that
moves on in each round cannot use up.
-/

namespace PageTree

/-- A byte offset into a text. -/
structure ByteReader where
  /-- The whole text. -/
  input : String
  /-- The byte offset of the place. -/
  offset : Nat
  deriving DecidableEq, Repr

namespace ByteReader

/-- The start of a text. -/
def ofString (text : String) : ByteReader :=
  ⟨text, 0⟩

/-- Nothing is left to be read. -/
def isDone (b : ByteReader) : Bool :=
  b.input.utf8ByteSize ≤ b.offset

/-- What is left to be read, if the offset counts. -/
def rest? (b : ByteReader) : Option String :=
  Text.between? b.offset b.input.utf8ByteSize b.input

/-- The refusal of the text at this place. -/
def error (b : ByteReader) (reason : String) : StoreError :=
  .malformedValue reason b.input b.offset

/-- Moves over so many bytes. -/
def advance (b : ByteReader) (bytes : Nat) : ByteReader :=
  { b with offset := b.offset + bytes }

/-- More rounds than there are bytes in the text. -/
def rounds (b : ByteReader) : Nat :=
  b.input.utf8ByteSize + 1

/-- Stands at another offset. -/
def moveTo (b : ByteReader) (offset : Nat) : ByteReader :=
  { b with offset := offset }

end ByteReader

/-! ## Numbers that a text spells -/

namespace Text

/-- The integer of 64 bits that digits spell, behind a minus sign if there is one. -/
def int64? (cs : List Char) : Option Int64 :=
  let negative : Bool := cs.head? = some '-'
  let digits := if negative then cs.tail else cs
  let n : Int := if negative then -ofDecimal digits else ofDecimal digits
  if digits.isEmpty || !digits.all Char.isDigit || n < -2 ^ 63 || 2 ^ 63 ≤ n then none
  else some (Int64.ofInt n)

/-- The number of 64 bits that hexadecimal digits spell. -/
def hex64? (cs : List Char) : Option UInt64 :=
  if cs.isEmpty || !cs.all (fun c => (hexDigit? c).isSome) || 2 ^ 64 ≤ ofHexDigits cs then none
  else some (UInt64.ofNat (ofHexDigits cs))

end Text

/-- A reading step on byte offsets.  It has no result at all where the text is cut inside a
character or past its end, or where a loop does not end. -/
abbrev ByteReading := ExceptT StoreError (StateT ByteReader Option)

namespace ByteReading

/-! ## Single characters and words -/

/-- Fails at the current place. -/
def fail {α : Type} (reason : String) : ByteReading α := do
  throw ((← get).error reason)

/-- No result. -/
def never {α : Type} : ByteReading α :=
  liftM (none : Option α)

/-- What is left to be read. -/
def rest : ByteReading String := do
  (← get).rest?

/-- What has been read since an offset. -/
def since (start : Nat) : ByteReading String := do
  let b ← get
  Text.between? start b.offset b.input

/-- The next character, not consumed. -/
def peek : ByteReading (Option Char) :=
  return (← rest).toList.head?

/-- Consumes the next character. -/
def bump : ByteReading (Option Char) := do
  match ← peek with
  | none => return none
  | some c =>
    modify (·.advance c.utf8Size)
    return some c

/-- Consumes `c` if it is next. -/
def eat (c : Char) : ByteReading Bool := do
  if (← peek) = some c then
    modify (·.advance c.utf8Size)
    return true
  else
    return false

/-- Consumes `c` or fails. -/
def expect (c : Char) : ByteReading Unit := do
  if !(← eat c) then
    fail ("expected '" ++ c.toString ++ "'")

/-- Consumes `text` if it is next. -/
def eatText (text : String) : ByteReading Bool := do
  if text.toList.isPrefixOf (← rest).toList then
    modify (·.advance text.utf8ByteSize)
    return true
  else
    return false

/-- Consumes `text` or fails. -/
def expectText (text : String) : ByteReading Unit := do
  if !(← eatText text) then
    fail ("expected \"" ++ text ++ "\"")

/-- Moves over characters of a class, one byte for each, within some rounds. -/
def skipWithin (p : Char → Bool) : Nat → ByteReading Unit
  | 0 => never
  | rounds + 1 => do
    match ← peek with
    | none => return ()
    | some c =>
      if p c then
        modify (·.advance 1)
        skipWithin p rounds
      else
        return ()

/-- Moves over characters of a class, one byte for each. -/
def skipWhile (p : Char → Bool) : ByteReading Unit := do
  skipWithin p (← get).rounds

/-! ## Words and numbers -/

/-- Reads an identifier. -/
def ident : ByteReading String := do
  let start := (← get).offset
  skipWhile Reading.isIdentChar
  if (← get).offset = start then
    fail "expected identifier"
  since start

/-- Reads a decimal integer of 64 bits.  A failure puts the offset back. -/
def integer : ByteReading Int64 := do
  let start := (← get).offset
  let _ ← eat '-'
  skipWhile Char.isDigit
  match Text.int64? (← since start).toList with
  | some n => return n
  | none =>
    modify (·.moveTo start)
    fail "expected integer"

/-- Reads a hexadecimal number of 64 bits.  A failure behind the `0x` puts the offset back
there. -/
def hexNumber : ByteReading UInt64 := do
  expectText "0x"
  let start := (← get).offset
  skipWhile fun c => (Text.hexDigit? c).isSome
  let digits ← since start
  if digits.isEmpty || 16 < digits.utf8ByteSize then
    modify (·.moveTo start)
    fail "expected 1 to 16 hex digits"
  match Text.hex64? digits.toList with
  | some n => return n
  | none => fail "invalid hex number"

/-- Reads one of the words that are values.  An unknown word is not consumed. -/
def literal : ByteReading Value := do
  let start := (← get).offset
  let word ← ident
  if word = "absent" then
    return .absent
  else if word = "true" then
    return .bool true
  else if word = "false" then
    return .bool false
  else do
    modify (·.moveTo start)
    fail "unknown literal"

/-! ## Texts and bytes -/

/-- Reads a quoted text behind its opening quote, within some rounds. -/
def untilQuote : Nat → ByteReading (List Char)
  | 0 => never
  | rounds + 1 => do
    match ← bump with
    | none => fail "unterminated string"
    | some c =>
      if c = '"' then
        return []
      else if c = '\\' then
        match (← bump).bind Text.unescape? with
        | none => fail "invalid escape"
        | some d => return d :: (← untilQuote rounds)
      else
        return c :: (← untilQuote rounds)

/-- Reads a quoted text. -/
def quoted : ByteReading String := do
  expect '"'
  return String.ofList (← untilQuote (← get).rounds)

/-- Reads pairs of hexadecimal digits, one byte for each digit, within some rounds. -/
def digitPairs : Nat → ByteReading (List UInt8)
  | 0 => never
  | rounds + 1 => do
    match (← peek).bind Text.hexDigit? with
    | none => return []
    | some high =>
      modify (·.advance 1)
      match (← peek).bind Text.hexDigit? with
      | none => fail "odd number of hex digits"
      | some low =>
        modify (·.advance 1)
        return UInt8.ofNat (16 * high + low) :: (← digitPairs rounds)

/-- Reads bytes. -/
def bytes : ByteReading (List UInt8) := do
  expect '%'
  digitPairs (← get).rounds

/-! ## Values -/

mutual

/-- Reads a value within some rounds. -/
def valueWithin : Nat → ByteReading Value
  | 0 => never
  | rounds + 1 => do
    match ← peek with
    | none => fail "unexpected end of input"
    | some c =>
      if c = '"' then
        return .text (← quoted)
      else if c = '%' then
        return .data (← bytes)
      else if c = '\x7b' then
        expect '\x7b'
        if ← eat '\x7d' then
          return .list []
        else
          return .list (← itemsWithin rounds)
      else if c = '-' || c.isDigit then
        return .int (← integer)
      else if c.isAlpha then
        literal
      else
        fail "unexpected character"

/-- Reads the items of a list and its closing brace, within some rounds. -/
def itemsWithin : Nat → ByteReading (List Value)
  | 0 => never
  | rounds + 1 => do
    let item ← valueWithin rounds
    if ← eat ',' then
      return item :: (← itemsWithin rounds)
    else
      expect '\x7d'
      return [item]

end

/-- Reads a value.  It may take two rounds for a character: a list and an item both take one. -/
def value : ByteReading Value := do
  valueWithin (2 * (← get).rounds)

/-- Fails unless nothing is left to be read. -/
def finish : ByteReading Unit := do
  if !(← get).isDone then
    fail "trailing input"

end ByteReading

/-! ## Steps -/

/-- A step that a caller of a reader may take. -/
inductive ReadingStep where
  | peek
  | bump
  | eat (c : Char)
  | expect (c : Char)
  | eatText (text : String)
  | expectText (text : String)
  | ident
  | integer
  | hexNumber
  | value
  | finish
  deriving DecidableEq, Repr

/-- What a step gives. -/
inductive Finding where
  /-- The next character, if there is one. -/
  | next (c : Option Char)
  /-- Whether something has been found. -/
  | found (it : Bool)
  /-- What was asked for was there. -/
  | done
  | name (text : String)
  | int (n : Int64)
  | hex (n : UInt64)
  | value (v : Value)

namespace ReadingStep

/-- The step on a place between characters. -/
def read : ReadingStep → Reading Finding
  | peek => .next <$> Reading.peek
  | bump => .next <$> Reading.bump
  | eat c => .found <$> Reading.eat c
  | expect c => (fun _ => .done) <$> Reading.expect c
  | eatText text => .found <$> Reading.eatText text
  | expectText text => (fun _ => .done) <$> Reading.expectText text
  | ident => .name <$> Reading.ident
  | integer => .int <$> Reading.integer
  | hexNumber => .hex <$> Reading.hexNumber
  | value => .value <$> Reading.value
  | finish => (fun _ => .done) <$> Reading.finish

/-- The step on a byte offset. -/
def readBytes : ReadingStep → ByteReading Finding
  | peek => .next <$> ByteReading.peek
  | bump => .next <$> ByteReading.bump
  | eat c => .found <$> ByteReading.eat c
  | expect c => (fun _ => .done) <$> ByteReading.expect c
  | eatText text => .found <$> ByteReading.eatText text
  | expectText text => (fun _ => .done) <$> ByteReading.expectText text
  | ident => .name <$> ByteReading.ident
  | integer => .int <$> ByteReading.integer
  | hexNumber => .hex <$> ByteReading.hexNumber
  | value => .value <$> ByteReading.value
  | finish => (fun _ => .done) <$> ByteReading.finish

end ReadingStep

end PageTree
