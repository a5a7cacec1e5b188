import PageTree.Error
import PageTree.Text.Basic
import PageTree.Text.Digits

/-!
# Reading text

A `TextReader` is a place inside a text: the characters before it and the characters after
it.  Reading steps move it forward; a step that fails reports the whole text and the byte
offset of the failure, and leaves the reader where the failure was found.
-/

namespace PageTree

/-- A place inside a text. -/
structure TextReader where
  /-- The characters already read, nearest first. -/
  before : List Char
  /-- The characters still to be read. -/
  rest : List Char
  deriving DecidableEq, Repr

namespace TextReader

/-- The start of a text. -/
def ofString (text : String) : TextReader :=
  ⟨[], text.toList⟩

/-- The whole text. -/
def input (r : TextReader) : String :=
  String.ofList (r.before.reverse ++ r.rest)

/-- The byte offset of the place. -/
def position (r : TextReader) : Nat :=
  Text.byteLength r.before

/-- Nothing is left to be read. -/
def isDone (r : TextReader) : Bool :=
  r.rest.isEmpty

/-- The refusal of the text at this place. -/
def error (r : TextReader) (reason : String) : StoreError :=
  .malformedValue reason r.input r.position

/-- Moves over the first `n` characters. -/
def advance (r : TextReader) (n : Nat) : TextReader :=
  ⟨(r.rest.take n).reverse ++ r.before, r.rest.drop n⟩

theorem input_advance (r : TextReader) (n : Nat) : (r.advance n).input = r.input := by
  simp [advance, input]

end TextReader

/-- A reading step.  The reader keeps the place it has reached when the step fails. -/
abbrev Reading := ExceptT StoreError (StateM TextReader)

namespace Reading

/-- Fails at the current place. -/
def fail {α : Type} (reason : String) : Reading α := do
  throw ((← get).error reason)

/-- The next character, not consumed. -/
def peek : Reading (Option Char) :=
  return (← get).rest.head?

/-- Consumes the next character. -/
def bump : Reading (Option Char) := do
  let c ← peek
  modify (·.advance 1)
  return c

/-- Consumes `c` if it is next. -/
def eat (c : Char) : Reading Bool := do
  if (← peek) = some c then
    modify (·.advance 1)
    return true
  else
    return false

/-- Consumes `c` or fails. -/
def expect (c : Char) : Reading Unit := do
  if !(← eat c) then
    fail ("expected '" ++ c.toString ++ "'")

/-- Consumes `text` if it is next. -/
def eatText (text : String) : Reading Bool := do
  if text.toList.isPrefixOf (← get).rest then
    modify (·.advance text.length)
    return true
  else
    return false

/-- Consumes `text` or fails. -/
def expectText (text : String) : Reading Unit := do
  if !(← eatText text) then
    fail ("expected \"" ++ text ++ "\"")

/-- Consumes the longest run of characters of a class. -/
def takeWhile (p : Char → Bool) : Reading (List Char) := do
  let run := (← get).rest.takeWhile p
  modify (·.advance run.length)
  return run

/-- Runs a scanner over what is left: its outcome and the number of characters it moves over. -/
def scan {α : Type} (scanner : List Char → Except String α × Nat) : Reading α := do
  let (outcome, moved) := scanner (← get).rest
  modify (·.advance moved)
  match outcome with
  | .ok a => return a
  | .error reason => fail reason

/-- A character of an identifier: a letter or digit of ASCII, or an underscore. -/
def isIdentChar (c : Char) : Bool :=
  c.isAlphanum || c == '_'

/-- Reads an identifier, a non-empty run of identifier characters. -/
def ident : Reading String := do
  let run ← takeWhile isIdentChar
  if run.isEmpty then
    fail "expected identifier"
  return String.ofList run

/-- Reads a decimal integer of 64 bits, with an optional minus sign.  A failure leaves the
reader at the start of the integer. -/
def integer : Reading Int64 := do
  let start ← get
  let negative ← eat '-'
  let digits ← takeWhile Char.isDigit
  let n : Int := if negative then -Text.ofDecimal digits else Text.ofDecimal digits
  if digits.isEmpty || n < Int64.minValue.toInt || Int64.maxValue.toInt < n then
    set start
    fail "expected integer"
  return Int64.ofInt n

/-- Reads a hexadecimal number of 64 bits: `0x` and one to sixteen digits. -/
def hexNumber : Reading UInt64 := do
  expectText "0x"
  let start ← get
  let digits ← takeWhile fun c => (Text.hexDigit? c).isSome
  if digits.isEmpty || 16 < digits.length then
    set start
    fail "expected 1 to 16 hex digits"
  return UInt64.ofNat (Text.ofHexDigits digits)

/-- Fails unless nothing is left to be read. -/
def finish : Reading Unit := do
  if !(← get).isDone then
    fail "trailing input"

end Reading

/-- Reads a whole text. -/
def Reading.parse {α : Type} (step : Reading α) (text : String) : Except StoreError α :=
  ((do let a ← step; finish; return a : Reading α).run.run (TextReader.ofString text)).1

end PageTree
