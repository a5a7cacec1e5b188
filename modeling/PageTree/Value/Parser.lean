import PageTree.Text.Basic
import PageTree.Text.Reader
import PageTree.Value.Basic

/-!
# Reading a value

The inverse of the printer.  Lists nest, so a value is read with a bound on the nesting; the
bound that `Reading.value` starts with is one that no text reaches.
-/

namespace PageTree

/-- Scans a quoted text after its opening quote: the text and the characters moved over. -/
def scanQuoted : List Char → Except String (List Char) × Nat
  | [] => (.error "unterminated string", 0)
  | ['\\'] => (.error "invalid escape", 1)
  | '\\' :: c :: rest =>
    match Text.unescape? c with
    | none => (.error "invalid escape", 2)
    | some d =>
      let (outcome, moved) := scanQuoted rest
      (outcome.map (d :: ·), moved + 2)
  | '"' :: _ => (.ok [], 1)
  | c :: rest =>
    let (outcome, moved) := scanQuoted rest
    (outcome.map (c :: ·), moved + 1)

/-- Scans pairs of hexadecimal digits: the bytes and the characters moved over. -/
def scanBytes : List Char → Except String (List UInt8) × Nat
  | [] => (.ok [], 0)
  | [c] => if (Text.hexDigit? c).isSome then (.error "odd number of hex digits", 1) else (.ok [], 0)
  | hi :: lo :: rest =>
    match Text.hexDigit? hi, Text.hexDigit? lo with
    | none, _ => (.ok [], 0)
    | some _, none => (.error "odd number of hex digits", 1)
    | some h, some l =>
      let (outcome, moved) := scanBytes rest
      (outcome.map (UInt8.ofNat (16 * h + l) :: ·), moved + 2)

namespace Reading

/-- Reads one of the words that are values.  An unknown word is not consumed. -/
def literal : Reading Value := do
  let start ← get
  match ← ident with
  | "absent" => return .absent
  | "true" => return .bool true
  | "false" => return .bool false
  | _ =>
    set start
    fail "unknown literal"

/-- Reads a quoted text. -/
def quoted : Reading String := do
  expect '"'
  return String.ofList (← scan scanQuoted)

/-- Reads bytes, a percent sign and two hexadecimal digits each. -/
def bytes : Reading (List UInt8) := do
  expect '%'
  scan scanBytes

mutual

/-- Reads a value whose nesting stays within the bound. -/
def valueWithin : Nat → Reading Value
  | 0 => fail "unexpected nesting"
  | bound + 1 => do
    match ← peek with
    | none => fail "unexpected end of input"
    | some c =>
      if c = '"' then
        return .text (← quoted)
      else if c = '%' then
        return .data (← bytes)
      else if c = '\x7b' then
        expect '\x7b'
        if ← eat '\x7d' then
          return .list []
        else
          return .list (← itemsWithin bound)
      else if c = '-' || c.isDigit then
        return .int (← integer)
      else if c.isAlpha then
        literal
      else
        fail "unexpected character"

/-- Reads the items of a list and its closing brace. -/
def itemsWithin : Nat → Reading (List Value)
  | 0 => fail "unexpected nesting"
  | bound + 1 => do
    let item ← valueWithin bound
    if ← eat ',' then
      return item :: (← itemsWithin bound)
    else
      expect '\x7d'
      return [item]

end

/-- Reads a value. -/
def value : Reading Value := do
  valueWithin (2 * (← get).rest.length + 1)

end Reading

/-- The value that a whole text spells. -/
def Value.parse (text : String) : Except StoreError Value :=
  Reading.value.parse text

end PageTree
