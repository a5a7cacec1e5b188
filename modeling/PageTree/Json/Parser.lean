import PageTree.Json.Basic

/-!
# Reading JSON

Each reader takes characters and gives what it has read and the characters that remain.
Documents nest, so a document is read with a bound on the nesting; the bound that
`Json.parse?` starts with is one that no text reaches.
-/

namespace PageTree
namespace Json

/-- Drops the blanks in front. -/
def skipBlanks (cs : List Char) : List Char :=
  cs.dropWhile fun c => c == ' ' || c == '\n' || c == '\t' || c == '\r'

/-! ## Strings -/

/-- The character that a one-letter escape stands for. -/
def unescape? (c : Char) : Option Nat :=
  match c with
  | '"' => some 0x22
  | '\\' => some 0x5C
  | '/' => some 0x2F
  | 'b' => some 0x08
  | 'f' => some 0x0C
  | 'n' => some 0x0A
  | 'r' => some 0x0D
  | 't' => some 0x09
  | _ => none

/-- A piece of a string: a character as it stands, or an escape. -/
inductive Piece where
  | plain (point : Nat)
  | escaped (point : Nat)
  /-- An escape of four hexadecimal digits, one unit of UTF-16. -/
  | unit (n : Nat)

/-- The pieces of a string after its opening quote. -/
def readPieces : List Char → Option (List Piece × List Char)
  | [] => none
  | '"' :: cs => some ([], cs)
  | '\\' :: 'u' :: a :: b :: c :: d :: cs => do
    let a ← Text.hexDigit? a
    let b ← Text.hexDigit? b
    let c ← Text.hexDigit? c
    let d ← Text.hexDigit? d
    let (pieces, rest) ← readPieces cs
    return (.unit (((16 * a + b) * 16 + c) * 16 + d) :: pieces, rest)
  | '\\' :: c :: cs => do
    let point ← unescape? c
    let (pieces, rest) ← readPieces cs
    return (.escaped point :: pieces, rest)
  | c :: cs => do
    if c = '\\' then none
    let (pieces, rest) ← readPieces cs
    return (.plain c.toNat :: pieces, rest)

/-- The code points of pieces; two units that form a surrogate pair are one code point. -/
def pointsOf : List Piece → List Nat
  | [] => []
  | .unit hi :: .unit lo :: pieces =>
    if 0xD800 ≤ hi && hi < 0xDC00 && 0xDC00 ≤ lo && lo < 0xE000 then
      (0x10000 + (hi - 0xD800) * 0x400 + (lo - 0xDC00)) :: pointsOf pieces
    else
      hi :: pointsOf (.unit lo :: pieces)
  | .unit n :: pieces => n :: pointsOf pieces
  | .plain n :: pieces => n :: pointsOf pieces
  | .escaped n :: pieces => n :: pointsOf pieces

/-- A piece is a control character as it stands. -/
def Piece.isControl : Piece → Bool
  | .plain n => n < 32
  | _ => false

/-- Reads a string after its opening quote. -/
def readString (cs : List Char) : Option (JsonString × List Char) := do
  let (pieces, rest) ← readPieces cs
  return (⟨pointsOf pieces, pieces.all fun piece => !piece.isControl⟩, rest)

/-! ## Numbers -/

/-- Reads a run of at least one digit. -/
def readDigits (cs : List Char) : Option (List Char × List Char) :=
  let digits := cs.takeWhile Char.isDigit
  if digits.isEmpty then none else some (digits, cs.dropWhile Char.isDigit)

/-- Reads an exponent, if there is one, and says whether there was. -/
def readExponent : List Char → Option (Bool × List Char)
  | [] => some (false, [])
  | c :: cs =>
    if c = 'e' || c = 'E' then do
      let cs := match cs with
        | '+' :: cs => cs
        | '-' :: cs => cs
        | cs => cs
      let (_, rest) ← readDigits cs
      return (true, rest)
    else
      some (false, c :: cs)

/-- Reads what may follow the whole part of a number, and says whether anything did. -/
def readFraction : List Char → Option (Bool × List Char)
  | '.' :: cs => do
    let (_, rest) ← readDigits cs
    let (_, rest) ← readExponent rest
    return (true, rest)
  | cs => readExponent cs

/-- Reads a number without its sign.  A leading zero stands alone. -/
def readNumber (negative : Bool) (cs : List Char) : Option (Json × List Char) := do
  let (digits, rest) ← readDigits cs
  if 1 < digits.length && digits.head? == some '0' then none
  let (isReal, rest) ← readFraction rest
  let n := Text.ofDecimal digits
  if isReal || (negative && n = 0) then
    return (.real, rest)
  else
    return (.integer (if negative then -n else n), rest)

/-! ## Documents -/

/-- Consumes a word. -/
def readWord (word : String) (document : Json) (cs : List Char) : Option (Json × List Char) := do
  return (document, ← word.toList.isPrefixOf? cs)

mutual

/-- Reads a document whose nesting stays within the bound. -/
def readWithin : Nat → List Char → Option (Json × List Char)
  | 0, _ => none
  | bound + 1, cs =>
    match skipBlanks cs with
    | '"' :: cs => do
      let (s, rest) ← readString cs
      return (.string s, rest)
    | '[' :: cs =>
      match skipBlanks cs with
      | ']' :: rest => some (.array [], rest)
      | cs => do
        let (items, rest) ← readItemsWithin bound cs
        return (.array items, rest)
    | '\x7b' :: cs =>
      match skipBlanks cs with
      | '\x7d' :: rest => some (.object [], rest)
      | cs => do
        let (members, rest) ← readMembersWithin bound cs
        return (.object members, rest)
    | '-' :: cs => readNumber true cs
    | 'n' :: cs => readWord "ull" .null cs
    | 't' :: cs => readWord "rue" (.bool true) cs
    | 'f' :: cs => readWord "alse" (.bool false) cs
    | cs => readNumber false cs

/-- Reads the items of an array and its closing bracket. -/
def readItemsWithin : Nat → List Char → Option (List Json × List Char)
  | 0, _ => none
  | bound + 1, cs => do
    let (item, rest) ← readWithin bound cs
    match skipBlanks rest with
    | ']' :: rest => return ([item], rest)
    | ',' :: rest =>
      let (items, rest) ← readItemsWithin bound rest
      return (item :: items, rest)
    | _ => none

/-- Reads the members of an object and its closing brace. -/
def readMembersWithin : Nat → List Char → Option (List (JsonString × Json) × List Char)
  | 0, _ => none
  | bound + 1, cs => do
    let '"' :: cs := skipBlanks cs | none
    let (key, rest) ← readString cs
    let ':' :: rest := skipBlanks rest | none
    let (item, rest) ← readWithin bound rest
    match skipBlanks rest with
    | '\x7d' :: rest => return ([(key, item)], rest)
    | ',' :: rest =>
      let (members, rest) ← readMembersWithin bound rest
      return ((key, item) :: members, rest)
    | _ => none

end

/-- The document that a whole text spells. -/
def parse? (text : String) : Option Json := do
  let cs := text.toList
  let (document, rest) ← readWithin (2 * cs.length + 1) cs
  if (skipBlanks rest).isEmpty then return document else none

end Json
end PageTree
