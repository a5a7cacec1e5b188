import PageTree.Text.Basic
import PageTree.Text.Digits

/-!
# JSON documents

The syntax tree of a JSON text.  A string is kept as its code points, since escapes may spell
half of a surrogate pair; `JsonString.text?` gives the text if it is one.
-/

namespace PageTree

/-- A string of a JSON text. -/
structure JsonString where
  /-- The code points, lone surrogates included. -/
  points : List Nat
  /-- No control character stands unescaped in the string. -/
  isStrict : Bool
  deriving DecidableEq, Repr

namespace JsonString

/-- A code point that is a character, that is, no surrogate. -/
def char? (point : Nat) : Option Char :=
  if point.isValidChar then some (Char.ofNat point) else none

/-- The text of a string without unescaped control characters and lone surrogates. -/
def text? (s : JsonString) : Option String := do
  if !s.isStrict then none
  return String.ofList (← s.points.mapM char?)

/-- The bytes of a code point in the general form of UTF-8, which spells surrogates too. -/
def pointBytes (point : Nat) : List UInt8 :=
  if point < 0x80 then [point.toUInt8]
  else if point < 0x800 then [(0xC0 + point / 0x40).toUInt8, (0x80 + point % 0x40).toUInt8]
  else if point < 0x10000 then
    [(0xE0 + point / 0x1000).toUInt8, (0x80 + point / 0x40 % 0x40).toUInt8,
     (0x80 + point % 0x40).toUInt8]
  else
    [(0xF0 + point / 0x40000).toUInt8, (0x80 + point / 0x1000 % 0x40).toUInt8,
     (0x80 + point / 0x40 % 0x40).toUInt8, (0x80 + point % 0x40).toUInt8]

/-- The bytes of a string. -/
def bytes (s : JsonString) : List UInt8 :=
  s.points.flatMap pointBytes

end JsonString

/-- A JSON document. -/
inductive Json where
  | null
  | bool (b : Bool)
  /-- A number without fraction and exponent; a negative zero is not one. -/
  | integer (n : Int)
  /-- Any other number. -/
  | real
  | string (s : JsonString)
  | array (items : List Json)
  | object (members : List (JsonString × Json))

namespace Json

mutual

/-- How deeply arrays and objects nest. -/
def depth : Json → Nat
  | array items => depthAll items + 1
  | object members => depthMembers members + 1
  | _ => 0

def depthAll : List Json → Nat
  | [] => 0
  | item :: items => max item.depth (depthAll items)

def depthMembers : List (JsonString × Json) → Nat
  | [] => 0
  | (_, item) :: members => max item.depth (depthMembers members)

end

mutual

/-- No string of the document has an unescaped control character. -/
def isStrict : Json → Bool
  | string s => s.isStrict
  | array items => isStrictAll items
  | object members => isStrictMembers members
  | _ => true

def isStrictAll : List Json → Bool
  | [] => true
  | item :: items => item.isStrict && isStrictAll items

def isStrictMembers : List (JsonString × Json) → Bool
  | [] => true
  | (key, item) :: members => key.isStrict && item.isStrict && isStrictMembers members

end

/-- The characters of a character inside a printed string. -/
def escape (c : Char) : List Char :=
  if c = '"' then ['\\', '"']
  else if c = '\\' then ['\\', '\\']
  else if c = '\n' then ['\\', 'n']
  else if c = '\r' then ['\\', 'r']
  else if c = '\t' then ['\\', 't']
  else if c.toNat = 8 then ['\\', 'b']
  else if c.toNat = 12 then ['\\', 'f']
  else if c.toNat < 32 then '\\' :: 'u' :: Text.hexDigits 4 c.toNat
  else [c]

/-- A printed string. -/
def renderString (s : String) : List Char :=
  '"' :: (s.toList.flatMap escape ++ ['"'])

/-- A printed object, given its keys and printed members. -/
def renderObject (members : List (String × List Char)) : List Char :=
  '\x7b' :: (Text.joinWith ',' (members.map fun (key, item) => renderString key ++ ':' :: item)
    ++ ['\x7d'])

/-- A printed array, given its printed items. -/
def renderArray (items : List (List Char)) : List Char :=
  '[' :: (Text.joinWith ',' items ++ [']'])

end Json
end PageTree
