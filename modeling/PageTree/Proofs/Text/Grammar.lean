import Mathlib.Algebra.Ring.Nat
import Mathlib.Algebra.Ring.Int.Defs
import Mathlib.Data.List.Forall2
import PageTree.Page.Header

/-!
# The grammar of values and headers

Which texts spell a value or a header is said here once, without a reader: `Value.Derives` gives
the derivations of values, and `Header.Derives` those of the list of fields of a header.  Numbers
may have leading zeros, digits of bytes and tiles may be of either case, and the fields of a header
may come in any order and more than once.
-/

namespace PageTree

namespace Text

/-! ## Numbers -/

/-- The decimal digits, each with its value. -/
def decimalDigits : List (Char × Nat) :=
  "0123456789".toList.zipIdx

/-- The hexadecimal digits of either case, each with its value. -/
def hexadecimalDigits : List (Char × Nat) :=
  "0123456789abcdef".toList.zipIdx ++ "ABCDEF".toList.zipIdx 10

/-- A number is spelled with one digit or more, the most significant first. -/
inductive Numeral (base : Nat) (digits : List (Char × Nat)) : List Char → Nat → Prop where
  | first {c : Char} {d : Nat} (digit : (c, d) ∈ digits) : Numeral base digits [c] d
  | next {text : List Char} {n : Nat} {c : Char} {d : Nat} (front : Numeral base digits text n)
      (digit : (c, d) ∈ digits) : Numeral base digits (text ++ [c]) (base * n + d)

/-- An integer is spelled with decimal digits, and with a minus sign if it is to be negated. -/
inductive DerivesInteger : List Char → Int → Prop where
  | plain {text : List Char} {n : Nat} (digits : Numeral 10 decimalDigits text n) :
      DerivesInteger text n
  | negated {text : List Char} {n : Nat} (digits : Numeral 10 decimalDigits text n) :
      DerivesInteger ('-' :: text) (-n)

/-! ## Texts and bytes -/

/-- The characters that may follow a backslash, each with the character that the two stand for. -/
def escapes : List (Char × Char) :=
  [('"', '"'), ('\\', '\\'), ('n', '\n'), ('r', '\r'), ('t', '\t')]

/-- Between quotes, every character but the quote and the backslash stands for itself, and a
backslash and one character may stand for one. -/
inductive DerivesQuoted : List Char → List Char → Prop where
  | nil : DerivesQuoted [] []
  | plain {c : Char} {text cs : List Char} (notQuote : c ≠ '"') (notBackslash : c ≠ '\\')
      (rest : DerivesQuoted text cs) : DerivesQuoted (c :: text) (c :: cs)
  | escaped {c d : Char} {text cs : List Char} (escape : (c, d) ∈ escapes)
      (rest : DerivesQuoted text cs) : DerivesQuoted ('\\' :: c :: text) (d :: cs)

/-- Bytes are spelled with two hexadecimal digits each. -/
inductive DerivesBytes : List Char → List UInt8 → Prop where
  | nil : DerivesBytes [] []
  | cons {high low : Char} {h l : Nat} {text : List Char} {bytes : List UInt8}
      (highDigit : (high, h) ∈ hexadecimalDigits) (lowDigit : (low, l) ∈ hexadecimalDigits)
      (rest : DerivesBytes text bytes) :
      DerivesBytes (high :: low :: text) (UInt8.ofNat (16 * h + l) :: bytes)

end Text

/-! ## Values -/

namespace Value

mutual

/-- The text derives the value. -/
inductive Derives : List Char → Value → Prop where
  | absent : Derives "absent".toList .absent
  | true : Derives "true".toList (.bool Bool.true)
  | false : Derives "false".toList (.bool Bool.false)
  | int {text : List Char} {n : Int64} (number : Text.DerivesInteger text n.toInt) :
      Derives text (.int n)
  | text {text cs : List Char} (quoted : Text.DerivesQuoted text cs) :
      Derives ('"' :: (text ++ ['"'])) (.text (String.ofList cs))
  | data {text : List Char} {bytes : List UInt8} (digits : Text.DerivesBytes text bytes) :
      Derives ('%' :: text) (.data bytes)
  | empty : Derives ['\x7b', '\x7d'] (.list [])
  | list {text : List Char} {vs : List Value} (items : DerivesAll text vs) :
      Derives ('\x7b' :: (text ++ ['\x7d'])) (.list vs)

/-- The text derives the values, one or more, with commas between them. -/
inductive DerivesAll : List Char → List Value → Prop where
  | last {text : List Char} {v : Value} (item : Derives text v) : DerivesAll text [v]
  | more {text text' : List Char} {v : Value} {vs : List Value} (item : Derives text v)
      (rest : DerivesAll text' vs) : DerivesAll (text ++ ',' :: text') (v :: vs)

end

end Value

/-! ## Headers -/

/-- The text derives the tile that its bits make, with one to sixteen digits. -/
def Tile.Derives (text : List Char) (t : Tile) : Prop :=
  ∃ digits, text = "0x".toList ++ digits ∧ digits.length ≤ 16 ∧
    Text.Numeral 16 Text.hexadecimalDigits digits t.bits.toNat

namespace Header

namespace Field

/-- The name of a field. -/
def name : Field → String
  | post _ => "post"
  | zone _ => "zone"
  | base _ => "base"
  | size _ => "size"
  | area _ => "area"
  | span _ => "span"
  | x _ => "x"
  | y _ => "y"
  | fold _ => "fold"

/-- The text derives what a field holds.  Zones have 32 bits, and other counts 63. -/
def DerivesContent (text : List Char) : Field → Prop
  | post n | zone n => Text.DerivesInteger text n ∧ n < 2 ^ 32
  | base n | size n | area n | span n => Text.DerivesInteger text n ∧ n < 2 ^ 63
  | x t | y t => t.Derives text
  | fold v => v.Derives text

/-- The text derives the field: its name, a colon, and what it holds. -/
def Derives (text : List Char) (field : Field) : Prop :=
  ∃ content, text = field.name.toList ++ ':' :: content ∧ field.DerivesContent content

end Field

/-- The text derives the fields, one or more, of a header. -/
def Derives (text : List Char) (fields : List Field) : Prop :=
  fields ≠ [] ∧ ∃ texts, List.Forall₂ Field.Derives texts fields ∧
    text = "@page(".toList ++ (Text.joinWith ',' texts ++ [')'])

/-- The last of what a selection finds among fields. -/
def last? {α : Type} (select : Field → Option α) (fields : List Field) : Option α :=
  (fields.filterMap select).getLast?

/-- The header that fields settle: of each name the last field counts, a field that is missing has
its default, and a post that is not given is the zone. -/
def settled (fields : List Field) : Header :=
  let zone := (last? (fun | .zone n => some n | _ => none) fields).getD 0
  { post := (last? (fun | .post n => some n | _ => none) fields).getD zone
    zone
    base := (last? (fun | .base n => some n | _ => none) fields).getD 0
    size := (last? (fun | .size n => some n | _ => none) fields).getD 0
    area := (last? (fun | .area n => some n | _ => none) fields).getD 0
    span := (last? (fun | .span n => some n | _ => none) fields).getD 0
    x := (last? (fun | .x t => some t | _ => none) fields).getD ⟨0⟩
    y := (last? (fun | .y t => some t | _ => none) fields).getD ⟨0⟩
    fold := (last? (fun | .fold v => some v | _ => none) fields).getD .absent }

end Header
end PageTree
