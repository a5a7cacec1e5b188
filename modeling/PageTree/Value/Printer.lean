import PageTree.Text.Basic
import PageTree.Text.Digits
import PageTree.Value.Basic

/-!
# The text of a value

The words `absent`, `true` and `false` stand for themselves, an integer is decimal, a text is
quoted, data is a percent sign and two hexadecimal digits a byte, and a list stands between
braces with commas.
-/

namespace PageTree
namespace Value

/-- The two digits of a byte. -/
def byteDigits (b : UInt8) : List Char :=
  Text.hexDigits 2 b.toNat

mutual

/-- The characters of a value's text. -/
def render : Value → List Char
  | absent => "absent".toList
  | bool true => "true".toList
  | bool false => "false".toList
  | int n => Text.signedDecimal n.toInt
  | text s => Text.quote s.toList
  | data bytes => '%' :: bytes.flatMap byteDigits
  | list items => '{' :: (renderAll items ++ ['}'])

/-- The characters of the items of a list. -/
def renderAll : List Value → List Char
  | [] => []
  | [v] => render v
  | v :: w :: vs => render v ++ ',' :: renderAll (w :: vs)

end

/-- The text of a value. -/
def toText (v : Value) : String :=
  String.ofList v.render

/-- The size of a value's text in bytes. -/
def size (v : Value) : Nat :=
  Text.byteLength v.render

instance : ToString Value := ⟨toText⟩

end Value
end PageTree
