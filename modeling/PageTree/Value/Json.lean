import PageTree.Json.Parser
import PageTree.Value.Basic

/-!
# Values as JSON

A value is a JSON object of one member, whose key names the kind and whose item is the
content; `absent` is its name alone.
-/

namespace PageTree
namespace Value

mutual

/-- The JSON text of a value. -/
def renderJson : Value → List Char
  | absent => Json.renderString "Absent"
  | bool b => Json.renderObject [("Bool", (if b then "true" else "false").toList)]
  | int n => Json.renderObject [("Int", Text.signedDecimal n.toInt)]
  | text s => Json.renderObject [("Text", Json.renderString s)]
  | data bytes =>
    Json.renderObject [("Data", Json.renderArray (bytes.map fun b => Text.decimal b.toNat))]
  | list items => Json.renderObject [("List", Json.renderArray (renderJsonAll items))]

def renderJsonAll : List Value → List (List Char)
  | [] => []
  | v :: vs => renderJson v :: renderJsonAll vs

end

/-- The JSON text of a value. -/
def toJson (v : Value) : String :=
  String.ofList v.renderJson

/-- A byte of an array of numbers. -/
def byteOfJson? : Json → Option UInt8
  | .integer n => if 0 ≤ n ∧ n < 256 then some (UInt8.ofNat n.toNat) else none
  | _ => none

mutual

/-- The value that a document stands for.  Data is an array of bytes or a string that stands
for its own bytes. -/
def ofDocument? : Json → Option Value
  | .string s => do
    if (← s.text?) = "Absent" then return absent else none
  | .object [(key, item)] => do
    match ← key.text?, item with
    | "Absent", .null => return absent
    | "Bool", .bool b => return bool b
    | "Int", .integer n => 
      if Int64.minValue.toInt ≤ n ∧ n ≤ Int64.maxValue.toInt then return int (Int64.ofInt n)
      else none
    | "Text", .string s => return text (← s.text?)
    | "Data", .array items => return data (← items.mapM byteOfJson?)
    | "Data", .string s => return data s.bytes
    | "List", .array items => return list (← ofDocuments? items)
    | _, _ => none
  | _ => none

def ofDocuments? : List Json → Option (List Value)
  | [] => some []
  | item :: items => do return (← ofDocument? item) :: (← ofDocuments? items)

end

/-- The deepest nesting of arrays and objects that is accepted. -/
def maxJsonDepth : Nat := 127

/-- The value that a JSON text stands for. -/
def ofJson? (text : String) : Option Value := do
  let document ← Json.parse? text
  if document.depth ≤ maxJsonDepth then ofDocument? document else none

end Value
end PageTree
