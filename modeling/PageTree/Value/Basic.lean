/-!
# Values

Keys, stored values and folds are `Value`s.  The value `absent` doubles as "no value": to
update a key to `absent` is to remove it, and an undefined fold is `absent`.
-/

namespace PageTree

/-- A dynamically typed value. -/
inductive Value where
  /-- No value. -/
  | absent
  | bool (b : Bool)
  /-- A signed integer of 64 bits. -/
  | int (n : Int64)
  | text (s : String)
  /-- Opaque bytes. -/
  | data (bytes : List UInt8)
  | list (items : List Value)
  deriving Inhabited, Repr

namespace Value

/-- The name of what a value is. -/
def kindName : Value → String
  | absent => "absent"
  | bool _ => "bool"
  | int _ => "int"
  | text _ => "text"
  | data _ => "data"
  | list _ => "list"

/-- Every value but `absent` is defined. -/
def isDefined : Value → Bool
  | absent => false
  | _ => true

/-- The value, if it is defined. -/
def defined? (v : Value) : Option Value :=
  if v.isDefined then some v else none

/-- The integer of an integer value. -/
def int? : Value → Option Int64
  | int n => some n
  | _ => none

/-- The text of a text value. -/
def text? : Value → Option String
  | text s => some s
  | _ => none

/-- The bytes of a data value. -/
def data? : Value → Option (List UInt8)
  | data bytes => some bytes
  | _ => none

/-- The items of a list value. -/
def list? : Value → Option (List Value)
  | list items => some items
  | _ => none

/-- The value of an optional one; none is `absent`. -/
def ofOption : Option Value → Value
  | none => absent
  | some v => v

end Value
end PageTree
