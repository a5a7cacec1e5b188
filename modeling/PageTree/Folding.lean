import PageTree.Ref.Rebuild
import PageTree.Value.Printer

/-!
# Foldings by name
-/

namespace PageTree

/-- The foldings that have a name. -/
inductive NamedFolding where
  /-- The sum of the integers. -/
  | sum
  /-- The number of values. -/
  | count
  /-- The texts of the values, each with a comma after it. -/
  | concat
  /-- The greatest value. -/
  | max
  /-- No fold at all. -/
  | absent
  deriving DecidableEq, Repr

namespace NamedFolding

/-- The folding of a name. -/
def ofName? : String → Option NamedFolding
  | "sum" => some sum
  | "count" => some count
  | "concat" => some concat
  | "max" => some max
  | "absent" => some absent
  | _ => none

/-- The integer that a value counts as. -/
def intOf (v : Value) : Int64 := v.int?.getD 0

/-- The text that a value counts as. -/
def textOf (v : Value) : String := v.text?.getD ""

/-- The sum of two values as integers, modulo 64 bits. -/
def addInts (a b : Value) : Value := .int (intOf a + intOf b)

/-- The later of two values in the order of values, the second if they are equal. -/
def greater (a b : Value) : Value :=
  if Value.compare a b = .gt then a else b

/-- How a folding folds, from a start. -/
def folding (f : NamedFolding) (identity : Value) : PageRef.Folding :=
  match f with
  | sum => ⟨identity, addInts, addInts⟩
  | count => ⟨identity, fun a _ => .int (intOf a + 1), addInts⟩
  | concat =>
    ⟨identity, fun a v => .text (textOf a ++ v.toText ++ ","),
      fun a b => .text (textOf a ++ textOf b)⟩
  | max => ⟨identity, greater, greater⟩
  | absent => ⟨identity, fun _ _ => .absent, fun _ _ => .absent⟩

end NamedFolding
end PageTree
