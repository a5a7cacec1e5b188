import PageTree.Bisection
import PageTree.Value.Order

/-!
# Sorted entries

A leaf of a B-tree is a list of entries in the order of their keys, each key at most once,
which is searched by bisection.  The operations are those of a finite map.
-/

namespace PageTree

/-- A key and its value. -/
abbrev Entry := Value × Value

namespace Entries

/-- The keys strictly increase. -/
def Sorted (entries : List Entry) : Prop :=
  entries.Pairwise fun a b => Value.compare a.1 b.1 = .lt

/-- The place of a key. -/
def place (entries : List Entry) (key : Value) : Place :=
  Bisection.search (fun entry => Value.compare entry.1 key) entries

/-- The number of keyed items in front whose keys are less than a key. -/
def below {γ : Type} (items : List (Value × γ)) (key : Value) : Nat :=
  Bisection.boundary (fun item => Value.compare item.1 key == .lt) items

/-- The number of keyed items in front whose keys are not greater than a key. -/
def upTo {γ : Type} (items : List (Value × γ)) (key : Value) : Nat :=
  Bisection.boundary (fun item => Value.compare item.1 key != .gt) items

/-- The position of a key. -/
def indexOf? (entries : List Entry) (key : Value) : Option Nat :=
  (place entries key).found?

/-- The value of a key. -/
def find? (entries : List Entry) (key : Value) : Option Value := do
  let index ← indexOf? entries key
  return (← entries[index]?).2

/-- The first entry with a greater key. -/
def next? (entries : List Entry) (key : Value) : Option Entry :=
  entries[upTo entries key]?

/-- The last entry with a lesser key. -/
def previous? (entries : List Entry) (key : Value) : Option Entry :=
  (entries.take (below entries key)).getLast?

/-- The entries with a value at a key, where `absent` stands for none. -/
def update (key value : Value) (entries : List Entry) : List Entry :=
  match place entries key with
  | .found index =>
    if value.isDefined then entries.modify index fun entry => (entry.1, value)
    else entries.eraseIdx index
  | .gap index =>
    if value.isDefined then entries.insertIdx index (key, value) else entries

end Entries
end PageTree
