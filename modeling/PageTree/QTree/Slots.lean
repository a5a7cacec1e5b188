import PageTree.Bisection
import PageTree.Error
import PageTree.Page.Basic

/-!
# Points and slots

A Q-tree keeps values under keys at points of the plane.  A leaf is a list of slots in the
order of their keys, each key at most once.
-/

namespace PageTree

/-- A point, as two tiles of a single coordinate each. -/
structure Point where
  x : Tile
  y : Tile
  deriving DecidableEq, Repr

namespace Point

/-- The point of two coordinates; coordinates that a tile cannot hold are refused. -/
def ofCoordinates (x y : Nat) : Except StoreError Point :=
  if maxCoordinate < x ∨ maxCoordinate < y then
    .error (.invalidArgument ("point (" ++ toString x ++ ", " ++ toString y ++
      ") exceeds the maximum coordinate " ++ toString maxCoordinate))
  else
    .ok ⟨.point x, .point y⟩

/-- The point where a slot lies. -/
def ofSlot (slot : Slot) : Point :=
  ⟨slot.x, slot.y⟩

/-- The point lies within the tiles of a header. -/
def isWithin (p : Point) (h : Header) : Bool :=
  h.x.contains p.x && h.y.contains p.y

/-- How much the tiles of a header would grow to cover the point. -/
def growth (p : Point) (h : Header) : Nat :=
  ((h.x.union p.x).rank - h.x.rank) + ((h.y.union p.y).rank - h.y.rank)

end Point

/-- An entry of a Q-tree: a key and its value at two coordinates. -/
structure PlaneEntry where
  key : Value
  x : Nat
  y : Nat
  value : Value
  deriving DecidableEq, Repr

/-- The entry that a slot holds. -/
def Slot.entry (slot : Slot) : PlaneEntry :=
  ⟨slot.key, slot.x.base, slot.y.base, slot.value⟩

namespace Slots

/-- The place of a key. -/
def place (slots : List Slot) (key : Value) : Place :=
  Bisection.search (fun slot => Value.compare slot.key key) slots

/-- The slot of a key. -/
def find? (slots : List Slot) (key : Value) : Option Slot := do
  let index ← (place slots key).found?
  slots[index]?

/-- The slots in the order of their keys; slots of one key keep their order. -/
def sort (slots : List Slot) : List Slot :=
  slots.mergeSort fun a b => a.key.atMost b.key

/-- The slots after a value has been put at a key and a point, where `absent` removes the key
from the point; none if nothing changes. -/
def update? (key : Value) (point : Point) (value : Value) (slots : List Slot) :
    Option (List Slot) :=
  let slot : Slot := ⟨key, point.x, point.y, value⟩
  match place slots key with
  | .found index =>
    if value.isDefined then
      if slots[index]? = some slot then none else some (slots.set index slot)
    else
      if slots[index]?.any fun stored => Point.ofSlot stored = point then
        some (slots.eraseIdx index)
      else none
  | .gap index => if value.isDefined then some (slots.insertIdx index slot) else none

end Slots
end PageTree
