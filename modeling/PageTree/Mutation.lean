import PageTree.BTree.Basic
import PageTree.Folding
import PageTree.QTree.Basic
import PageTree.UTree
import PageTree.Value.Parser

/-!
# Changes of trees

A `Mutation` is a change of a tree written down, with its values as texts.  The texts are read
one after another when the change is made.
-/

namespace PageTree

/-- A change of a tree. -/
inductive Mutation where
  /-- Puts a value at a key of a B-tree. -/
  | put (key value : String) (version post : Nat)
  | remove (key : String) (version post : Nat)
  | drop (lower version post : Nat)
  | take (upper version post : Nat)
  /-- Puts values at the keys `start + i * stride` of a B-tree for each `i` below a count. -/
  | fill (start : Int) (count : Nat) (stride factor : Int) (version : Nat)
  /-- Sets the value of a U-tree. -/
  | set (value : String) (version post : Nat)
  /-- Puts a value at a key and a point of a Q-tree. -/
  | putAt (key : String) (x y : Nat) (value : String) (version post : Nat)
  | removeAt (key : String) (x y version post : Nat)
  | move (key : String) (oldX oldY newX newY : Nat) (value : String) (version post : Nat)
  /-- Puts values at the points of a grid in a Q-tree. -/
  | fillGrid (columns rows dx dy version : Nat)
  | clear (version : Nat)
  /-- Gives the pages of a tree the places that they would get in a diff. -/
  | commit (zone base version : Nat)
  | uncommit (version : Nat)
  | evacuate (post version : Nat)
  | load
  | reduce (fold : NamedFolding) (identity : String) (version : Nat)
  | withFold (fold : String)
  | setResident (isResident : Bool)
  | setTransient (isTransient : Bool)
  deriving DecidableEq, Repr

namespace StoreM

/-- The value that a text spells. -/
def parseValue (text : String) : StoreM Value := do
  match Value.parse text with
  | .ok v => return v
  | .error e => throw e

end StoreM

namespace Mutation

/-- An integer as a value. -/
def intValue (n : Int) : Value := .int (Int64.ofInt n)

/-- The keys and values of a fill, in order. -/
def fillEntries (start : Int) (count : Nat) (stride factor : Int) : List (Value × Value) :=
  (List.range count).map fun (i : Nat) =>
    let key := start + (i : Int) * stride
    (intValue key, intValue (key * factor))

/-- The entries of a grid, column by column. -/
def gridEntries (columns rows dx dy : Nat) : List PlaneEntry :=
  (List.range columns).flatMap fun x => (List.range rows).map fun y =>
    ⟨.text ("p" ++ toString x ++ "-" ++ toString y), x * dx, y * dy, intValue (x * rows + y)⟩

/-- Makes a change. -/
def apply (t : Tree) : Mutation → StoreM Tree
  | put key value version post => do
    let key ← StoreM.parseValue key
    BTree.update t key (← StoreM.parseValue value) version post
  | remove key version post => do BTree.remove t (← StoreM.parseValue key) version post
  | drop lower version post => BTree.drop t lower version post
  | take upper version post => BTree.take t upper version post
  | fill start count stride factor version =>
    (fillEntries start count stride factor).foldlM
      (fun t (key, value) => BTree.update t key value version 0) t
  | set value version post => do UTree.update t (← StoreM.parseValue value) version post
  | putAt key x y value version post => do
    let key ← StoreM.parseValue key
    QTree.update t key x y (← StoreM.parseValue value) version post
  | removeAt key x y version post => do
    QTree.remove t (← StoreM.parseValue key) x y version post
  | move key oldX oldY newX newY value version post => do
    let key ← StoreM.parseValue key
    QTree.move t key oldX oldY newX newY (← StoreM.parseValue value) version post
  | fillGrid columns rows dx dy version =>
    (gridEntries columns rows dx dy).foldlM
      (fun t e => QTree.update t e.key e.x e.y e.value version 0) t
  | clear version => t.cleared version
  | commit zone base version => t.committed zone base version
  | uncommit version => t.uncommitted version
  | evacuate post version => t.evacuated post version
  | load => t.loaded
  | reduce fold identity version => do
    t.reduced (fold.folding (← StoreM.parseValue identity)) version
  | withFold fold => do
    return t.withRoot (← t.root.withFold (← StoreM.parseValue fold))
  | setResident isResident => return { t with isResident }
  | setTransient isTransient => return { t with isTransient }

end Mutation
end PageTree
