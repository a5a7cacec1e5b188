import PageTree.Client.Retry
import PageTree.Cursor.Basic

/-!
# Maps of the plane

The operations of a client of a Q-tree.
-/

namespace PageTree
namespace PlaneMap

open ClientM

def size : ClientStepM Nat :=
  return (← trunk).tree.span

/-- The value of a key at a point. -/
def get? (key : Value) (x y : Nat) : ClientStepM (Option Value) :=
  readTree fun tree => QTree.get? tree key x y

/-- The entry of a key wherever it lies. -/
def locate? (key : Value) : ClientStepM (Option PlaneEntry) :=
  readTree fun tree => QTree.entry? tree key

/-- All entries. -/
def entries : ClientStepM (List PlaneEntry) :=
  readTree fun tree => (Cursor.start tree.root Policy.tiles).items .forward

/-- The entries within two tiles. -/
def region (x y : Tile) : ClientStepM (List PlaneEntry) :=
  readTree fun tree => (Cursor.start tree.root (Policy.region x y)).items .forward

/-- The value of a key, at a point if it is there, else wherever it lies. -/
def valueNear? [PageLoader] (tree : Tree) (key : Value) (x y : Nat) : StoreM (Option Value) := do
  match ← QTree.get? tree key x y with
  | some old => return some old
  | none => return (← QTree.entry? tree key).map PlaneEntry.value

/-- Stores a value under a key at a point and gives the key's value before. -/
def put (key : Value) (x y : Nat) (value : Value) : ClientM (Option Value) :=
  updateTree
    (fun snapshot => do
      let old ← valueNear? snapshot.tree key x y
      return (← QTree.update snapshot.tree key x y value snapshot.version snapshot.post, old))
    tellNoMore

/-- Removes a key from a point and gives its value. -/
def remove (key : Value) (x y : Nat) : ClientM (Option Value) :=
  updateTree
    (fun snapshot => do
      let old ← QTree.get? snapshot.tree key x y
      return (← QTree.remove snapshot.tree key x y snapshot.version snapshot.post, old))
    tellNoMore

/-- Moves a key from one point to another and stores a value there. -/
def move (key : Value) (oldX oldY newX newY : Nat) (value : Value) : ClientM Unit :=
  updateTree
    (fun snapshot => do
      let tree ← QTree.move snapshot.tree key oldX oldY newX newY value snapshot.version
        snapshot.post
      return (tree, ()))
    tellNoMore

end PlaneMap
end PageTree
