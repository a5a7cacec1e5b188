import PageTree.QTree.Write
import PageTree.Tree.Basic

/-!
# Q-trees

The operations of a map of points on a tree.  A key lies at one point at most.  Each change
gives a new tree, balanced and with no page left in a zone older than `post`; where nothing
changes, the tree is the same.
-/

namespace PageTree
namespace QTree

variable [PageLoader]

/-- The point of two coordinates. -/
def pointAt (x y : Nat) : StoreM Point := do
  match Point.ofCoordinates x y with
  | .ok point => return point
  | .error e => throw e

/-- The value of a key at a point.  A key at another point is not found. -/
def get? (t : Tree) (key : Value) (x y : Nat) : StoreM (Option Value) := do
  let point ← pointAt x y
  return (← find? t.root key point).map Slot.value

/-- The entry of a key wherever it lies. -/
def entry? (t : Tree) (key : Value) : StoreM (Option PlaneEntry) :=
  return (← locate? t.root key).map Slot.entry

/-- The tree with a new root, balanced and evacuated. -/
def rebalanced (t : Tree) (root : PageRef) (version post : Nat) : StoreM Tree := do
  if root.same t.root then
    return t
  else
    let root ← balanced root version
    return t.withRoot (← root.evacuated post version)

/-- Takes a key from one point to another and stores a value there. -/
def relocate (t : Tree) (key : Value) (old new : Point) (value : Value) (version post : Nat) :
    StoreM Tree := do
  let removed ← updated t.root key old .absent version
  let removed ← if removed.same t.root then pure removed else balanced removed version
  rebalanced t (← updated removed key new value version) version post

/-- Stores a value under a key at a point.  A key stored at another point is taken from there;
`absent` removes the key from the point. -/
def update (t : Tree) (key : Value) (x y : Nat) (value : Value) (version post : Nat) :
    StoreM Tree := do
  let point ← pointAt x y
  let elsewhere ←
    if value.isDefined then do
      match ← find? t.root key point with
      | some _ => pure none
      | none => locate? t.root key
    else pure none
  match elsewhere with
  | some slot => relocate t key (.ofSlot slot) point value version post
  | none => rebalanced t (← updated t.root key point value version) version post

/-- Removes a key from a point. -/
def remove (t : Tree) (key : Value) (x y version post : Nat) : StoreM Tree := do
  let point ← pointAt x y
  rebalanced t (← updated t.root key point .absent version) version post

/-- Moves a key from one point to another and stores a value there. -/
def move (t : Tree) (key : Value) (oldX oldY newX newY : Nat) (value : Value)
    (version post : Nat) : StoreM Tree := do
  let old ← pointAt oldX oldY
  let new ← pointAt newX newY
  let isThere ←
    if old = new then pure false
    else do
      let slot ← find? t.root key old
      pure slot.isSome
  if isThere then
    relocate t key old new value version post
  else
    update t key newX newY value version post

end QTree
end PageTree
