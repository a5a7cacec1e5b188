import PageTree.QTree.Slots
import PageTree.Ref.Load

/-!
# Reading a Q-tree

A look-up at a point enters the children whose tiles contain the point; tiles of siblings may
overlap.  A look-up by key alone visits one page after another.
-/

namespace PageTree
namespace QTree

variable [PageLoader]

/-- The slot of a key at a point, within a depth. -/
def findWithin (key : Value) (point : Point) : Nat → PageRef → StoreM (Option Slot)
  | 0, _ => throw StoreM.tooDeep
  | depth + 1, r => do
    match (← r.page).body with
    | .qtreeLeaf slots =>
      return (Slots.find? slots key).filter fun slot => Point.ofSlot slot = point
    | .qtreeNode children =>
      (children.filter fun child => point.isWithin child.header).findSomeM?
        (findWithin key point depth)
    | _ => return none

/-- The slot of a key at a point.  A key at another point is not found. -/
def find? (r : PageRef) (key : Value) (point : Point) : StoreM (Option Slot) := do
  findWithin key point ((← get).depthBound r) r

/-- The slot of a key, within a depth. -/
def locateWithin (key : Value) : Nat → PageRef → StoreM (Option Slot)
  | 0, _ => throw StoreM.tooDeep
  | depth + 1, r => do
    match (← r.page).body with
    | .qtreeLeaf slots => return Slots.find? slots key
    | .qtreeNode children => children.findSomeM? (locateWithin key depth)
    | _ => return none

/-- The slot of a key wherever it lies. -/
def locate? (r : PageRef) (key : Value) : StoreM (Option Slot) := do
  locateWithin key ((← get).depthBound r) r

end QTree
end PageTree
