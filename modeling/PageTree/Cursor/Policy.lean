import PageTree.BTree.Split
import PageTree.QTree.Slots
import PageTree.Ref.Load

/-!
# What a cursor yields

A policy decides which subtrees a cursor enters and which items it yields.
-/

namespace PageTree

/-- What a cursor does with a subtree. -/
inductive Visit (ι : Type) where
  /-- The cursor enters the subtree. -/
  | descend
  /-- The cursor passes over the subtree. -/
  | skip
  /-- The cursor yields an item for the whole subtree. -/
  | emit (item : ι)

/-- Decides what a cursor enters and yields. -/
structure Policy (ι : Type) where
  /-- Decides about a child, given its parent, its index and its depth.  The root of a tree
  has no parent and depth 0. -/
  visit : (parent : Option LivePage) → (index : Nat) → (child : PageRef) → (depth : Nat) →
    StoreM (Visit ι)
  /-- The item of a slot of a leaf; none if the slot is passed over. -/
  slot : LivePage → Nat → Option ι

namespace Visit

/-- The same decision with another item. -/
def map {ι κ : Type} (f : ι → κ) : Visit ι → Visit κ
  | descend => descend
  | skip => skip
  | emit item => emit (f item)

end Visit

namespace Policy

variable [PageLoader]

/-- The same policy with other items. -/
def map {ι κ : Type} (f : ι → κ) (policy : Policy ι) : Policy κ where
  visit parent index child depth := return (← policy.visit parent index child depth).map f
  slot page index := (policy.slot page index).map f

/-- Enters every subtree. -/
def enterAll {ι : Type} : Option LivePage → Nat → PageRef → Nat → StoreM (Visit ι) :=
  fun _ _ _ _ => return .descend

/-- The entry in a slot of a leaf of a B-tree. -/
def entrySlot (page : LivePage) (index : Nat) : Option Entry :=
  match page.body with
  | .btreeLeaf slots => slots[index]?
  | _ => none

/-- Every entry of a B-tree, in order. -/
def entries : Policy Entry := ⟨enterAll, entrySlot⟩

/-- The least key beneath a page, given the page or the node above it. -/
def leastKey (parent : Option LivePage) (index : Nat) (child : PageRef) : StoreM Value := do
  match parent with
  | some ⟨_, _, .btreeNode children⟩ => return (children[index]?.map Prod.fst).getD .absent
  | _ => return BTree.firstKey (← child.page)

/-- The entries of a B-tree; but from a depth on, a subtree whose fold is known is summed up
in one entry of its least key and its fold. -/
def depthLimited (maxDepth : Nat) : Policy Entry where
  visit parent index child depth := do
    if depth < maxDepth || !child.fold.isDefined then
      return .descend
    else
      return .emit (← leastKey parent index child, child.fold)
  slot := entrySlot

/-- Restricts a policy to pages written after a version.  A page is loaded only if its version
has never been known. -/
def delta {ι : Type} (since : Nat) (policy : Policy ι) : Policy ι where
  visit parent index child depth := do
    let version ←
      match ← child.knownVersion with
      | some version => pure version
      | none => do
        let page ← child.page
        pure page.version
    if version ≤ since then
      return .skip
    else
      policy.visit parent index child depth
  slot := policy.slot

/-- The slot of a leaf of a Q-tree. -/
def planeSlot (page : LivePage) (index : Nat) : Option Slot :=
  match page.body with
  | .qtreeLeaf slots => slots[index]?
  | _ => none

/-- Every entry of a Q-tree. -/
def tiles : Policy PlaneEntry where
  visit := enterAll
  slot page index := (planeSlot page index).map Slot.entry

/-- Two tiles overlap those of a region. -/
def overlaps (region : Tile × Tile) (x y : Tile) : Bool :=
  region.1.intersects x && region.2.intersects y

/-- The entries of a Q-tree within a region.  Subtrees outside of it are not entered. -/
def region (x y : Tile) : Policy PlaneEntry where
  visit _ _ child _ :=
    if 0 < child.span && overlaps (x, y) child.header.x child.header.y then return .descend
    else return .skip
  slot page index :=
    ((planeSlot page index).filter fun slot => overlaps (x, y) slot.x slot.y).map Slot.entry

end Policy
end PageTree
