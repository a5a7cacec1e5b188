import PageTree.BTree.Entries
import PageTree.Ref.Load

/-!
# Reading a B-tree

Each read descends from the root to a leaf.  A node keys its children with the least key of
their subtrees, so a key is looked for in the last child whose key is not greater, and in the
first child if there is none.
-/

namespace PageTree
namespace BTree

variable [PageLoader]

/-- The index of the child in whose subtree a key belongs. -/
def childIndex (children : List (Value × PageRef)) (key : Value) : Nat :=
  Entries.upTo children key - 1

/-- The child in whose subtree a key belongs. -/
def childFor? (children : List (Value × PageRef)) (key : Value) : Option PageRef :=
  children[childIndex children key]?.map Prod.snd

/-- The number of entries beneath some children. -/
def spanOf (children : List (Value × PageRef)) : Nat :=
  (children.map fun child => child.2.span).foldr (· + ·) 0

/-- The value of a key, within a depth. -/
def findWithin (key : Value) : Nat → PageRef → StoreM (Option Value)
  | 0, _ => throw StoreM.tooDeep
  | depth + 1, r => do
    match (← r.page).body with
    | .btreeLeaf slots => return Entries.find? slots key
    | .btreeNode children =>
      match childFor? children key with
      | some child => findWithin key depth child
      | none => return none
    | _ => return none

/-- The value of a key. -/
def find? (r : PageRef) (key : Value) : StoreM (Option Value) := do
  findWithin key ((← get).depthBound r) r

/-- The position of a key, within a depth, with so many entries before the page. -/
def indexWithin (key : Value) : Nat → Nat → PageRef → StoreM (Option Nat)
  | 0, _, _ => throw StoreM.tooDeep
  | depth + 1, offset, r => do
    match (← r.page).body with
    | .btreeLeaf slots => return (Entries.indexOf? slots key).map (offset + ·)
    | .btreeNode children =>
      match childFor? children key with
      | some child =>
        indexWithin key depth (offset + spanOf (children.take (childIndex children key))) child
      | none => return none
    | _ => return none

/-- The position of a key among all keys. -/
def indexOf? (r : PageRef) (key : Value) : StoreM (Option Nat) := do
  indexWithin key ((← get).depthBound r) 0 r

/-- The child that holds the entry at an index, and the index within the child. -/
def childAt? : List PageRef → Nat → Option (PageRef × Nat)
  | [], _ => none
  | child :: children, index =>
    if index < child.span then some (child, index) else childAt? children (index - child.span)

/-- The entry at an index, within a depth. -/
def entryWithin : Nat → PageRef → Nat → StoreM (Option Entry)
  | 0, _, _ => throw StoreM.tooDeep
  | depth + 1, r, index => do
    match (← r.page).body with
    | .btreeLeaf slots => return slots[index]?
    | .btreeNode children =>
      match childAt? (children.map Prod.snd) index with
      | some (child, index) => entryWithin depth child index
      | none => return none
    | _ => return none

/-- The entry at an index. -/
def entry? (r : PageRef) (index : Nat) : StoreM (Option Entry) := do
  if r.span ≤ index then
    return none
  else
    entryWithin ((← get).indexedDepthBound r index) r index

/-- The first entry, within a depth. -/
def firstWithin : Nat → PageRef → StoreM (Option Entry)
  | 0, _ => throw StoreM.tooDeep
  | depth + 1, r => do
    match (← r.page).body with
    | .btreeLeaf slots => return slots.head?
    | .btreeNode children =>
      match children.head? with
      | some (_, child) => firstWithin depth child
      | none => return none
    | _ => return none

/-- The first entry. -/
def first? (r : PageRef) : StoreM (Option Entry) := do
  firstWithin ((← get).depthBound r) r

/-- The last entry, within a depth. -/
def lastWithin : Nat → PageRef → StoreM (Option Entry)
  | 0, _ => throw StoreM.tooDeep
  | depth + 1, r => do
    match (← r.page).body with
    | .btreeLeaf slots => return slots.getLast?
    | .btreeNode children =>
      match children.getLast? with
      | some (_, child) => lastWithin depth child
      | none => return none
    | _ => return none

/-- The last entry. -/
def last? (r : PageRef) : StoreM (Option Entry) := do
  lastWithin ((← get).depthBound r) r

/-- The first entry with a greater key, within a depth. -/
def nextWithin (key : Value) : Nat → PageRef → StoreM (Option Entry)
  | 0, _ => throw StoreM.tooDeep
  | depth + 1, r => do
    match (← r.page).body with
    | .btreeLeaf slots => return Entries.next? slots key
    | .btreeNode children =>
      (children.drop (childIndex children key)).findSomeM? fun child =>
        nextWithin key depth child.2
    | _ => return none

/-- The first entry with a greater key. -/
def next? (r : PageRef) (key : Value) : StoreM (Option Entry) := do
  nextWithin key ((← get).depthBound r) r

/-- The last entry with a lesser key, within a depth. -/
def previousWithin (key : Value) : Nat → PageRef → StoreM (Option Entry)
  | 0, _ => throw StoreM.tooDeep
  | depth + 1, r => do
    match (← r.page).body with
    | .btreeLeaf slots => return Entries.previous? slots key
    | .btreeNode children =>
      (children.take (Entries.below children key)).reverse.findSomeM? fun child =>
        previousWithin key depth child.2
    | _ => return none

/-- The last entry with a lesser key. -/
def previous? (r : PageRef) (key : Value) : StoreM (Option Entry) := do
  previousWithin key ((← get).depthBound r) r

end BTree
end PageTree
