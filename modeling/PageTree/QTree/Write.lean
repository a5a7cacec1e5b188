import PageTree.QTree.Read
import PageTree.QTree.Split

/-!
# Changing a Q-tree

A change rebuilds the pages on the way from the root to one leaf and shares all other pages;
where it changes nothing it gives the reference it was given.
-/

namespace PageTree
namespace QTree

variable [PageLoader]

/-- References to pages. -/
def refsOf (parts : List LivePage) : StoreM (List PageRef) :=
  parts.mapM fun part => PageRef.ofPage part .absent

/-- A new leaf. -/
def newLeaf (version stem : Nat) (slots : List Slot) : StoreM PageRef :=
  PageRef.ofPage ⟨version, stem, .qtreeLeaf slots⟩ .absent

/-- A new node. -/
def newNode (version stem : Nat) (children : List PageRef) : StoreM PageRef :=
  PageRef.ofPage ⟨version, stem, .qtreeNode children⟩ .absent

/-! ## Balancing -/

/-- Puts a rebuilt child back at its index: an empty one is left out, one that is too small
is merged with a sibling, and one that is too large is split. -/
def rebalanceChild (children : List PageRef) (index : Nat) (child : PageRef) (version : Nat) :
    StoreM (List PageRef) := do
  if child.span = 0 then
    return children.eraseIdx index
  let page ← child.page
  let settings := (← get).settings
  if 1 < children.length && settings.shouldMerge child.pageSize then
    let isLast := children.length ≤ index + 1
    let lo := if isLast then index - 1 else index
    let some sibling := children[if isLast then index - 1 else index + 1]? | return children
    let merged := mergePages page (← sibling.page) version
    let parts ← refsOf (split settings version merged)
    return children.take lo ++ parts ++ children.drop (lo + 2)
  else if page.isOversized settings child.pageSize then
    let parts ← refsOf (split settings version page)
    return children.take index ++ parts ++ children.drop (index + 1)
  else
    return children.set index child

/-- Puts levels of nodes above some parts until one page is left.  Each level has fewer pages
than the one below it, so no more levels are needed than there are parts. -/
def growWithin (version stem : Nat) : (levels : Nat) → List PageRef → StoreM (List PageRef)
  | 0, parts => return parts
  | levels + 1, parts => do
    if parts.length ≤ 1 then return parts
    let node : LivePage := ⟨version, stem, .qtreeNode parts⟩
    growWithin version stem levels (← refsOf (split (← get).settings version node))

/-- The root that is left when nodes of a single child give way to it, within a depth. -/
def collapseWithin (version : Nat) : Nat → PageRef → StoreM PageRef
  | 0, _ => throw StoreM.tooDeep
  | depth + 1, r => do
    match (← r.page).body with
    | .qtreeNode [child] => collapseWithin version depth child
    | .qtreeNode [] => PageRef.ofPage (.empty .qtree r.stem version) .absent
    | _ => return r

/-- The root made neither too large nor a node of a single child. -/
def balanced (r : PageRef) (version : Nat) : StoreM PageRef := do
  let page ← r.page
  let settings := (← get).settings
  let r ←
    if page.isOversized settings r.pageSize then do
      let parts ← refsOf (split settings version page)
      let grown ← growWithin version r.stem parts.length parts
      pure (grown.getLast?.getD r)
    else pure r
  collapseWithin version ((← get).depthBound r) r

/-! ## Changing entries -/

/-- The first of the children with the least growth to cover a point; among equal growths the
least span counts. -/
def leastGrowing? (point : Point) : List PageRef → Option (Nat × PageRef)
  | [] => none
  | child :: children =>
    match leastGrowing? point children with
    | none => some (0, child)
    | some (index, best) =>
      let mine := point.growth child.header
      let its := point.growth best.header
      if mine < its || (mine == its && child.span ≤ best.span) then some (0, child)
      else some (index + 1, best)

/-- The index of the child that has the key at the point. -/
def holder? (children : List PageRef) (key : Value) (point : Point) : StoreM (Option Nat) :=
  children.zipIdx.findSomeM? fun (child, index) => do
    if point.isWithin child.header then
      return (← find? child key point).map fun _ => index
    else
      return none

/-- The index of the child to change: the one that has the key at the point; to insert, else
the first one around the point, else the one whose tiles grow least. -/
def targetChild? (children : List PageRef) (key : Value) (point : Point) (isInsert : Bool) :
    StoreM (Option Nat) := do
  match ← holder? children key point with
  | some index => return some index
  | none =>
    if isInsert then
      match children.findIdx? fun child => point.isWithin child.header with
      | some index => return some index
      | none => return (leastGrowing? point children).map Prod.fst
    else
      return none

/-- Does the work of `updated` within a depth. -/
def updatedWithin (key : Value) (point : Point) (value : Value) (version : Nat) :
    Nat → PageRef → StoreM PageRef
  | 0, _ => throw StoreM.tooDeep
  | depth + 1, r => do
    let page ← r.page
    match page.body with
    | .qtreeLeaf slots =>
      match Slots.update? key point value slots with
      | some slots => newLeaf version page.stem slots
      | none => return r
    | .qtreeNode (first :: rest) =>
      let children := first :: rest
      match ← targetChild? children key point value.isDefined with
      | none => return r
      | some index =>
        let child := children.getD index first
        let rebuilt ← updatedWithin key point value version depth child
        if rebuilt.same child then
          return r
        else
          newNode version page.stem (← rebalanceChild children index rebuilt version)
    | _ =>
      if value.isDefined then newLeaf version page.stem [⟨key, point.x, point.y, value⟩]
      else return r

/-- The subtree with a value put at a key and a point, or without the key at the point if the
value is `absent`.  The key must not be stored at another point. -/
def updated (r : PageRef) (key : Value) (point : Point) (value : Value) (version : Nat) :
    StoreM PageRef := do
  updatedWithin key point value version ((← get).depthBound r) r

end QTree
end PageTree
