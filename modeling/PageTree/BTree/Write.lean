import PageTree.BTree.Read
import PageTree.BTree.Split

/-!
# Changing a B-tree

Each operation rebuilds the pages on the way from the root to what it changes and shares all
other pages; where it changes nothing it gives the reference it was given.  A rebuilt child
is put back into its node by `rebalanceChild`, which keeps pages neither too large nor too
small, and `balanced` does the same for the root.
-/

namespace PageTree
namespace BTree

variable [PageLoader]

/-- References to the parts of a page, each with its least key. -/
def refsOf (parts : List LivePage) : StoreM (List (Value × PageRef)) :=
  parts.mapM fun part => return (firstKey part, ← PageRef.ofPage part .absent)

/-- A new leaf. -/
def newLeaf (version stem : Nat) (slots : List Entry) : StoreM PageRef :=
  PageRef.ofPage ⟨version, stem, .btreeLeaf slots⟩ .absent

/-- A new node. -/
def newNode (version stem : Nat) (children : List (Value × PageRef)) : StoreM PageRef :=
  PageRef.ofPage ⟨version, stem, .btreeNode children⟩ .absent

/-- The items of a list with those from `lo` to `hi` replaced. -/
def splice {α : Type} (items : List α) (lo hi : Nat) (parts : List α) : List α :=
  items.take lo ++ parts ++ items.drop (hi + 1)

/-! ## Balancing -/

/-- Puts a rebuilt child back at its index: an empty one is left out, one that is too small
is merged with a sibling, and one that is too large is split. -/
def rebalanceChild (children : List (Value × PageRef)) (index : Nat) (child : PageRef)
    (version : Nat) : StoreM (List (Value × PageRef)) := do
  if child.span = 0 then
    return children.eraseIdx index
  let page ← child.page
  let settings := (← get).settings
  if 1 < children.length && settings.shouldMerge child.pageSize then
    let isLast := children.length ≤ index + 1
    let lo := if isLast then index - 1 else index
    let some (_, sibling) := children[if isLast then index - 1 else index + 1]?
      | return children
    let siblingPage ← sibling.page
    let merged :=
      if isLast then mergePages siblingPage page version else mergePages page siblingPage version
    return splice children lo (lo + 1) (← refsOf (split settings version merged))
  else if page.isOversized settings child.pageSize then
    return splice children index index (← refsOf (split settings version page))
  else
    return children.set index (firstKey page, child)

/-- Puts levels of nodes above some parts until one page is left.  Each level has fewer pages
than the one below it, so no more levels are needed than there are parts. -/
def growWithin (version stem : Nat) :
    (levels : Nat) → List (Value × PageRef) → StoreM (List (Value × PageRef))
  | 0, parts => return parts
  | levels + 1, parts => do
    if parts.length ≤ 1 then return parts
    let node : LivePage := ⟨version, stem, .btreeNode parts⟩
    growWithin version stem levels (← refsOf (split (← get).settings version node))

/-- The root that is left when nodes of a single child give way to it, within a depth. -/
def collapseWithin (version : Nat) : Nat → PageRef → StoreM PageRef
  | 0, _ => throw StoreM.tooDeep
  | depth + 1, r => do
    match (← r.page).body with
    | .btreeNode [(_, child)] => collapseWithin version depth child
    | .btreeNode [] => PageRef.ofPage (.empty .btree r.stem version) .absent
    | _ => return r

/-- The root made neither too large nor a node of a single child. -/
def balanced (r : PageRef) (version : Nat) : StoreM PageRef := do
  let page ← r.page
  let settings := (← get).settings
  let r ←
    if page.isOversized settings r.pageSize then do
      let parts ← refsOf (split settings version page)
      let grown ← growWithin version r.stem parts.length parts
      pure ((grown.getLast?.map Prod.snd).getD r)
    else pure r
  collapseWithin version ((← get).depthBound r) r

/-! ## Changing entries -/

/-- Does the work of `updated` within a depth. -/
def updatedWithin (key value : Value) (version : Nat) : Nat → PageRef → StoreM PageRef
  | 0, _ => throw StoreM.tooDeep
  | depth + 1, r => do
    let page ← r.page
    match page.body with
    | .btreeLeaf slots =>
      let isUnchanged :=
        match Entries.find? slots key with
        | some stored => value.isDefined && stored = value
        | none => !value.isDefined
      if isUnchanged then
        return r
      else
        newLeaf version page.stem (Entries.update key value slots)
    | .btreeNode (first :: rest) =>
      let children := first :: rest
      let index := childIndex children key
      let child := (children.getD index first).2
      let rebuilt ← updatedWithin key value version depth child
      if rebuilt.same child then
        return r
      else
        newNode version page.stem (← rebalanceChild children index rebuilt version)
    | _ =>
      if value.isDefined then newLeaf version page.stem [(key, value)] else return r

/-- The subtree with a value put at a key, or without the key if the value is `absent`. -/
def updated (r : PageRef) (key value : Value) (version : Nat) : StoreM PageRef := do
  updatedWithin key value version ((← get).depthBound r) r

/-- The children before the one that holds the entry at an index, the rest, and the index
within the rest. -/
def cut : List (Value × PageRef) → Nat → List (Value × PageRef) × List (Value × PageRef) × Nat
  | [], index => ([], [], index)
  | child :: children, index =>
    if child.2.span ≤ index then
      let (before, rest, index) := cut children (index - child.2.span)
      (child :: before, rest, index)
    else ([], child :: children, index)

/-- Does the work of `dropped` within a depth. -/
def droppedWithin (version : Nat) : Nat → PageRef → (lower : Nat) → StoreM PageRef
  | 0, _, _ => throw StoreM.tooDeep
  | depth + 1, r, lower => do
    if lower = 0 then return r
    if r.span ≤ lower then return ← PageRef.ofPage (.empty .btree r.stem version) .absent
    let page ← r.page
    match page.body with
    | .btreeLeaf slots => newLeaf version page.stem (slots.drop lower)
    | .btreeNode children =>
      let (_, rest, remaining) := cut children lower
      match rest with
      | (_, child) :: _ =>
        if remaining = 0 then
          newNode version page.stem rest
        else
          let rebuilt ← droppedWithin version depth child remaining
          newNode version page.stem (← rebalanceChild rest 0 rebuilt version)
      | [] => newNode version page.stem []
    | _ => return r

/-- The subtree without its first `lower` entries. -/
def dropped (r : PageRef) (lower version : Nat) : StoreM PageRef := do
  droppedWithin version ((← get).indexedDepthBound r lower) r lower

/-- Does the work of `taken` within a depth. -/
def takenWithin (version : Nat) : Nat → PageRef → (upper : Nat) → StoreM PageRef
  | 0, _, _ => throw StoreM.tooDeep
  | depth + 1, r, upper => do
    if r.span ≤ upper then return r
    if upper = 0 then return ← PageRef.ofPage (.empty .btree r.stem version) .absent
    let page ← r.page
    match page.body with
    | .btreeLeaf slots => newLeaf version page.stem (slots.take upper)
    | .btreeNode children =>
      let (kept, rest, remaining) := cut children upper
      match rest with
      | child :: _ =>
        if remaining = 0 then
          newNode version page.stem kept
        else
          let rebuilt ← takenWithin version depth child.2 remaining
          newNode version page.stem
            (← rebalanceChild (kept ++ [child]) kept.length rebuilt version)
      | [] => newNode version page.stem kept
    | _ => return r

/-- The subtree with only its first `upper` entries. -/
def taken (r : PageRef) (upper version : Nat) : StoreM PageRef := do
  takenWithin version ((← get).indexedDepthBound r upper) r upper

end BTree
end PageTree
