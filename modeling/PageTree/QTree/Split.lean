import PageTree.BTree.Split
import PageTree.QTree.Slots

/-!
# Splitting pages of a Q-tree

A page that is too large is cut at the middle of the tiles around it, into up to four
quadrants, until no part is too large.  If all items lie in one quadrant, or if a node would
get a part of a single child, the page is cut into halves instead.
-/

namespace PageTree
namespace QTree

/-- The items before and after the middle. -/
def halves {α : Type} (items : List α) : List (List α) :=
  [items.take (items.length / 2), items.drop (items.length / 2)]

/-- The items in each quadrant around a middle: south-west, south-east, north-west and
north-east.  An item is east or north if its tile starts at the middle or beyond. -/
def quadrants {α : Type} (tiles : α → Tile × Tile) (middle : Nat × Nat) (items : List α) :
    List (List α) :=
  let isEast (item : α) : Bool := middle.1 ≤ (tiles item).1.base
  let isNorth (item : α) : Bool := middle.2 ≤ (tiles item).2.base
  [items.filter fun item => !isEast item && !isNorth item,
   items.filter fun item => isEast item && !isNorth item,
   items.filter fun item => !isEast item && isNorth item,
   items.filter fun item => isEast item && isNorth item]

/-- The quadrants that have items, or the halves if only one has. -/
def partsAround {α : Type} (tiles : α → Tile × Tile) (middle : Nat × Nat) (items : List α) :
    List (List α) :=
  let parts := (quadrants tiles middle items).filter fun part => !part.isEmpty
  if 1 < parts.length then parts else halves items

/-- What the parts of a page hold, if the page may be cut. -/
def parts? (middle : Nat × Nat) : PageBody PageRef → Option (List (PageBody PageRef))
  | .qtreeLeaf slots =>
    some ((partsAround (fun slot : Slot => (slot.x, slot.y)) middle slots).map .qtreeLeaf)
  | .qtreeNode children =>
    if minNodeSplitArity ≤ children.length then
      let parts := partsAround (fun child : PageRef => (child.header.x, child.header.y)) middle
        children
      let parts := if parts.any (·.length < 2) then halves children else parts
      some (parts.map .qtreeNode)
    else none
  | _ => none

/-- The middle of the tiles around a page. -/
def middle (p : LivePage) : Nat × Nat :=
  (p.stored.tiles.1.split, p.stored.tiles.2.split)

/-- Does the work of `split`, with a bound on the number of cuts made one within another. -/
def splitWithin (settings : Settings) (version : Nat) : Nat → LivePage → List LivePage
  | 0, p => [p]
  | cuts + 1, p =>
    if p.isOversized settings p.stored.size then
      match parts? (middle p) p.body with
      | some bodies =>
        bodies.flatMap fun body => splitWithin settings version cuts ⟨version, p.stem, body⟩
      | none => [p]
    else [p]

/-- The parts of a page, none of them too large if it can be cut.  Every cut leaves fewer
slots or children, so there are no more cuts one within another than the page has of them. -/
def split (settings : Settings) (version : Nat) (p : LivePage) : List LivePage :=
  splitWithin settings version p.arity p

/-- Two sibling pages in one. -/
def mergePages (a b : LivePage) (version : Nat) : LivePage :=
  ⟨version, a.stem, match a.body, b.body with
    | .qtreeLeaf s, .qtreeLeaf t => .qtreeLeaf (Slots.sort (s ++ t))
    | .qtreeNode s, .qtreeNode t => .qtreeNode (s ++ t)
    | body, _ => body⟩

end QTree
end PageTree
