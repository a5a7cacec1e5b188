import PageTree.BTree.Entries
import PageTree.Ref.Basic
import PageTree.Settings.Basic

/-!
# Splitting pages of a B-tree

A page that is too large is cut into halves until no part is too large.  A node is only cut
if both halves have at least two children, so that a new level above the parts always has
fewer children than parts.
-/

namespace PageTree

/-- A page of so many bytes is too large, and there is something to cut. -/
def Page.isOversized (settings : Settings) (p : LivePage) (size : Nat) : Bool :=
  settings.shouldSplit size && 1 < p.arity

theorem Page.one_lt_arity {settings : Settings} {p : LivePage} {size : Nat}
    (hoversized : p.isOversized settings size = true) : 1 < p.arity := by
  rw [isOversized, Bool.and_eq_true, decide_eq_true_eq] at hoversized
  exact hoversized.2

/-- The least number of children of a node that is cut. -/
def minNodeSplitArity : Nat := 4

namespace BTree

/-- The least key of a page. -/
def firstKey (p : LivePage) : Value :=
  match p.body with
  | .btreeLeaf slots => (slots.head?.map Prod.fst).getD .absent
  | .btreeNode children => (children.head?.map Prod.fst).getD .absent
  | _ => .absent

/-- What the halves of a page hold, if the page may be cut. -/
def halves? : PageBody PageRef → Option (PageBody PageRef × PageBody PageRef)
  | .btreeLeaf slots =>
    let middle := slots.length / 2
    some (.btreeLeaf (slots.take middle), .btreeLeaf (slots.drop middle))
  | .btreeNode children =>
    if minNodeSplitArity ≤ children.length then
      let middle := children.length / 2
      some (.btreeNode (children.take middle), .btreeNode (children.drop middle))
    else none
  | _ => none

/-- Does the work of `split`, with a bound on the number of cuts made one within another. -/
def splitWithin (settings : Settings) (version : Nat) : Nat → LivePage → List LivePage
  | 0, p => [p]
  | cuts + 1, p =>
    if p.isOversized settings p.stored.size then
      match halves? p.body with
      | some (left, right) =>
        splitWithin settings version cuts ⟨version, p.stem, left⟩ ++
          splitWithin settings version cuts ⟨version, p.stem, right⟩
      | none => [p]
    else [p]

/-- The parts of a page, none of them too large if it can be cut.  Every cut leaves fewer
slots or children, so there are no more cuts one within another than the page has of them. -/
def split (settings : Settings) (version : Nat) (p : LivePage) : List LivePage :=
  splitWithin settings version p.arity p

/-- Two sibling pages in one. -/
def mergePages (left right : LivePage) (version : Nat) : LivePage :=
  ⟨version, left.stem, match left.body, right.body with
    | .btreeNode a, .btreeNode b => .btreeNode (a ++ b)
    | .btreeLeaf a, .btreeLeaf b => .btreeLeaf (a ++ b)
    | body, _ => body⟩

end BTree
end PageTree
