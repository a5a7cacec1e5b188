import PageTree.Ref.Load

/-!
# Outlines

An outline lists the pages of a subtree that are in memory.
-/

namespace PageTree

/-- A line of an outline: a reference, and its page if that is in memory. -/
structure OutlineLine where
  depth : Nat
  ref : PageRef
  page : Option LivePage

namespace PageRef

/-- Does the work of `outline` within a depth, for a reference at a depth below the root. -/
def outlineWithin : Nat → Nat → PageRef → StoreM (List OutlineLine)
  | 0, _, _ => throw StoreM.tooDeep
  | bound + 1, depth, r => do
    let page ← r.softPage?
    let beneath ← (page.elim [] Page.children).mapM (outlineWithin bound (depth + 1))
    return ⟨depth, r, page⟩ :: beneath.flatten

/-- The references of a subtree, each before those of its children, as far as the pages are in
memory.  Nothing is loaded. -/
def outline (r : PageRef) : StoreM (List OutlineLine) := do
  outlineWithin ((← get).depthBound r) 0 r

end PageRef
end PageTree
