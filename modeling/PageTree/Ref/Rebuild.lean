import PageTree.Ref.Load

/-!
# Rebuilding subtrees

Operations that rebuild the pages of a subtree and keep its entries: moving pages out of old
zones, taking pages back from being committed, and folding values.
-/

namespace PageTree
namespace PageRef

variable [PageLoader]

/-! ## Evacuation -/

/-- Does the work of `evacuated` within a depth. -/
def evacuatedWithin (post version : Nat) : Nat → PageRef → StoreM PageRef
  | 0, _ => throw StoreM.tooDeep
  | depth + 1, r =>
    if r.post = 0 || post ≤ r.post then return r
    else r.naming do
      let page ← r.page
      ofPage (← page.mapChildren version (evacuatedWithin post version depth)) r.fold

/-- The subtree with every page rebuilt that depends on a zone older than `post`. -/
def evacuated (r : PageRef) (post version : Nat) : StoreM PageRef := do
  evacuatedWithin post version ((← get).depthBound r) r

/-! ## Taking back commits -/

/-- Does the work of `uncommitted` within a depth. -/
def uncommittedWithin (version : Nat) : Nat → PageRef → StoreM PageRef
  | 0, _ => throw StoreM.tooDeep
  | depth + 1, r => do
    match ← r.hardPage? with
    | none => return r
    | some page =>
      if page.version < version then return r
      else
        let rebuilt ← page.mapChildren page.version (uncommittedWithin version depth)
        if r.isCommitted || anyMoved page.children rebuilt.children then
          ofPage rebuilt r.fold
        else
          return r

/-- The subtree with the pages written at `version` or later taken back from being committed,
so that the next commit writes them again. -/
def uncommitted (r : PageRef) (version : Nat) : StoreM PageRef := do
  uncommittedWithin version ((← get).depthBound r) r

/-! ## Folds -/

/-- How values are folded: a start, how a value joins a fold, and how two folds join. -/
structure Folding where
  identity : Value
  combine : Value → Value → Value
  merge : Value → Value → Value

/-- Does the work of `reduced` within a depth. -/
def reducedWithin (f : Folding) (version : Nat) : Nat → PageRef → StoreM PageRef
  | 0, _ => throw StoreM.tooDeep
  | depth + 1, r => do
    if r.fold.isDefined then return r
    let page ← r.page
    if page.isNode then
      let rebuilt ← page.mapChildren version (reducedWithin f version depth)
      ofPage rebuilt ((rebuilt.children.map fold).foldl f.merge f.identity)
    else
      r.withFold (page.values.foldl f.combine f.identity)

/-- The subtree with the folds of its values known throughout.  Folds that are known are not
computed again. -/
def reduced (r : PageRef) (f : Folding) (version : Nat) : StoreM PageRef := do
  reducedWithin f version ((← get).depthBound r) r

end PageRef
end PageTree
