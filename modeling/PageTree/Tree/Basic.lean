import PageTree.Ref.Diff
import PageTree.Ref.Rebuild
import PageTree.Tree.Seed

/-!
# Trees

A tree is a value: a root, a seed and two flags.  Operations that change a tree give a new
one, which has the same root if nothing has changed; so two trees are compared by their
roots.
-/

namespace PageTree

/-- A tree of any kind. -/
structure Tree where
  root : PageRef
  seed : Seed
  /-- All pages stay in memory. -/
  isResident : Bool
  /-- The tree is never stored. -/
  isTransient : Bool
  deriving DecidableEq, Repr, Inhabited

namespace Tree

variable [PageLoader]

/-- A tree that is neither resident nor transient. -/
def ofRoot (root : PageRef) (seed : Seed) : Tree :=
  ⟨root, seed, false, false⟩

def kind (t : Tree) : TreeKind := t.seed.kind

/-- The number of entries. -/
def span (t : Tree) : Nat := t.root.span

/-- The size of all pages. -/
def size (t : Tree) : Nat := t.root.treeSize

/-- The size of all uncommitted pages. -/
def pendingSize (t : Tree) : Nat := t.root.diffSize

/-- The fold of all values, `absent` if it is not known. -/
def fold (t : Tree) : Value := t.root.fold

/-- Two trees have the same root. -/
def same (a b : Tree) : Bool := a.root.same b.root

/-- The text of the seed, from which the tree can be opened again once it is committed. -/
def seedText (t : Tree) : String := t.seed.toText t.root

/-- The tree with another root. -/
def withRoot (t : Tree) (root : PageRef) : Tree :=
  if root.same t.root then t else { t with root }

/-- The empty tree of a kind. -/
def empty (seed : Seed) : StoreM Tree := do
  return ofRoot (← PageRef.ofPage (.empty seed.kind seed.stem 0) .absent) seed

/-- Opens a tree from the text of its seed, with nothing in memory. -/
def ofSeed (kind : TreeKind) (text : String) : StoreM Tree := do
  match Seed.parse text with
  | .error e => throw e
  | .ok (seed, header) =>
    let root ← PageRef.ofHeader seed.kind seed.stem header
    if seed.kind ≠ kind then
      throw (.malformedSeed ("expected a " ++ kind.name ++ " seed") text)
    return ofRoot root seed

/-- The size of the uncommitted pages if the root was written at a version, else 0. -/
def diffSize (t : Tree) (version : Nat) : StoreM Nat := do
  match ← t.root.softPage? with
  | some page => return if page.version = version then t.root.diffSize else 0
  | none => return 0

/-- The tree without its entries.  A tree known to be empty stays as it is. -/
def cleared (t : Tree) (version : Nat) : StoreM Tree := do
  let page ← t.root.softPage?
  if t.span = 0 && page.any fun page => !page.isNode then
    return t
  else
    return t.withRoot (← PageRef.ofPage (.empty t.kind t.seed.stem version) .absent)

/-- The tree with a root that has been committed. -/
def withCommittedRoot (t : Tree) (root : PageRef) : StoreM Tree := do
  if root.same t.root then
    return t
  else
    return { t with root, seed := t.seed.touched (← get).now }

/-- Writes the uncommitted pages, to start at an offset of a zone: the diff and the tree with
the places of its pages. -/
def buildDiff (t : Tree) (zone base version : Nat) : StoreM (String × Tree) := do
  let (root, diff) ← t.root.commitInto (.start zone base version : Diff)
  return (diff.toText, ← t.withCommittedRoot root)

/-- The tree with the places that its pages would have if the diff were written. -/
def committed (t : Tree) (zone base version : Nat) : StoreM Tree := do
  t.withCommittedRoot (← t.root.committed zone base version)

/-- The tree with the pages written at a version or later taken back from being committed. -/
def uncommitted (t : Tree) (version : Nat) : StoreM Tree :=
  return t.withRoot (← t.root.uncommitted version)

/-- The tree with the pages rebuilt that depend on a zone older than `post`. -/
def evacuated (t : Tree) (post version : Nat) : StoreM Tree :=
  return t.withRoot (← t.root.evacuated post version)

/-- The tree with the folds of its values known. -/
def reduced (t : Tree) (f : PageRef.Folding) (version : Nat) : StoreM Tree :=
  return t.withRoot (← t.root.reduced f version)

/-- The tree with some pages replaced by their committed counterparts. -/
def rebased (t : Tree) (pairs : PageRef.CommitPairs) : StoreM Tree :=
  return t.withRoot (← t.root.rebased pairs)

/-- The tree with all pages in memory, to stay there. -/
def loaded (t : Tree) : StoreM Tree := do
  t.root.loadTree
  return { t with isResident := true }

/-- Lets go of committed pages up to a version, unless the tree is resident. -/
def soften (t : Tree) (version : Nat) : StoreM Unit := do
  if !t.isResident then
    t.root.soften version

end Tree
end PageTree
