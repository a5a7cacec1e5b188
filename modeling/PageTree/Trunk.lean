import PageTree.Store.Write
import PageTree.Tree.Basic

/-!
# Trunks

A trunk holds the current tree of its clients, with the version that new pages are written at
and the oldest zone that pages may stay in.  Clients compute new trees from a snapshot and swap
them in; a swap only succeeds if the trunk has not moved since the snapshot.

A commit writes the pages of a snapshot and installs the committed tree under the next
version.  If the trunk has moved in between, the tree found there is rebased: the pages that it
shares with the snapshot are replaced by the committed ones.
-/

namespace PageTree

/-- A version that no page is newer than. -/
def maxVersion : Nat := UInt64.size - 1

/-- The shared state of the clients of a tree. -/
structure Trunk where
  tree : Tree
  /-- The version that new pages are written at. -/
  version : Nat
  /-- Pages in zones older than this are to be rebuilt. -/
  post : Nat
  deriving DecidableEq, Repr, Inhabited

/-- A diff that has been written but whose tree is not installed yet. -/
structure WrittenDiff where
  commit : Commit
  /-- The tree of the snapshot. -/
  tree : Tree
  /-- The version of the snapshot. -/
  version : Nat
  /-- The tree of the snapshot with the places of its pages. -/
  committed : Tree
  /-- The zone that was written to. -/
  zone : Nat
  deriving DecidableEq, Repr

namespace Trunk

/-- The first trunk of a tree. -/
def ofTree (tree : Tree) : Trunk := ⟨tree, 1, 0⟩

/-- Raises the post; it never goes back. -/
def raisePost (t : Trunk) (post : Nat) : Trunk :=
  { t with post := max t.post post }

/-- The trunk still has the tree and the version of a snapshot. -/
def isAt (t : Trunk) (tree : Tree) (version : Nat) : Bool :=
  t.version == version && t.tree.same tree

/-- Swaps in a new tree if the trunk is still at a snapshot, and says whether it was. -/
def updateTree (t : Trunk) (old new : Tree) (version : Nat) : Bool × Trunk :=
  if t.isAt old version then (true, { t with tree := new }) else (false, t)

/-- Swaps in a committed tree under the next version if the trunk is still at a snapshot, and
says whether it was. -/
def installCommit (t : Trunk) (old committed : Tree) (version : Nat) : Bool × Trunk :=
  if t.isAt old version then (true, { t with tree := committed, version := version + 1 })
  else (false, t)

/-- There is something to write, or the commit is forced, and the tree is to be stored. -/
def hasWork (t : Trunk) (commit : Commit) : Bool :=
  !t.tree.isTransient && (t.tree.pendingSize != 0 || commit.forced)

/-- Writes what is to be written of the current tree; none if there is nothing to do. -/
def writeDiff (t : Trunk) (commit : Commit) : StoreM (Option WrittenDiff) := do
  if t.hasWork commit then
    let commit ← StoreM.willCommit commit
    let (zone, committed) ← StoreM.writeZone commit fun zone base =>
      t.tree.buildDiff zone base t.version
    return some ⟨commit, t.tree, t.version, committed, zone⟩
  else
    return none

/-- The committed pages of a written diff, by the pages that they replace. -/
def pairsOf (diff : WrittenDiff) : StoreM PageRef.CommitPairs :=
  diff.tree.root.pairCommitted diff.committed.root

/-- Installs the tree of a written diff, or the current tree rebased on it. -/
def install (t : Trunk) (diff : WrittenDiff) : StoreM Trunk := do
  match t.installCommit diff.tree diff.committed diff.version with
  | (true, t) => return t
  | (false, t) =>
    let rebased ← t.tree.rebased (← pairsOf diff)
    return (t.installCommit t.tree rebased diff.version).2

/-- Commits the current tree with no one else moving the trunk, and says whether there was
anything to do. -/
def commit (t : Trunk) (commit : Commit) : StoreM (Bool × Trunk) := do
  match ← t.writeDiff commit with
  | none => return (false, t)
  | some diff =>
    let t ← t.install diff
    StoreM.didCommit diff.commit
    return (true, t)

/-- Lets go of the committed pages of the current tree. -/
def soften (t : Trunk) : StoreM Unit :=
  t.tree.soften t.version

end Trunk
end PageTree
