import PageTree.BTree.Write
import PageTree.Tree.Basic

/-!
# B-trees

The operations of an ordered map on a tree.  Each change gives a new tree, balanced and with
no page left in a zone older than `post`; where nothing changes, the tree is the same.
-/

namespace PageTree
namespace BTree

variable [PageLoader]

/-- The tree with a new root, balanced and evacuated. -/
def rebalanced (t : Tree) (root : PageRef) (version post : Nat) : StoreM Tree := do
  if root.same t.root then
    return t
  else
    let root ← balanced root version
    return t.withRoot (← root.evacuated post version)

/-- Stores a value under a key; `absent` removes the key. -/
def update (t : Tree) (key value : Value) (version post : Nat) : StoreM Tree := do
  rebalanced t (← updated t.root key value version) version post

/-- Removes a key. -/
def remove (t : Tree) (key : Value) (version post : Nat) : StoreM Tree :=
  update t key .absent version post

/-- Removes the first `lower` entries. -/
def drop (t : Tree) (lower version post : Nat) : StoreM Tree := do
  rebalanced t (← dropped t.root lower version) version post

/-- Keeps only the first `upper` entries. -/
def take (t : Tree) (upper version post : Nat) : StoreM Tree := do
  rebalanced t (← taken t.root upper version) version post

/-- A key is present. -/
def contains (t : Tree) (key : Value) : StoreM Bool :=
  return (← find? t.root key).isSome

end BTree
end PageTree
