import PageTree.Tree.Basic

/-!
# U-trees

A tree of a single leaf that holds one value.
-/

namespace PageTree
namespace UTree

variable [PageLoader]

/-- The value, `absent` if none has been set. -/
def get (t : Tree) : StoreM Value := do
  match (← t.root.page).body with
  | .utreeLeaf value => return value
  | _ => return .absent

/-- Sets the value. -/
def update (t : Tree) (value : Value) (version post : Nat) : StoreM Tree := do
  if (← get t) = value then
    return t
  else
    let root ← PageRef.ofPage ⟨version, t.seed.stem, .utreeLeaf value⟩ .absent
    return t.withRoot (← root.evacuated post version)

end UTree
end PageTree
