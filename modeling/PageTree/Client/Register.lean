import PageTree.Client.Retry

/-!
# Registers

The operations of a client of a U-tree.
-/

namespace PageTree
namespace Register

open ClientM

/-- The value, `absent` if none has been set. -/
def get : ClientStepM Value :=
  readTree UTree.get

/-- Sets the value and gives the one before. -/
def set (value : Value) : ClientM Value :=
  updateTree
    (fun snapshot => do
      let old ← UTree.get snapshot.tree
      return (← UTree.update snapshot.tree value snapshot.version snapshot.post, old))
    tellNoMore

end Register
end PageTree
