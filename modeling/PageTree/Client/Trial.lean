import PageTree.Client.Retry

/-!
# Trials of a client

Operations whose attempts are overtaken or fail on purpose.
-/

namespace PageTree
namespace ClientM

/-- Makes a change.  While its first attempt is computed, rivals make changes of their own. -/
def contested (rivals : List Mutation) (mutation : Mutation) : ClientM Unit :=
  update
    (fun snapshot => do
      if (← get).attempts = 1 then
        rivals.forM interfere
      return (← ofStore (mutation.apply snapshot.tree), ()))
    fun _ => tell .notify

/-- Reads the number of entries.  The first attempts fail, one with each of the errors. -/
def failing (errors : List StoreError) : ClientStepM Nat :=
  read fun tree => do
    match errors[(← get).attempts - 1]? with
    | some e => throw e
    | none => return tree.span

end ClientM
end PageTree
