import PageTree.Client.Basic

/-!
# Retrying

A client repeats what has failed.  An error that is not fatal is retried a number of times;
with the last retry the client gives up the entries of the tree, if the policy lets it.  An
update that finds its snapshot overtaken is repeated too.  That does not count as a retry, so
there is no bound on the attempts of an update.
-/

namespace PageTree
namespace ClientM

/-- Replaces the tree by the empty one.  Says whether it had not been empty already. -/
def clear : ClientStepM Bool := do
  let snapshot ← trunk
  let cleared ← ofStore (snapshot.tree.cleared snapshot.version)
  if cleared.same snapshot.tree then
    return false
  else
    let (_, moved) := snapshot.updateTree snapshot.tree cleared snapshot.version
    setTrunk moved
    tell .clear
    didChange cleared snapshot.tree
    return true

/-- Gives up the entries of the tree, if the policy lets it. -/
def giveUp : ClientStepM Unit := do
  let s ← (ofStore get : ClientStepM Store)
  if s.settings.failurePolicy.allowsReset (← trunk).tree.isTransient then
    ignoring clear

/-- Lets a failure pass after which so many retries are left, unless it is fatal. -/
def pass (e : StoreError) (left : Nat) : ClientStepM Unit := do
  if e.isFatal then
    throw e
  if left = 0 then
    giveUp

/-- Begins an operation, and gives the number of its retries. -/
def begin : ClientStepM Nat := do
  modify fun client => { client with attempts := 0 }
  let s ← (ofStore get : ClientStepM Store)
  return s.settings.maxRetries

/-- Begins an attempt. -/
def count : ClientStepM Unit :=
  modify fun client => { client with attempts := client.attempts + 1 }

/-- Repeats an attempt that fails while retries are left. -/
def retrying {α : Type} (attempt : ClientStepM α) : (left : Nat) → ClientStepM α
  | 0 => do
    count
    attempt
  | left + 1 => do
    count
    match ← attempting attempt with
    | .ok a => return a
    | .error e =>
      pass e left
      retrying attempt left

/-- Makes an attempt of an update, and gives its result, or the number of retries with which there
is to be another attempt: an attempt that is overtaken gives none and costs no retry. -/
def round {α : Type} (attempt : ClientStepM (Option α)) (left : Nat) : ClientStepM (α ⊕ Nat) := do
  count
  match ← attempting attempt with
  | .ok (some a) => return .inl a
  | .ok none => return .inr left
  | .error e =>
    match left with
    | 0 => throw e
    | left + 1 =>
      pass e left
      return .inr left

end ClientM

/-- Does the work of `ClientM.repeating`. -/
def ClientStepM.repeatFrom {α : Type} (attempt : ClientStepM (Option α)) (left : Nat)
    (client : Client) (store : Store) : Option ((Except StoreError α × Client) × Store) :=
  match ((ClientM.round attempt left).run.run client).run store with
  | ((.ok (.inl a), client), store) => some ((.ok a, client), store)
  | ((.ok (.inr left), client), store) => attempt |>.repeatFrom left client store
  | ((.error e, client), store) => some ((.error e, client), store)
partial_fixpoint

namespace ClientM

/-- Goes from round to round until an attempt gives a result or its error stands. -/
def repeating {α : Type} (attempt : ClientStepM (Option α)) (left : Nat) : ClientM α :=
  ExceptT.mk (attempt.repeatFrom left)

/-- Reads the current tree. -/
def read {α : Type} (op : Tree → ClientStepM α) : ClientStepM α := do
  let retries ← begin
  retrying (do op (← trunk).tree) retries

/-- Swaps in a tree computed from a snapshot and tells of it; none if the trunk has moved.  A
tree with the same root is not swapped in. -/
def swap {α : Type} (snapshot : Trunk) (tree : Tree) (a : α) (notify : α → ClientStepM Unit) :
    ClientStepM (Option α) := do
  if tree.same snapshot.tree then
    return some a
  else
    let (swapped, moved) := (← trunk).updateTree snapshot.tree tree snapshot.version
    setTrunk moved
    if swapped then
      notify a
      didChange tree snapshot.tree
      return some a
    else
      return none

/-- Attempts to replace the current tree by one computed from it, its version and its post. -/
def attemptUpdate {α : Type} (op : Trunk → ClientStepM (Tree × α))
    (notify : α → ClientStepM Unit) : ClientStepM (Option α) := do
  let snapshot ← trunk
  let (tree, a) ← op snapshot
  swap snapshot tree a notify

/-- Replaces the current tree by one computed from it, its version and its post. -/
def update {α : Type} (op : Trunk → ClientStepM (Tree × α)) (notify : α → ClientStepM Unit) :
    ClientM α := do
  let retries ← begin
  repeating (attemptUpdate op notify) retries

/-- Reads the current tree by an operation on the store. -/
def readTree {α : Type} (op : Tree → StoreM α) : ClientStepM α :=
  read fun tree => ofStore (op tree)

/-- No more is told of an update than that the tree has changed. -/
def tellNoMore {α : Type} (_ : α) : ClientStepM Unit := pure ()

/-- Changes the tree by an operation on the store, which gives a value beside the new tree. -/
def updateTree {α : Type} (op : Trunk → StoreM (Tree × α)) (notify : α → ClientStepM Unit) :
    ClientM α :=
  update (fun snapshot => ofStore (op snapshot)) notify

/-- Raises the post and moves the pages of the tree out of older zones. -/
def evacuate (post : Nat) : ClientM Unit := do
  setTrunk ((← trunk).raisePost post)
  updateTree (fun snapshot => do
    return (← snapshot.tree.evacuated snapshot.post snapshot.version, ())) tellNoMore

/-- Folds all values; the folds of pages that have not changed are known. -/
def reduced (f : PageRef.Folding) : ClientM Value :=
  updateTree (fun snapshot => do
    let tree ← snapshot.tree.reduced f snapshot.version
    return (tree, tree.fold)) tellNoMore

end ClientM
end PageTree
