import PageTree.Client.Retry
import PageTree.Store.Reclaim

/-!
# Sessions

A session works on one store.  It has a current tree, trees that are kept under names, and at
most one client.  Pages that nothing in the session holds are reclaimed by `settle`.
-/

namespace PageTree

/-- The state of a session. -/
structure Session where
  store : Store
  /-- The seed of new trees. -/
  seed : Seed
  current : Option Tree
  /-- Trees by name, the last one kept first. -/
  saved : List (String × Tree)
  client : Option Client
  /-- What the cursors in use hold in memory. -/
  inUse : List Holders
  /-- The numbers of the trunks whose cursors are in use. -/
  trunksInUse : List Nat

/-- Steps of a session.  What they have changed stays changed when they fail. -/
abbrev SessionM := ExceptT StoreError (StateM Session)

namespace Session

/-- A session on an empty store with the empty tree of a seed. -/
def start (store : Store) (seed : Seed) : Session :=
  let (tree, store) := (Tree.empty seed).run.run store
  ⟨store, seed, tree.toOption, [], none, [], []⟩

/-- The trunks that the client, its rival or a cursor may still work on. -/
def trunks (s : Session) : List Trunk :=
  match s.client with
  | none => []
  | some client =>
    (client.number :: client.rival.toList.map Rival.target ++ s.trunksInUse).filterMap
      client.trunk?

/-- The roots of the trees. -/
def roots (s : Session) : List PageRef :=
  s.current.toList.map Tree.root ++ s.saved.map (fun (_, tree) => tree.root) ++
    s.trunks.map fun trunk => trunk.tree.root

/-- What the session holds in memory. -/
def holders (s : Session) : Holders :=
  s.inUse.foldl (· ++ ·) ⟨s.roots, []⟩

/-- The kind of the trees. -/
def kind (s : Session) : TreeKind := s.seed.kind

end Session

namespace SessionM

variable {α : Type}

/-- An operation on the store as a step. -/
def ofStore (act : StoreM α) : SessionM α :=
  ExceptT.mk fun session =>
    let (result, store) := act.run.run session.store
    (result, { session with store })

/-- An operation of the client as a step.  One that goes on for ever has no outcome, so the
session has one of its own. -/
def ofClient (act : ClientM α) : SessionM α :=
  ExceptT.mk fun session =>
    match session.client with
    | none => (.error (.invalidArgument "there is no client"), session)
    | some client =>
      match (act.run.run client).run session.store with
      | some ((result, client), store) => (result, { session with store, client })
      | none => (.error (.fatal "the operation goes on for ever"), session)

/-- A decoding as a step. -/
def ofExcept (result : Except StoreError α) : SessionM α := do
  match result with
  | .ok a => return a
  | .error e => throw e

/-- The current tree. -/
def tree : SessionM Tree := do
  match (← get).current with
  | some tree => return tree
  | none => throw (.invalidArgument "there is no current tree")

/-- Replaces the current tree. -/
def setTree (tree : Tree) : SessionM Unit :=
  modify fun session => { session with current := some tree }

/-! ## Trees with names -/

/-- Keeps the current tree under a name. -/
def save (name : String) : SessionM Unit := do
  let tree ← tree
  modify fun session =>
    { session with saved := (name, tree) :: session.saved.filter (·.1 != name) }

/-- The tree kept under a name. -/
def savedTree (name : String) : SessionM Tree := do
  match (← get).saved.lookup name with
  | some tree => return tree
  | none => throw (.invalidArgument ("there is no tree \"" ++ name ++ "\""))

/-- Makes the tree kept under a name current. -/
def restore (name : String) : SessionM Unit := do
  setTree (← savedTree name)

/-- Gives up the current tree. -/
def forget : SessionM Unit :=
  modify fun session => { session with current := none }

/-! ## The client -/

/-- Moves the current tree into a new client, in place of the one before. -/
def openClient (isObserved : Bool) : SessionM Unit := do
  let tree ← tree
  modify fun session =>
    let client := match session.client with
      | some client => client.successor tree
      | none => .ofTree tree isObserved
    { session with current := none, client := some client }

/-- Makes the tree of the client's trunk current. -/
def takeClientTree : SessionM Unit := do
  setTree (← ofClient ClientM.trunk).tree

/-! ## Memory -/

/-- Runs a step while a cursor is in use, which may be one of a client's trunk. -/
def whileInUse (held : Holders) (trunk : Option Nat) (act : SessionM α) : SessionM α :=
  ExceptT.mk do
    let before ← get
    set { before with
      inUse := held :: before.inUse, trunksInUse := trunk.toList ++ before.trunksInUse }
    let result ← act.run
    modify fun session =>
      { session with inUse := before.inUse, trunksInUse := before.trunksInUse }
    return result

/-- Drops the pages that nothing in the session holds. -/
def settle : SessionM Unit :=
  modify fun session => { session with store := session.store.reclaim session.holders }

end SessionM
end PageTree
