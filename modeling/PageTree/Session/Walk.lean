import PageTree.Client.Cursor
import PageTree.Session.Basic

/-!
# Walks

A walk is a cursor in use, of a tree or of the client of a session.
-/

namespace PageTree

/-- A cursor in use. -/
inductive Walk (ι : Type) where
  | ofTree (cursor : Cursor ι)
  | ofClient (cursor : MapCursor ι)

/-- Moves of a walk.  What a move has changed stays changed when it fails. -/
abbrev WalkM (ι : Type) := ExceptT StoreError (StateT (Walk ι) (StateM Session))

namespace Walk

variable {ι : Type}

/-- The cursor. -/
def cursor : Walk ι → Cursor ι
  | ofTree cursor => cursor
  | ofClient cursor => cursor.cursor

/-- The number of the trunk, of a client's cursor. -/
def trunk? : Walk ι → Option Nat
  | ofTree _ => none
  | ofClient cursor => some cursor.trunk

/-- The walk past the last entry. -/
def toEnd : Walk ι → Walk ι
  | ofTree cursor => ofTree cursor.toEnd
  | ofClient cursor => ofClient cursor.toEnd

end Walk

namespace WalkM

variable {ι α : Type}

/-- A step of the session as a part of a move. -/
def ofSession (act : SessionM α) : WalkM ι α :=
  ExceptT.mk fun walk => do return (← act.run, walk)

/-- Makes a move of a new walk. -/
def start (walk : Walk ι) (move : WalkM ι α) : SessionM α :=
  ExceptT.mk do return (← move.run.run walk).1

/-- A move of a tree's cursor. -/
def moveTree (cursor : Cursor ι) (move : CursorM ι α) : WalkM ι α :=
  ExceptT.mk fun _ session =>
    let ((result, cursor), store) := (cursor.run move).run session.store
    ((result, .ofTree cursor), { session with store })

/-- A move of the client's cursor. -/
def moveClient (cursor : MapCursor ι) (move : MapCursorM ι α) : WalkM ι α :=
  ExceptT.mk fun walk session =>
    match session.client with
    | none => ((.error (.invalidArgument "there is no client"), walk), session)
    | some client =>
      let (((result, cursor), client), store) := ((cursor.run move).run client).run session.store
      ((result, .ofClient cursor), { session with store, client })

/-- A move of either cursor. -/
def move (ofTree : CursorM ι α) (ofClient : MapCursorM ι α) : WalkM ι α := do
  match ← get with
  | .ofTree cursor => moveTree cursor ofTree
  | .ofClient cursor => moveClient cursor ofClient

/-- Moves over the next item in a direction and gives it. -/
def advance (d : Direction) : WalkM ι (Option ι) :=
  move (CursorM.advance d) (MapCursorM.advance d)

/-- Moves over so many items in a direction; past the end there is none. -/
def advances (d : Direction) (count : Nat) : WalkM ι (List (Option ι)) :=
  (List.replicate count ()).mapM fun _ => advance d

/-- The next item; the cursor does not move. -/
def head : WalkM ι (Option ι) := move CursorM.head MapCursorM.head

/-- There is a next item. -/
def hasNext : WalkM ι Bool := move CursorM.hasNext MapCursorM.hasNext

/-- There is an item before. -/
def hasPrevious : WalkM ι Bool := move CursorM.hasPrevious MapCursorM.hasPrevious

/-- Moves forward over so many entries and gives the number of entries moved over. -/
def skip (count : Nat) : WalkM ι Nat := move (CursorM.skip count) (MapCursorM.skip count)

/-- Moves past the last entry. -/
def toEnd : WalkM ι Unit := modify Walk.toEnd

/-- Reopens the cursor of a tree at the same position of another tree. -/
def reopen (tree : Tree) : WalkM ι Unit := do
  let cursor ← ofSession (SessionM.ofStore ((← get).cursor.reopened tree.root))
  set (Walk.ofTree cursor)

/-- The items that are left in a direction, and the error that ended the walk, if any. -/
def collect (d : Direction) : WalkM ι (List ι × Option StoreError) := do
  match ← get with
  | .ofTree cursor =>
    ofSession (SessionM.ofStore (ExceptT.mk do return .ok (← cursor.collect d)))
  | .ofClient cursor =>
    let act : ClientStepM _ := ExceptT.mk do return .ok (← cursor.collect d)
    ofSession (SessionM.ofClient act)

/-- Runs a step of the session while the cursor is in use. -/
def whileInUse (act : SessionM α) : WalkM ι α := do
  let walk ← get
  ofSession (SessionM.whileInUse walk.cursor.holders walk.trunk? act)

end WalkM

namespace SessionM

variable {ι : Type}

/-- A cursor before the first entry of the current tree. -/
def openCursor (policy : Policy ι) : SessionM (Walk ι) :=
  return .ofTree (.start (← tree).root policy)

/-- A cursor at a position of the current tree. -/
def openCursorAt (policy : Policy ι) (index : Nat) : SessionM (Walk ι) := do
  WalkM.start (← openCursor policy) do
    let _ ← WalkM.skip index
    get

/-- A cursor of the client, before the first entry. -/
def openClientCursor (policy : Policy ι) : SessionM (Walk ι) :=
  return .ofClient (.start (← ofClient get) policy)

/-- The items of the current tree, and the error that ended the walk, if any. -/
def items (policy : Policy ι) : SessionM (List ι × Option StoreError) := do
  WalkM.start (← openCursor policy) (WalkM.collect .forward)

end SessionM
end PageTree
