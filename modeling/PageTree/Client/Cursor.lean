import PageTree.Client.Retry
import PageTree.Cursor.Basic

/-!
# Cursors of clients

A cursor of a client retries a move that has failed, each time on a cursor reopened at the same
position of the current tree.  So it sees one tree until its first retry, and the tree current
at the retry afterwards.
-/

namespace PageTree

/-- A cursor that retries. -/
structure MapCursor (ι : Type) where
  cursor : Cursor ι
  /-- The number of the trunk of its client. -/
  trunk : Nat
  /-- A move has failed, and the cursor has not been reopened since. -/
  isStale : Bool

/-- Moves of a client's cursor.  What a move has changed stays changed when it fails. -/
abbrev MapCursorM (ι : Type) :=
  ExceptT StoreError (StateT (MapCursor ι) (StateT Client (StateM Store)))

namespace MapCursorM

variable {ι : Type}

/-- A step of the client as a part of a move. -/
def ofClient {α : Type} (act : ClientStepM α) : MapCursorM ι α :=
  ExceptT.mk fun cursor => do return (← act.run, cursor)

/-- A move of the cursor itself. -/
def ofCursor {α : Type} (act : CursorM ι α) : MapCursorM ι α :=
  ExceptT.mk fun c client => do
    let (result, cursor) ← c.cursor.run act
    return ((result, { c with cursor }), client)

/-- Reopens the cursor on the current tree if a move has failed. -/
def reopenIfStale : MapCursorM ι Unit := do
  let c ← get
  if c.isStale then
    let trunk ← ofClient ClientM.trunk
    let cursor ← ofClient (ClientM.ofStore (c.cursor.reopened trunk.tree.root))
    set { c with cursor, isStale := false }

/-- Makes a move on a cursor that is not stale. -/
def attempt {α : Type} (move : MapCursorM ι α) : MapCursorM ι α := do
  reopenIfStale
  move

/-- A move whose failure is a value. -/
def attempting {α : Type} (move : MapCursorM ι α) : MapCursorM ι (Except StoreError α) :=
  ExceptT.mk do return .ok (← move.run)

/-- Repeats a move that fails while retries are left. -/
def retryWithin {α : Type} (move : MapCursorM ι α) : (left : Nat) → MapCursorM ι α
  | 0 => attempt move
  | left + 1 => do
    match ← attempting (attempt move) with
    | .ok a => return a
    | .error e =>
      ofClient (ClientM.pass e left)
      modify fun c => { c with isStale := true }
      retryWithin move left

/-- Repeats a move until it succeeds or its error stands. -/
def retrying {α : Type} (move : MapCursorM ι α) : MapCursorM ι α := do
  let s ← ofClient (ClientM.ofStore get)
  retryWithin move s.settings.maxRetries

/-- Moves over the next item in a direction and gives it. -/
def advance (d : Direction) : MapCursorM ι (Option ι) :=
  retrying (ofCursor (CursorM.advance d))

/-- The next item; the cursor does not move. -/
def head : MapCursorM ι (Option ι) := retrying (ofCursor CursorM.head)

/-- There is a next item. -/
def hasNext : MapCursorM ι Bool := retrying (ofCursor CursorM.hasNext)

/-- There is an item before. -/
def hasPrevious : MapCursorM ι Bool := retrying (ofCursor CursorM.hasPrevious)

/-- Moves forward over so many entries and gives the number of entries moved over. -/
def skip (count : Nat) : MapCursorM ι Nat := do
  let start := (← get).cursor.position
  let _ ← retrying do
    let position := (← get).cursor.position
    ofCursor (CursorM.skip (start + count - position))
  return (← get).cursor.position - start

end MapCursorM

namespace MapCursor

variable {ι : Type}

/-- A cursor of a client, before the first entry. -/
def start (client : Client) (policy : Policy ι) : MapCursor ι :=
  ⟨.start client.trunk.tree.root policy, client.number, false⟩

/-- The cursor past the last entry. -/
def toEnd (c : MapCursor ι) : MapCursor ι :=
  { c with cursor := c.cursor.toEnd }

/-- Makes a move on the trunk of its client: its result, and the cursor afterwards. -/
def run {α : Type} (c : MapCursor ι) (move : MapCursorM ι α) :
    StateT Client (StateM Store) (Except StoreError α × MapCursor ι) := do
  let home := (← get).number
  modify fun client => client.turnedTo c.trunk
  let moved ← move.run.run c
  modify fun client => client.turnedTo home
  return moved

/-- Does the work of `collect` for so many items. -/
def collectWithin (d : Direction) :
    (items : Nat) → MapCursor ι → StateT Client (StateM Store) (List ι × Option StoreError)
  | 0, _ => return ([], some StoreM.tooDeep)
  | items + 1, c => do
    match ← c.run (MapCursorM.advance d) with
    | (.ok none, _) => return ([], none)
    | (.ok (some item), c) =>
      let (rest, error) ← collectWithin d items c
      return (item :: rest, error)
    | (.error e, _) => return ([], some e)

/-- Bounds the number of items that a walk gives, also over a tree met on a retry. -/
def itemBound (c : MapCursor ι) : StateT Client (StateM Store) Nat := do
  let s ← (StateT.lift get : StateT Client (StateM Store) Store)
  let roots := ((← get).trunk? c.trunk).toList.map (·.tree.root) ++ c.cursor.root?.toList
  return (roots.map fun r => s.walkBound r c.cursor.position).foldr (· + ·) 0

/-- The items that are left in a direction, and the error that ended the walk, if any. -/
def collect (c : MapCursor ι) (d : Direction) :
    StateT Client (StateM Store) (List ι × Option StoreError) := do
  collectWithin d (← c.itemBound) c

end MapCursor
end PageTree
