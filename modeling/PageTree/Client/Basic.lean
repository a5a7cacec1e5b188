import PageTree.Mutation
import PageTree.Trunk

/-!
# Clients

A client turns operations on trees into changes of a trunk and tells an observer of them.  What
it has changed stays changed when it fails.  Its steps run in `ClientStepM` and come to an end;
an operation in `ClientM` repeats steps, and may be overtaken again and again for ever.
-/

namespace PageTree

/-- What an observer is told. -/
inductive Event where
  /-- A key of an ordered map has a new value. -/
  | update (key new old : Value)
  | remove (key old : Value)
  | drop (lower : Nat)
  | take (upper : Nat)
  /-- The tree has been cleared. -/
  | clear
  /-- A tree of some span has taken the place of another. -/
  | change (newSpan oldSpan : Nat)
  /-- Someone else has tried to swap in a tree of some span. -/
  | race (swapped : Bool) (span : Nat)
  /-- Someone else has failed to compute a tree. -/
  | raceFailed (code : ErrorCode)
  /-- An update has been made. -/
  | notify
  deriving DecidableEq, Repr

namespace Event

/-- The text of an event. -/
def toText : Event → String
  | update key new old => "update " ++ key.toText ++ " " ++ new.toText ++ " " ++ old.toText
  | remove key old => "remove " ++ key.toText ++ " " ++ old.toText
  | drop lower => "drop " ++ toString lower
  | take upper => "take " ++ toString upper
  | clear => "clear"
  | change newSpan oldSpan => "change " ++ toString newSpan ++ " " ++ toString oldSpan
  | race swapped span => "race " ++ toString swapped ++ " " ++ toString span
  | raceFailed code => "race \"" ++ code.name ++ "\""
  | notify => "notify"

end Event

/-- Someone else who changes a trunk. -/
structure Rival where
  /-- The number of the trunk. -/
  target : Nat
  mutations : List Mutation
  deriving Repr

/-- A client of a trunk.  Trunks are numbered, since a rival or a cursor may still be at work on
the trunk of an earlier client. -/
structure Client where
  trunk : Trunk
  /-- The number of the trunk. -/
  number : Nat
  /-- The trunks of other clients by their numbers. -/
  others : List (Nat × Trunk)
  /-- An observer is told of changes. -/
  isObserved : Bool
  /-- What the observer has been told, last first. -/
  events : List Event
  /-- The one who makes changes while the next diff is written. -/
  rival : Option Rival
  /-- How often the last operation has been attempted. -/
  attempts : Nat

/-- Steps of a client. -/
abbrev ClientStepM := ExceptT StoreError (StateT Client (StateM Store))

/-- Operations of a client; there is no outcome of one that goes on for ever. -/
abbrev ClientM := ExceptT StoreError (StateT Client (StateT Store Option))

instance : MonadLift ClientStepM ClientM where
  monadLift step := ExceptT.mk fun client store => some ((step.run.run client).run store)

namespace Client

/-- The first client of a tree. -/
def ofTree (tree : Tree) (isObserved : Bool) : Client :=
  ⟨.ofTree tree, 0, [], isObserved, [], none, 0⟩

/-- The client of another tree that comes after a client.  It has a trunk of its own and the
same observer; a rival that waits is still after its trunk. -/
def successor (c : Client) (tree : Tree) : Client :=
  { c with trunk := .ofTree tree, number := c.number + 1,
           others := (c.number, c.trunk) :: c.others, attempts := 0 }

/-- The trunk of a number, if there is one. -/
def trunk? (c : Client) (number : Nat) : Option Trunk :=
  if number = c.number then some c.trunk else c.others.lookup number

/-- The client at work on the trunk of a number. -/
def turnedTo (c : Client) (number : Nat) : Client :=
  match c.others.lookup number with
  | some trunk =>
    { c with trunk, number, others := (c.number, c.trunk) :: c.others.filter (·.1 != number) }
  | none => c

end Client

namespace ClientM

/-- An operation on the store as a step of a client. -/
def ofStore {α : Type} (act : StoreM α) : ClientStepM α :=
  ExceptT.mk fun client => do return (← act.run, client)

/-- An operation on the store whose failure is a value. -/
def trying {α : Type} (act : StoreM α) : ClientStepM (Except StoreError α) :=
  ExceptT.mk fun client => do return (.ok (← act.run), client)

/-- A step whose failure is a value. -/
def attempting {α : Type} (act : ClientStepM α) : ClientStepM (Except StoreError α) :=
  ExceptT.mk do return .ok (← act.run)

/-- A step whose failure does not matter. -/
def ignoring {α : Type} (act : ClientStepM α) : ClientStepM Unit := do
  let _ ← attempting act

/-- The trunk. -/
def trunk : ClientStepM Trunk :=
  return (← get).trunk

/-- Replaces the trunk. -/
def setTrunk (trunk : Trunk) : ClientStepM Unit :=
  modify fun client => { client with trunk }

/-- Keeps an event. -/
def record (event : Event) : ClientStepM Unit :=
  modify fun client => { client with events := event :: client.events }

/-- The events kept so far, first first; they are kept no longer. -/
def takeEvents : ClientStepM (List Event) := do
  let events := (← get).events.reverse
  modify fun client => { client with events := [] }
  return events

/-- Tells the observer, if there is one. -/
def tell (event : Event) : ClientStepM Unit := do
  if (← get).isObserved then
    record event

/-- Runs an operation with or without the observer. -/
def withObserver {α : Type} (isObserved : Bool) (act : ClientM α) : ClientM α :=
  ExceptT.mk do
    let before := (← get).isObserved
    modify fun client => { client with isObserved }
    let result ← act.run
    modify fun client => { client with isObserved := before }
    return result

/-- Takes a step on the trunk of a number. -/
def onTrunk {α : Type} (number : Nat) (act : ClientStepM α) : ClientStepM α :=
  ExceptT.mk do
    let home := (← get).number
    modify fun client => client.turnedTo number
    let result ← act.run
    modify fun client => client.turnedTo home
    return result

/-! ## Rivals -/

/-- Makes a change to the trunk as someone else would: computed from a snapshot and swapped in
if the trunk is still there. -/
def interfere (mutation : Mutation) : ClientStepM Unit := do
  let snapshot ← trunk
  match ← trying (mutation.apply snapshot.tree) with
  | .error e => record (.raceFailed e.code)
  | .ok tree =>
    let (swapped, moved) := (← trunk).updateTree snapshot.tree tree snapshot.version
    setTrunk moved
    record (.race swapped tree.span)

/-- Makes a rival at the client's trunk wait for the next diff. -/
def awaitRival (mutations : List Mutation) : ClientStepM Unit :=
  modify fun client => { client with rival := some ⟨client.number, mutations⟩ }

/-- Lets the rival that waits for a diff make its changes, once. -/
def releaseRival : ClientStepM Unit := do
  match (← get).rival with
  | none => return
  | some rival =>
    modify fun client => { client with rival := none }
    onTrunk rival.target (rival.mutations.forM interfere)

/-! ## Commits -/

/-- Writes the diff of a trunk; then the rival moves. -/
def writeDiff (t : Trunk) (request : Commit) : ClientStepM (Option WrittenDiff) := do
  let diff ← ofStore (t.writeDiff request)
  if diff.isSome then
    releaseRival
  return diff

/-- Commits the current tree, and says whether there was anything to do. -/
def commit (request : Commit) : ClientStepM Bool := do
  match ← writeDiff (← trunk) request with
  | none => return false
  | some diff =>
    let current ← trunk
    setTrunk (← ofStore (current.install diff))
    ofStore (StoreM.didCommit diff.commit)
    return true

/-- Commits the current tree at some version on a trunk of its own, which it gives back. -/
def commitApart (version : Nat) (request : Commit) : ClientStepM (Bool × Trunk) := do
  let apart : Trunk := ⟨(← trunk).tree, version, 0⟩
  match ← writeDiff apart request with
  | none => return (false, apart)
  | some diff =>
    let apart ← ofStore (apart.install diff)
    ofStore (StoreM.didCommit diff.commit)
    return (true, apart)

/-- The commit that the store asks for after a change, if any: when much is pending, or when the
last commit was long ago. -/
def automaticCommit? (tree : Tree) : ClientStepM (Option Commit) := do
  let s ← (ofStore get : ClientStepM Store)
  if s.takesPart && !tree.isTransient &&
      (s.settings.autoCommitSize ≤ tree.pendingSize ||
        s.settings.autoCommitInterval.nanos ≤ s.sinceCommit)
  then return some .plain
  else return none

/-- Tells the observer of a change and makes the commit that the store asks for.  If that
fails, the change stands. -/
def didChange (new old : Tree) : ClientStepM Unit := do
  tell (.change new.span old.span)
  match ← automaticCommit? new with
  | some request => ignoring (commit request)
  | none => return

/-- Lets go of the committed pages of the current tree. -/
def soften : ClientStepM Unit := do
  ofStore (← trunk).soften

/-- Lets go of them as often as the settings say while some milliseconds pass, for the first
time at their start.  To do so again changes nothing more; and nothing is let go of in no time,
or without an interval. -/
def softenDuring (millis : Nat) : ClientStepM Unit := do
  let s ← (ofStore get : ClientStepM Store)
  if millis ≠ 0 ∧ s.settings.softenInterval.nanos ≠ 0 then
    soften

end ClientM
end PageTree
