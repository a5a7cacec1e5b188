import PageTree.Cursor.Policy
import PageTree.Store.Reclaim

/-!
# Cursors

A cursor walks over a tree in both directions.  It stands in a gap between entries and keeps
the pages on the way from the root to where it stands, so it never sees later changes of the
tree.  Its position counts the entries before the gap, those it passed over included.
-/

namespace PageTree

/-- What a frame of a cursor is about. -/
inductive FrameNode where
  /-- The root of the tree, as the only child of nothing. -/
  | root (r : PageRef)
  /-- A page on the way from the root. -/
  | page (copy : PageCopy)

/-- One level of a cursor. -/
structure Frame where
  node : FrameNode
  /-- The gap between the items of the page in which the cursor stands. -/
  index : Nat
  /-- The child that the cursor has entered, if any. -/
  entered : Option Nat
  /-- The depth of the children. -/
  childDepth : Nat

/-- The two ways to walk. -/
inductive Direction where
  | forward
  | backward
  deriving DecidableEq

namespace Direction

/-- Moves a number of places.  Places are 64-bit numbers, so a move back by more places than
there are wraps around. -/
def move (d : Direction) (place steps : Nat) : Nat :=
  match d with
  | forward => place + steps
  | backward => if steps ≤ place then place - steps else place + UInt64.size - steps

end Direction

namespace Frame

/-- The frame above the root. -/
def root (r : PageRef) : Frame := ⟨.root r, 0, none, 0⟩

/-- The frame of a page that is entered from one of its ends. -/
def page (copy : PageCopy) (depth : Nat) (d : Direction) : Frame :=
  ⟨.page copy, if d = .forward then 0 else copy.page.arity, none, depth + 1⟩

/-- The number of items of the page. -/
def size (f : Frame) : Nat :=
  match f.node with
  | .root _ => 1
  | .page copy => copy.page.arity

/-- The index of the item that comes next in a direction, if the frame has one. -/
def ahead? (f : Frame) (d : Direction) : Option Nat :=
  match d with
  | .forward => if f.index < f.size then some f.index else none
  | .backward => if f.index = 0 then none else some (f.index - 1)

/-- The frame past its next item. -/
def past (f : Frame) (d : Direction) : Frame :=
  { f with index := d.move f.index 1 }

/-- The frame past or before the child that has been entered. -/
def left (f : Frame) (d : Direction) : Frame :=
  match f.entered with
  | some child => { f with index := if d = .forward then child + 1 else child, entered := none }
  | none => f

/-- The page of the frame, if it is one. -/
def page? (f : Frame) : Option LivePage :=
  match f.node with
  | .root _ => none
  | .page copy => some copy.page

/-- The page of the frame, if it is a leaf. -/
def leaf? (f : Frame) : Option LivePage :=
  f.page?.filter fun page => !page.isNode

/-- The child at an index. -/
def child? (f : Frame) (index : Nat) : Option PageRef :=
  match f.node with
  | .root r => some r
  | .page copy => copy.page.child? index

end Frame

/-- A place in a tree. -/
structure Cursor (ι : Type) where
  policy : Policy ι
  /-- The levels from the innermost page up to the root. -/
  stack : List Frame
  /-- The number of entries before the cursor. -/
  position : Nat

/-- Moves of a cursor.  What a move has changed stays changed when it fails. -/
abbrev CursorM (ι : Type) := ExceptT StoreError (StateT (Cursor ι) (StateM Store))

namespace Cursor

variable {ι : Type}

/-- The cursor before the first entry. -/
def start (root : PageRef) (policy : Policy ι) : Cursor ι :=
  ⟨policy, [.root root], 0⟩

/-- The root of the tree. -/
def root? (c : Cursor ι) : Option PageRef :=
  match c.stack.getLast?.map Frame.node with
  | some (.root r) => some r
  | _ => none

/-- The cursor past the last entry. -/
def toEnd (c : Cursor ι) : Cursor ι :=
  match c.root? with
  | some r => { c with stack := [{ Frame.root r with index := 1 }], position := r.span }
  | none => { c with stack := [], position := 0 }

/-- The index of the entry that comes next. -/
def nextIndex (c : Cursor ι) : Nat := c.position

/-- The index of the entry that came before. -/
def previousIndex? (c : Cursor ι) : Option Nat :=
  if c.position = 0 then none else some (c.position - 1)

/-- What the cursor holds in memory. -/
def holders (c : Cursor ι) : Holders where
  refs := c.root?.toList
  copies := c.stack.filterMap fun f =>
    match f.node with
    | .root _ => none
    | .page copy => some copy

/-- The cursor with another innermost frame. -/
def setTop (c : Cursor ι) (frame : Frame) : Cursor ι :=
  { c with stack := frame :: c.stack.drop 1 }

/-- The cursor past its next item, which stands for so many entries. -/
def passing (c : Cursor ι) (frame : Frame) (d : Direction) (entries : Nat) : Cursor ι :=
  { c.setTop (frame.past d) with position := d.move c.position entries }

/-- The cursor inside a child of its innermost page. -/
def entering (c : Cursor ι) (frame : Frame) (d : Direction) (index : Nat) (copy : PageCopy) :
    Cursor ι :=
  { c with stack :=
      .page copy frame.childDepth d :: { frame with entered := some index } :: c.stack.drop 1 }

/-- The cursor back in the node above its innermost page; none above the root. -/
def leaving? (c : Cursor ι) (d : Direction) : Option (Cursor ι) :=
  match c.stack with
  | _ :: frame :: outer => some { c with stack := frame.left d :: outer }
  | _ => none

end Cursor

namespace CursorM

variable {ι : Type} [PageLoader]

/-- An operation on the store as a part of a move. -/
def ofStore {α : Type} (act : StoreM α) : CursorM ι α :=
  ExceptT.mk fun cursor => do return (← act.run, cursor)

/-- The progress of a walk: it goes on, or it ends with a result. -/
inductive Progress (α : Type) where
  | goesOn
  | ends (result : α)

/-- Bounds the number of steps of a walk over so many entries. -/
def stepBound (count : Nat) : CursorM ι Nat := do
  let s ← (ofStore get : CursorM ι Store)
  let c ← get
  match c.root? with
  | some r => return s.walkBound r (c.position + count)
  | none => return 0

/-- Repeats a step until the walk ends. -/
def walk {α : Type} (step : CursorM ι (Progress α)) : (steps : Nat) → CursorM ι α
  | 0 => throw StoreM.tooDeep
  | steps + 1 => do
    match ← step with
    | .ends result => return result
    | .goesOn => walk step steps

/-- One step towards the next item in a direction. -/
def stepTowards (d : Direction) : CursorM ι (Progress (Option ι)) := do
  let c ← get
  let some frame := c.stack.head? | return .ends none
  match frame.ahead? d with
  | none =>
    match c.leaving? d with
    | none => return .ends none
    | some c =>
      set c
      return .goesOn
  | some index =>
    match frame.leaf? with
    | some page =>
      set (c.passing frame d 1)
      match c.policy.slot page index with
      | some item => return .ends (some item)
      | none => return .goesOn
    | none =>
      let some child := frame.child? index
        | set (c.setTop (frame.past d))
          return .goesOn
      match ← ofStore (c.policy.visit frame.page? index child frame.childDepth) with
      | .descend =>
        set (c.entering frame d index (← ofStore child.pageCopy))
        return .goesOn
      | .skip =>
        set (c.passing frame d child.span)
        return .goesOn
      | .emit item =>
        set (c.passing frame d child.span)
        return .ends (some item)

/-- Moves over the next item in a direction and gives it. -/
def advance (d : Direction) : CursorM ι (Option ι) := do
  walk (stepTowards d) (← stepBound 1)

/-- Moves over the next item and gives it. -/
def next : CursorM ι (Option ι) := advance .forward

/-- Moves back over the item before and gives it. -/
def previous : CursorM ι (Option ι) := advance .backward

/-- Moves over the next item, and tells whether there was one. -/
def step : CursorM ι Bool :=
  return (← next).isSome

/-- Makes a move and takes the cursor back, whether or not the move fails. -/
def glance {α : Type} (act : CursorM ι α) : CursorM ι α :=
  ExceptT.mk do
    let c ← get
    let result ← act.run
    set c
    return result

/-- The next item; the cursor does not move. -/
def head : CursorM ι (Option ι) := glance next

/-- There is a next item. -/
def hasNext : CursorM ι Bool :=
  return (← head).isSome

/-- There is an item before. -/
def hasPrevious : CursorM ι Bool :=
  return (← glance previous).isSome

/-- One step of a skip to a position. -/
def stepTo (target : Nat) : CursorM ι (Progress Unit) := do
  let c ← get
  if target ≤ c.position then return .ends ()
  let some frame := c.stack.head? | return .ends ()
  match frame.ahead? .forward with
  | none =>
    match c.leaving? .forward with
    | none => return .ends ()
    | some c =>
      set c
      return .goesOn
  | some index =>
    match frame.leaf? with
    | some page =>
      let moved := min (page.arity - index) (target - c.position)
      set { c.setTop { frame with index := index + moved } with position := c.position + moved }
      return .goesOn
    | none =>
      let some child := frame.child? index
        | set (c.setTop (frame.past .forward))
          return .goesOn
      if child.span ≤ target - c.position then
        set (c.passing frame .forward child.span)
        return .goesOn
      else
        set (c.entering frame .forward index (← ofStore child.pageCopy))
        return .goesOn

/-- Moves forward over so many entries, whatever the policy says of them, and enters only the
subtrees that the target lies in.  Gives the number of entries moved over. -/
def skip (count : Nat) : CursorM ι Nat := do
  let before := (← get).position
  walk (stepTo (before + count)) (← stepBound count)
  return (← get).position - before

/-- Takes items until there are no more or a move fails. -/
def collectWithin (take : CursorM ι (Option ι)) :
    (items : Nat) → StateT (Cursor ι) (StateM Store) (List ι × Option StoreError)
  | 0 => return ([], some StoreM.tooDeep)
  | items + 1 => do
    match ← take.run with
    | .ok none => return ([], none)
    | .ok (some item) =>
      let (rest, error) ← collectWithin take items
      return (item :: rest, error)
    | .error e => return ([], some e)

end CursorM

namespace Cursor

variable {ι α : Type} [PageLoader]

/-- Makes a move: its result, and the cursor afterwards. -/
def run (c : Cursor ι) (act : CursorM ι α) : StateM Store (Except StoreError α × Cursor ι) :=
  (act.run).run c

/-- Makes a move of a cursor that is not needed any more if the move fails. -/
def runOrFail (c : Cursor ι) (act : CursorM ι α) : StoreM (α × Cursor ι) := do
  match ← (c.run act : StateM Store _) with
  | (.ok a, c) => return (a, c)
  | (.error e, _) => throw e

/-- A cursor with the same policy at the same position of another tree. -/
def reopened (c : Cursor ι) (root : PageRef) : StoreM (Cursor ι) := do
  let (_, c) ← (start root c.policy).runOrFail (CursorM.skip c.position)
  return c

/-- The items that are left in a direction, and the error that ended the walk, if any. -/
def collect (c : Cursor ι) (d : Direction) : StateM Store (List ι × Option StoreError) := do
  let s ← get
  let bound := (c.root?.map fun r => s.walkBound r c.position).getD 0
  let (result, _) ← (CursorM.collectWithin (CursorM.advance d) bound).run c
  return result

/-- The items that are left in a direction, all of them or none. -/
def items (c : Cursor ι) (d : Direction) : StoreM (List ι) := do
  match ← (c.collect d : StateM Store _) with
  | (items, none) => return items
  | (_, some e) => throw e

end Cursor
end PageTree
