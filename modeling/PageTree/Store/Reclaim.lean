import PageTree.Store.Basic

/-!
# Reclaiming memory

A page that is held weakly stays in memory only while something else holds it: another
reference that holds it strongly and can itself be reached, or whoever looks at the page
right now.  `Store.reclaim` drops all other pages.
-/

namespace PageTree

/-- What is held from outside of the store. -/
structure Holders where
  /-- The roots of trees. -/
  refs : List PageRef
  /-- Pages that someone looks at. -/
  copies : List PageCopy

namespace Holders

/-- Nothing is held. -/
def none : Holders := ⟨[], []⟩

/-- What either holds. -/
def append (a b : Holders) : Holders :=
  ⟨a.refs ++ b.refs, a.copies ++ b.copies⟩

instance : Append Holders := ⟨append⟩

end Holders

/-- What a walk over memory has reached: identities of references, and copies of pages by
their numbers. -/
structure Reached where
  refs : Array Bool
  copies : Array Bool

namespace Store

/-- Reaches a copy and adds the references of its children to the frontier. -/
def reachCopy (reached : Reached) (frontier : List PageRef) (copy : PageCopy) :
    Reached × List PageRef :=
  ({ reached with copies := reached.copies.setIfInBounds copy.serial true },
    copy.page.children ++ frontier)

/-- Reaches a reference; what it holds strongly is reached too. -/
def reachRef (s : Store) (state : Reached × List PageRef) (r : PageRef) :
    Reached × List PageRef :=
  let (reached, frontier) := state
  if reached.refs.getD r.id true then state
  else
    let reached := { reached with refs := reached.refs.setIfInBounds r.id true }
    match s.hold r with
    | .strong copy => reachCopy reached frontier copy
    | _ => (reached, frontier)

/-- Walks on from a frontier, for so many rounds. -/
def reachFrom (s : Store) : (rounds : Nat) → Reached → List PageRef → Reached
  | 0, reached, _ => reached
  | _, reached, [] => reached
  | rounds + 1, reached, frontier =>
    let (reached, next) := frontier.foldl s.reachRef (reached, [])
    reachFrom s rounds reached next

/-- Everything that can be reached from what is held. -/
def reach (s : Store) (holders : Holders) : Reached :=
  let start : Reached := ⟨.replicate s.cells.size false, .replicate s.nextSerial false⟩
  let (reached, frontier) :=
    holders.copies.foldl (fun (reached, frontier) copy => reachCopy reached frontier copy)
      (start, holders.refs)
  s.reachFrom (s.cells.size + 1) reached frontier

/-- A cell without a weakly held copy that has not been reached. -/
def Reached.prune (reached : Reached) (cell : Cell) : Cell :=
  match cell.hold with
  | .weak (some copy) =>
    if reached.copies.getD copy.serial false then cell else { cell with hold := .weak .none }
  | _ => cell

/-- Drops the pages that only weak references hold. -/
def reclaim (s : Store) (holders : Holders) : Store :=
  let reached := s.reach holders
  { s with cells := s.cells.map (Reached.prune reached) }

end Store
end PageTree
