import PageTree.Page.Parser
import PageTree.Session.Basic

/-!
# Changes of the current tree
-/

namespace PageTree
namespace SessionM

variable {α : Type}

/-- Replaces the current tree by one computed from it.  Gives what was computed beside it, and
whether both trees have the same root. -/
def changeWith (act : Tree → StoreM (Tree × α)) : SessionM (Bool × α) := do
  let before ← tree
  let (after, a) ← ofStore (act before)
  setTree after
  return (after.same before, a)

/-- Replaces the current tree by one computed from it, and says whether both have the same
root. -/
def change (act : Tree → StoreM Tree) : SessionM Bool := do
  let (same, ()) ← changeWith fun tree => return (← act tree, ())
  return same

/-- Appends to the active zone; then the rival that waits for a write makes its changes. -/
def writeZone (commit : Commit) (build : (zone base : Nat) → StoreM (String × α)) :
    SessionM (Nat × α) := do
  let written ← ofStore (StoreM.writeZone commit build)
  if (← get).client.isSome then
    ofClient ClientM.releaseRival
  return written

/-- Writes the uncommitted pages of the current tree to the active zone.  Gives the zone, and
whether nothing has moved. -/
def writeDiff (version : Nat) (commit : Commit) : SessionM (Bool × Nat) := do
  let before ← tree
  let (zone, after) ← writeZone commit fun zone base => before.buildDiff zone base version
  setTree after
  return (after.same before, zone)

/-! ## Opening trees -/

/-- Opens the tree of a seed. -/
def openSeed (text : String) : SessionM Unit := do
  setTree (← ofStore (Tree.ofSeed (← get).kind text))

/-- Opens the current tree again from its own seed, whose text it gives. -/
def reopen : SessionM String := do
  let text := (← tree).seedText
  openSeed text
  return text

/-- Makes a tree over a page given by its text, with the fold of a text. -/
def openPage (text fold : String) : SessionM Unit := do
  let page ← ofExcept (Page.parse text)
  let root ← ofStore do
    let page ← page.mapChildren page.version (PageRef.ofHeader page.treeKind page.stem)
    PageRef.ofPage page (← StoreM.parseValue fold)
  setTree (.ofRoot root { (← get).seed with stem := page.stem })

end SessionM
end PageTree
