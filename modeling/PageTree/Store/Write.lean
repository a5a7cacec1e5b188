import PageTree.Commit
import PageTree.Store.Basic

/-!
# Writing to a store

What is written is appended to the active zone.  A commit may first move the store on to a new
zone, and it stays there even if then nothing can be written.
-/

namespace PageTree
namespace StoreM

/-- Changes the zones. -/
def modifyZones (f : Zones → Zones) : StoreM Unit :=
  modify fun s => { s with zones := f s.zones }

/-- Moves on to a new zone and gives its number. -/
def shiftZone : StoreM Nat := do
  modifyZones Zones.shift
  return (← get).zones.active

/-- Deletes a zone other than the active one; says whether there was such a zone. -/
def deleteZone (id : Nat) : StoreM Bool := do
  let (found, zones) := (← get).zones.delete id
  modifyZones fun _ => zones
  return found

/-- Closes the store. -/
def close : StoreM Unit :=
  modifyZones Zones.close

/-- Makes so many of the next loads fail. -/
def failNext (count : Nat) : StoreM Unit :=
  modify fun s => { s with faults := { s.faults with upcoming := .replicate count true } }

/-- The request as the store wants it: with a shift if the active zone is full. -/
def willCommit (commit : Commit) : StoreM Commit := do
  let s ← get
  if s.takesPart then
    ofZones Zones.checkOpen
    let size := (s.zones.size? s.zones.active).getD 0
    return if s.settings.maxZoneSize ≤ size then { commit with shifted := true } else commit
  else
    return commit

/-- Tells the store that a commit is done. -/
def didCommit (commit : Commit) : StoreM Unit := do
  modify Store.markCommit
  if (← get).takesPart && commit.closed then
    close

/-- Appends a text to the active zone.  The text is built for the number and the size of the
zone; gives what was built beside it, and the number of the zone. -/
def writeZone {α : Type} (commit : Commit) (build : (zone base : Nat) → StoreM (String × α)) :
    StoreM (Nat × α) := do
  ofZones Zones.checkOpen
  if commit.shifted then
    modifyZones Zones.shift
  let zones := (← get).zones
  let (text, a) ← build zones.active ((zones.size? zones.active).getD 0)
  modifyZones (·.append text)
  return (zones.active, a)

end StoreM
end PageTree
