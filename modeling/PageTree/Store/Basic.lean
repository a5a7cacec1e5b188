import PageTree.Ref.Basic
import PageTree.Settings.Basic
import PageTree.Store.Zones
import PageTree.Text.Digits
import PageTree.Timestamp

/-!
# The state of a store

A `Store` is everything that operations on trees can change: the zones, the memory that holds
pages under the identities of their references, and the counters of the cache.  Operations
run in `StoreM`; what they have changed stays changed when they fail.
-/

namespace PageTree

/-- A page in memory.  Copies of one page made by separate loads have different numbers. -/
structure PageCopy where
  serial : Nat
  page : LivePage
  deriving Inhabited

/-- What memory holds of the page of a reference. -/
inductive Hold where
  /-- The page is not in memory. -/
  | unloaded
  /-- The page stays in memory as long as the reference does. -/
  | strong (copy : PageCopy)
  /-- The page stays in memory as long as something else holds it. -/
  | weak (copy : Option PageCopy)
  deriving Inhabited

namespace Hold

/-- The printed name of a hold. -/
def name : Hold → String
  | unloaded => "Unloaded"
  | strong _ => "Strong"
  | weak _ => "Weak"

/-- The copy, if it is held strongly. -/
def strong? : Hold → Option PageCopy
  | strong copy => some copy
  | _ => none

/-- The copy, if it is in memory. -/
def copy? : Hold → Option PageCopy
  | unloaded => none
  | strong copy => some copy
  | weak copy => copy

end Hold

/-- What memory knows under the identity of a reference. -/
structure Cell where
  hold : Hold
  /-- The version of the page, once it has been in memory. -/
  version : Option Nat
  deriving Inhabited

/-- Counters of the cache. -/
structure CacheStats where
  /-- Pages found in memory. -/
  hits : Nat
  /-- Pages loaded from a zone. -/
  loads : Nat
  /-- Loads that failed. -/
  loadFailures : Nat
  deriving DecidableEq, Repr

namespace CacheStats

/-- The share of pages that were found in memory. -/
def hitRatio (s : CacheStats) : String :=
  Text.ratio s.hits (s.hits + s.loads)

/-- The counters described. -/
def describe (s : CacheStats) : String :=
  "CacheStats \x7b hits: " ++ toString s.hits ++ ", loads: " ++ toString s.loads ++
    ", load_failures: " ++ toString s.loadFailures ++ " \x7d"

end CacheStats

/-- Load failures made on purpose. -/
structure Faults where
  /-- Whether the next loads fail, one after another; none after them does. -/
  upcoming : List Bool
  /-- So many loads have failed. -/
  injected : Nat
  deriving DecidableEq, Repr

namespace Faults

/-- So many loads are still to fail. -/
def pending (faults : Faults) : Nat :=
  faults.upcoming.count true

/-- The next load fails. -/
def strikes (faults : Faults) : Bool :=
  faults.upcoming.headD false

/-- The faults after the next load. -/
def passed (faults : Faults) : Faults :=
  ⟨faults.upcoming.tail, faults.injected + if faults.strikes then 1 else 0⟩

end Faults

/-- The state of a store. -/
structure Store where
  settings : Settings
  /-- The store asks for automatic commits, moves on from full zones and closes with the last
  commit. -/
  takesPart : Bool
  zones : Zones
  stats : CacheStats
  faults : Faults
  /-- What memory holds, by the identity of references. -/
  cells : Array Cell
  /-- The number of the next copy of a page. -/
  nextSerial : Nat
  /-- The date and time. -/
  now : Timestamp
  /-- So many nanoseconds the store has been in use. -/
  uptime : Nat
  /-- So many of them had passed at the last commit. -/
  lastCommit : Nat

namespace Store

/-- A new store. -/
def create (settings : Settings) (takesPart : Bool) (now : Timestamp) : Store where
  settings := settings
  takesPart := takesPart
  zones := .start
  stats := ⟨0, 0, 0⟩
  faults := ⟨[], 0⟩
  cells := #[]
  nextSerial := 0
  now := now
  uptime := 0
  lastCommit := 0

/-- The time of a commit is kept. -/
def markCommit (s : Store) : Store :=
  { s with lastCommit := s.uptime }

/-- So many nanoseconds have passed since the last commit, or since the store is in use. -/
def sinceCommit (s : Store) : Nat :=
  s.uptime - s.lastCommit

/-- What memory knows under an identity. -/
def cell (s : Store) (id : Nat) : Cell :=
  s.cells.getD id ⟨.unloaded, none⟩

/-- What memory holds of the page of a reference. -/
def hold (s : Store) (r : PageRef) : Hold :=
  (s.cell r.id).hold

/-- The zones and the counters described. -/
def describe (s : Store) : String :=
  "MemoryZones \x7b active: " ++ toString s.zones.active ++ ", zones: " ++ s.zones.describeIds ++
    ", stats: " ++ s.stats.describe ++ " \x7d"

/-- Bounds the depth of a tree: a path visits pages in memory and pages in zones, each of them
once. -/
def depthBound (s : Store) (r : PageRef) : Nat :=
  r.treeSize + s.cells.size + s.zones.totalSize + 1

/-- Bounds the depth of a path to an index.  The text of a page may refer to the page itself;
but each time such a path comes back to a page, it has left entries behind. -/
def indexedDepthBound (s : Store) (r : PageRef) (index : Nat) : Nat :=
  (index + 1) * s.depthBound r

/-- Bounds the number of steps, and of items, of a walk over a tree that goes on from a
position. -/
def walkBound (s : Store) (r : PageRef) (position : Nat) : Nat :=
  let bound := s.depthBound r + r.span + position
  bound * bound * bound

end Store

/-- Operations on a store. -/
abbrev StoreM := ExceptT StoreError (StateM Store)

namespace StoreM

/-- The error of a walk that does not end. -/
def tooDeep : StoreError := .fatal "pages are nested without end"

/-- An operation on the zones that may fail. -/
def ofZones {α : Type} (f : Zones → Except StoreError α) : StoreM α := do
  match f (← get).zones with
  | .ok a => return a
  | .error e => throw e

end StoreM
end PageTree
