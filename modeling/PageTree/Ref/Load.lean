import PageTree.Page.Parser
import PageTree.Store.Basic

/-!
# Finding the page of a reference

The page of a reference is found in memory or loaded, from its zone unless another `PageLoader`
is given.  References are made here too: of a header, with nothing in memory, or of a page, which
memory then holds.
-/

namespace PageTree

/-- Where the pages of references are loaded from. -/
class PageLoader where
  /-- Begins to load, the pages of a resident tree or others. -/
  start : (isResident : Bool) → StoreM Unit
  /-- Loads the page of a reference.  Memory does not keep it. -/
  read : PageRef → StoreM LivePage

namespace PageRef

/-! ## Making references -/

/-- A new reference with what memory holds of its page. -/
def create (tree : TreeKind) (stem : Nat) (header : Header) (diffSize : Nat) (hold : Hold)
    (version : Option Nat) : StoreM PageRef :=
  modifyGet fun s =>
    (⟨s.cells.size, tree, stem, header, diffSize⟩,
      { s with cells := s.cells.push ⟨hold, version⟩ })

/-- The size of what a page has to write: nothing of a committed page, and of any other the
page and what its children have to write. -/
def pendingSize (header : Header) (children : List PageRef) : Nat :=
  if header.isCommitted then 0 else header.size + 1 + (children.map diffSize).foldr (· + ·) 0

/-- A reference whose page is not in memory. -/
def ofHeader (tree : TreeKind) (stem : Nat) (header : Header) : StoreM PageRef :=
  create tree stem header (pendingSize header []) .unloaded none

/-- A copy of a page in memory. -/
def copyOf (page : LivePage) : StoreM PageCopy :=
  modifyGet fun s => (⟨s.nextSerial, page⟩, { s with nextSerial := s.nextSerial + 1 })

/-- A reference to a page in memory that has the header. -/
def holding (tree : TreeKind) (stem : Nat) (header : Header) (copy : PageCopy) :
    StoreM PageRef :=
  create tree stem header (pendingSize header copy.page.children) (.strong copy)
    (some copy.page.version)

/-- A reference to a new page, which is not committed. -/
def ofPage (page : LivePage) (fold : Value) : StoreM PageRef := do
  holding page.treeKind page.stem (.ofPage page.stored fold) (← copyOf page)

/-- A reference to the same page with another fold.  The text of a page does not hold the
page's own fold, so what was committed stays committed. -/
def withFold (r : PageRef) (fold : Value) : StoreM PageRef := do
  let cell := (← get).cell r.id
  create r.tree r.stem { r.header with fold } r.diffSize cell.hold cell.version

/-- Some child has become another reference. -/
def anyMoved (before after : List PageRef) : Bool :=
  (before.zip after).any fun (a, b) => !a.same b

/-! ## Looking into memory -/

/-- What memory holds of the page. -/
def hold (r : PageRef) : StoreM Hold :=
  return (← get).hold r

/-- The page, if memory holds it strongly. -/
def hardPage? (r : PageRef) : StoreM (Option LivePage) :=
  return (← r.hold).strong?.map PageCopy.page

/-- The page, if it is in memory. -/
def softPage? (r : PageRef) : StoreM (Option LivePage) :=
  return (← r.hold).copy?.map PageCopy.page

/-- The version of the page, if it is or once was in memory. -/
def knownVersion (r : PageRef) : StoreM (Option Nat) :=
  return ((← get).cell r.id).version

/-- The reference described for an error message. -/
def describe (r : PageRef) : StoreM String := do
  return "PageRef \x7b tree: " ++ r.tree.describe ++ ", stem: " ++ toString r.stem ++
    ", post: " ++ toString r.post ++ ", zone: " ++ toString r.zone ++
    ", base: " ++ toString r.base ++ ", size: " ++ toString r.pageSize ++
    ", span: " ++ toString r.span ++ ", cache: " ++ (← r.hold).name ++ " \x7d"

/-- Names the reference in an error. -/
def naming {α : Type} (r : PageRef) (act : StoreM α) : StoreM α :=
  tryCatch act fun e => do throw (e.withPageRef (← r.describe))

/-! ## Loading -/

/-- Whether a load fails on purpose. -/
def takeFault : StoreM Bool :=
  modifyGet fun s => (s.faults.strikes, { s with faults := s.faults.passed })

/-- Counts a page found in memory. -/
def countHit : StoreM Unit :=
  modify fun s => { s with stats := { s.stats with hits := s.stats.hits + 1 } }

/-- Counts a load. -/
def countLoad : StoreM Unit :=
  modify fun s => { s with stats := { s.stats with loads := s.stats.loads + 1 } }

/-- Counts a load that failed. -/
def countLoadFailure : StoreM Unit :=
  modify fun s => { s with stats := { s.stats with loadFailures := s.stats.loadFailures + 1 } }

/-- Reads the page that a header locates. -/
def storedPage (zones : Zones) (header : Header) : Except StoreError (Page Header) := do
  Page.parse (← zones.slice header.zone header.base header.size)

/-- Reads the page from its zone, with new references to its children.  Memory does not keep
the page. -/
def readPage (r : PageRef) : StoreM LivePage := do
  if ← takeFault then
    throw (.pageNotFound r.zone r.base)
  match storedPage (← get).zones r.header with
  | .error e =>
    countLoadFailure
    throw e
  | .ok page =>
    countLoad
    page.mapChildren page.version (ofHeader page.treeKind page.stem)

/-- Pages are loaded from the zones of the store. -/
instance : PageLoader where
  start _ := StoreM.ofZones Zones.checkOpen
  read := readPage

@[simp] theorem start_eq (isResident : Bool) :
    PageLoader.start isResident = StoreM.ofZones Zones.checkOpen :=
  rfl

@[simp] theorem read_eq (r : PageRef) : PageLoader.read r = r.readPage :=
  rfl

/-- The page as its zone has it; memory does not keep it. -/
def freshPage (r : PageRef) : StoreM LivePage := do
  StoreM.ofZones Zones.checkOpen
  r.readPage

/-- Puts a page into memory. -/
def keep (r : PageRef) (page : LivePage) : StoreM PageCopy := do
  let copy ← copyOf page
  modify fun s =>
    { s with cells := s.cells.modify r.id fun cell =>
        ⟨.strong copy, some (cell.version.getD page.version)⟩ }
  return copy

section

variable [PageLoader]

/-- Loads the page into memory. -/
def load (r : PageRef) : StoreM PageCopy := do
  if !r.isCommitted then
    throw (.notCommitted (← r.describe))
  let page ← PageLoader.read r
  if page.treeKind ≠ r.tree then
    throw (.malformedPage ("expected a " ++ r.tree.name ++ " page") page.stored.toText)
  r.keep page

/-- A copy of the page, from memory or else from its zone. -/
def pageCopy (r : PageRef) : StoreM PageCopy := do
  match (← r.hold).copy? with
  | some copy =>
    countHit
    return copy
  | none => r.naming do
    PageLoader.start false
    r.load

/-- The page, from memory or else from its zone. -/
def page (r : PageRef) : StoreM LivePage :=
  return (← r.pageCopy).page

/-- Loads the subtree into memory, within a depth. -/
def loadTreeWithin : Nat → PageRef → StoreM Unit
  | 0, _ => throw StoreM.tooDeep
  | depth + 1, r => do
    let copy ← match (← r.hold).copy? with
      | some copy =>
        modify fun s =>
          { s with cells := s.cells.modify r.id fun cell => { cell with hold := .strong copy } }
        pure copy
      | none => r.naming r.load
    copy.page.children.forM (loadTreeWithin depth)

/-- Loads the subtree into memory, to be held strongly. -/
def loadTree (r : PageRef) : StoreM Unit := do
  PageLoader.start true
  loadTreeWithin ((← get).depthBound r) r

end

/-! ## Softening -/

/-- Lets go of committed pages up to a version, within a depth. -/
def softenWithin (version : Nat) : Nat → PageRef → StoreM Unit
  | 0, _ => throw StoreM.tooDeep
  | depth + 1, r => do
    match ← r.softPage? with
    | none => return
    | some page =>
      page.children.forM (softenWithin version depth)
      if r.isCommitted && page.version ≤ version then
        modify fun s =>
          { s with cells := s.cells.modify r.id fun cell =>
              match cell.hold with
              | .strong copy => { cell with hold := .weak (some copy) }
              | _ => cell }

/-- Lets go of the pages in memory that are committed and not newer than a version: the
references hold them weakly from now on. -/
def soften (r : PageRef) (version : Nat) : StoreM Unit := do
  softenWithin version ((← get).depthBound r) r

end PageRef
end PageTree
