import Mathlib.Logic.Relation
import PageTree.Proofs.Commit.Write
import PageTree.Proofs.Operations
import PageTree.Proofs.Softening

/-!
# Clients and commits side by side

A `System` is a store with a trunk, any number of calls of clients and at most one commit, each of
them somewhere between its first and its last step.  A call takes a snapshot, computes a tree from
it and swaps the tree in if the trunk is still at the snapshot; a commit writes the diff of its
snapshot and installs the committed tree, or the current tree rebased on it.  Between any two
steps of one, others may take theirs.

`log` and `filed` are not seen by anyone in the system.  They record the operations whose trees
have been swapped in, in order, and the pages that commits have written.
-/

namespace PageTree

open StoreM

/-! ## Swaps -/

namespace Trunk

variable {t t' : Trunk} {old new : Tree} {version : Nat}

/-- A tree that is swapped in finds the trunk at the snapshot. -/
theorem eq_of_updateTree (hswapped : t.updateTree old new version = (true, t')) :
    t.isAt old version = true ∧ t' = { t with tree := new } := by
  unfold updateTree at hswapped
  split at hswapped
  · next hat =>
      cases hswapped
      exact ⟨hat, rfl⟩
  · cases hswapped

/-- A tree that is installed finds the trunk at the snapshot. -/
theorem eq_of_installCommit (hinstalled : t.installCommit old new version = (true, t')) :
    t.isAt old version = true ∧ t' = { t with tree := new, version := version + 1 } := by
  unfold installCommit at hinstalled
  split at hinstalled
  · next hat =>
      cases hinstalled
      exact ⟨hat, rfl⟩
  · cases hinstalled

end Trunk

/-! ## States -/

/-- What a call has looked at: a snapshot of the trunk after so many operations. -/
structure Attempt where
  snapshot : Trunk
  position : Nat

/-- Where a call stands. -/
inductive Call where
  | unused
  | waiting (op : Operation)
  | looking (op : Operation) (attempt : Attempt)
  | ready (op : Operation) (attempt : Attempt) (tree : Tree) (answer : Option Value)
  /-- The call has come back, with its tree swapped in or not. -/
  | done (op : Operation) (attempt : Attempt) (tree : Tree) (answer : Option Value)
      (isSwapped : Bool)
  | failed (op : Operation) (e : StoreError)

/-- The operation that a call is about. -/
def Call.operation? : Call → Option Operation
  | .unused => none
  | .waiting op | .looking op _ | .ready op _ _ _ | .done op _ _ _ _ | .failed op _ => some op

/-- Where the commit under way stands. -/
inductive Stage where
  | idle
  | begun (snapshot : Trunk) (request : Commit)
  | written (diff : WrittenDiff)
  /-- The trunk has moved since the snapshot. -/
  | overtaken (diff : WrittenDiff)
  | paired (diff : WrittenDiff) (pairs : PageRef.CommitPairs)
  | rebasing (diff : WrittenDiff) (pairs : PageRef.CommitPairs) (current : Tree)
  | rebased (diff : WrittenDiff) (pairs : PageRef.CommitPairs) (current tree : Tree)
  | installed (commit : Commit)

/-- A trunk with those who work on it. -/
structure System where
  store : Store
  trunk : Trunk
  calls : Nat → Call
  stage : Stage
  /-- Snapshots whose trees are to be softened. -/
  softeners : List Trunk
  /-- References that someone reads. -/
  readers : List PageRef
  /-- The operations whose trees have been swapped in, with their calls. -/
  log : List (Nat × Operation)
  /-- The pages that commits have written, by zone and end. -/
  filed : Nat → Nat → Page Header → Prop

/-- Does the work of `writeDiff` with a store that fails before it appends the diff. -/
def Trunk.spoilDiff (t : Trunk) (request : Commit) : StoreM Unit := do
  let commit ← willCommit request
  let _ ← writeZone commit fun zone base => do
    let _ ← t.tree.buildDiff zone base t.version
    (throw (.fatal "the diff is lost") : StoreM (String × Unit))

namespace System

/-- A call stands elsewhere. -/
def setCall (x : System) (i : Nat) (call : Call) : System :=
  { x with calls := fun j => if j = i then call else x.calls j }

/-- The store has changed. -/
def withStore (x : System) (s : Store) : System :=
  { x with store := s }

/-- The commit stands elsewhere. -/
def withStage (x : System) (stage : Stage) : System :=
  { x with stage }

/-- A call folds values with a folding. -/
def Folds (x : System) (f : PageRef.Folding) : Prop :=
  ∃ i, (x.calls i).operation? = some (.reduce f)

/-- A system without calls over a new store with an empty tree. -/
structure Starts (seed : Seed) (x : System) : Prop where
  tree : ∃ settings takesPart now tree isResident isTransient,
    exec (Tree.empty seed) (Store.create settings takesPart now) = (.ok tree, x.store) ∧
      x.trunk = .ofTree { tree with isResident, isTransient }
  calls : ∀ i, x.calls i = .unused
  stage : x.stage = .idle
  softeners : x.softeners = []
  readers : x.readers = []
  log : x.log = []
  filed : ∀ z b p, ¬ x.filed z b p

/-! ## Steps -/

/-- A step of a call. -/
inductive ClientStep : System → System → Prop where
  | call {x : System} {i : Nat} {op : Operation} (unused : x.calls i = .unused)
      (suits : op.Suits x.trunk.tree.kind) : ClientStep x (x.setCall i (.waiting op))
  | look {x : System} {i : Nat} {op : Operation} (waiting : x.calls i = .waiting op) :
      ClientStep x (x.setCall i (.looking op ⟨x.trunk, x.log.length⟩))
  | compute {x : System} {i : Nat} {op : Operation} {attempt : Attempt} {tree : Tree}
      {answer : Option Value} {s : Store} (looking : x.calls i = .looking op attempt)
      (computed : exec (op.run attempt.snapshot) x.store = (.ok (tree, answer), s)) :
      ClientStep x ((x.withStore s).setCall i (.ready op attempt tree answer))
  | fail {x : System} {i : Nat} {op : Operation} {attempt : Attempt} {e : StoreError}
      {s : Store} (looking : x.calls i = .looking op attempt)
      (failed : exec (op.run attempt.snapshot) x.store = (.error e, s)) :
      ClientStep x ((x.withStore s).setCall i (.failed op e))
  | retry {x : System} {i : Nat} {op : Operation} {e : StoreError}
      (failed : x.calls i = .failed op e) : ClientStep x (x.setCall i (.waiting op))
  /-- A tree with the root of the snapshot is not swapped in. -/
  | keep {x : System} {i : Nat} {op : Operation} {attempt : Attempt} {tree : Tree}
      {answer : Option Value} (ready : x.calls i = .ready op attempt tree answer)
      (same : tree.same attempt.snapshot.tree = true) :
      ClientStep x (x.setCall i (.done op attempt tree answer false))
  | swap {x : System} {i : Nat} {op : Operation} {attempt : Attempt} {tree : Tree}
      {answer : Option Value} {trunk : Trunk}
      (ready : x.calls i = .ready op attempt tree answer)
      (moved : tree.same attempt.snapshot.tree = false)
      (swapped : x.trunk.updateTree attempt.snapshot.tree tree attempt.snapshot.version =
        (true, trunk)) :
      ClientStep x ({ x with trunk, log := x.log ++ [(i, op)] }.setCall i
        (.done op attempt tree answer true))
  /-- A swap that finds the trunk elsewhere is to be tried again from another snapshot. -/
  | lose {x : System} {i : Nat} {op : Operation} {attempt : Attempt} {tree : Tree}
      {answer : Option Value} {trunk : Trunk}
      (ready : x.calls i = .ready op attempt tree answer)
      (moved : tree.same attempt.snapshot.tree = false)
      (lost : x.trunk.updateTree attempt.snapshot.tree tree attempt.snapshot.version =
        (false, trunk)) :
      ClientStep x (x.setCall i (.waiting op))
  | raisePost {x : System} (post : Nat) : ClientStep x { x with trunk := x.trunk.raisePost post }

/-- A step of the commit. -/
inductive CommitStep : System → System → Prop where
  | begin {x : System} (request : Commit) (idle : x.stage = .idle) :
      CommitStep x (x.withStage (.begun x.trunk request))
  /-- There is nothing to write. -/
  | skip {x : System} {snapshot : Trunk} {request : Commit} {s : Store}
      (begun : x.stage = .begun snapshot request)
      (skipped : exec (snapshot.writeDiff request) x.store = (.ok none, s)) :
      CommitStep x ((x.withStore s).withStage .idle)
  | write {x : System} {snapshot : Trunk} {request : Commit} {diff : WrittenDiff} {s : Store}
      (begun : x.stage = .begun snapshot request)
      (wrote : exec (snapshot.writeDiff request) x.store = (.ok (some diff), s)) :
      CommitStep x { x with
        store := s
        stage := .written diff
        filed := fun z b p => x.filed z b p ∨ Filing diff.committed.root s z b p }
  /-- The store does not write. -/
  | refuse {x : System} {snapshot : Trunk} {request : Commit} {e : StoreError} {s : Store}
      (begun : x.stage = .begun snapshot request)
      (refused : exec (snapshot.writeDiff request) x.store = (.error e, s)) :
      CommitStep x ((x.withStore s).withStage .idle)
  /-- The store fails while it writes. -/
  | spoil {x : System} {snapshot : Trunk} {request : Commit} {e : StoreError} {s : Store}
      (begun : x.stage = .begun snapshot request)
      (spoiled : exec (snapshot.spoilDiff request) x.store = (.error e, s)) :
      CommitStep x ((x.withStore s).withStage .idle)
  | install {x : System} {diff : WrittenDiff} {trunk : Trunk} (written : x.stage = .written diff)
      (installed : x.trunk.installCommit diff.tree diff.committed diff.version = (true, trunk)) :
      CommitStep x ({ x with trunk }.withStage (.installed diff.commit))
  | miss {x : System} {diff : WrittenDiff} {trunk : Trunk} (written : x.stage = .written diff)
      (missed : x.trunk.installCommit diff.tree diff.committed diff.version = (false, trunk)) :
      CommitStep x (x.withStage (.overtaken diff))
  | pair {x : System} {diff : WrittenDiff} {pairs : PageRef.CommitPairs} {s : Store}
      (overtaken : x.stage = .overtaken diff)
      (gathered : exec (Trunk.pairsOf diff) x.store = (.ok pairs, s)) :
      CommitStep x ((x.withStore s).withStage (.paired diff pairs))
  | look {x : System} {diff : WrittenDiff} {pairs : PageRef.CommitPairs}
      (paired : x.stage = .paired diff pairs) :
      CommitStep x (x.withStage (.rebasing diff pairs x.trunk.tree))
  | rebase {x : System} {diff : WrittenDiff} {pairs : PageRef.CommitPairs} {current tree : Tree}
      {s : Store} (rebasing : x.stage = .rebasing diff pairs current)
      (rebased : exec (current.rebased pairs) x.store = (.ok tree, s)) :
      CommitStep x ((x.withStore s).withStage (.rebased diff pairs current tree))
  | abort {x : System} {diff : WrittenDiff} {pairs : PageRef.CommitPairs} {current : Tree}
      {e : StoreError} {s : Store} (rebasing : x.stage = .rebasing diff pairs current)
      (failed : exec (current.rebased pairs) x.store = (.error e, s)) :
      CommitStep x ((x.withStore s).withStage .idle)
  | installRebased {x : System} {diff : WrittenDiff} {pairs : PageRef.CommitPairs}
      {current tree : Tree} {trunk : Trunk} (rebased : x.stage = .rebased diff pairs current tree)
      (installed : x.trunk.installCommit current tree diff.version = (true, trunk)) :
      CommitStep x ({ x with trunk }.withStage (.installed diff.commit))
  /-- The trunk has moved again. -/
  | missRebased {x : System} {diff : WrittenDiff} {pairs : PageRef.CommitPairs}
      {current tree : Tree} {trunk : Trunk} (rebased : x.stage = .rebased diff pairs current tree)
      (missed : x.trunk.installCommit current tree diff.version = (false, trunk)) :
      CommitStep x (x.withStage (.paired diff pairs))
  | finish {x : System} {commit : Commit} {s : Store} (installed : x.stage = .installed commit)
      (finished : exec (didCommit commit) x.store = (.ok (), s)) :
      CommitStep x ((x.withStore s).withStage .idle)

/-- A step of anyone else: of those who soften or read trees, and of those who look after the
store. -/
inductive StoreStep : System → System → Prop where
  | lookToSoften {x : System} : StoreStep x { x with softeners := x.trunk :: x.softeners }
  | soften {x : System} {t : Trunk} (looked : t ∈ x.softeners) :
      StoreStep x (x.withStore (exec t.soften x.store).2)
  | lookToRead {x : System} : StoreStep x { x with readers := x.trunk.tree.root :: x.readers }
  /-- A page is found in memory or loaded, and its children may be read next. -/
  | visit {x : System} {r : PageRef} {page : LivePage} {s : Store} (looked : r ∈ x.readers)
      (found : exec r.page x.store = (.ok page, s)) :
      StoreStep x { x with store := s, readers := page.children ++ x.readers }
  | visitInVain {x : System} {r : PageRef} {e : StoreError} {s : Store}
      (looked : r ∈ x.readers) (failed : exec r.page x.store = (.error e, s)) :
      StoreStep x (x.withStore s)
  | reclaim {x : System} (holders : Holders) :
      StoreStep x (x.withStore (x.store.reclaim holders))
  | shiftZone {x : System} : StoreStep x (x.withStore (exec shiftZone x.store).2)
  | deleteZone {x : System} (id : Nat) : StoreStep x (x.withStore (exec (deleteZone id) x.store).2)
  /-- Any text is appended, after a shift or not. -/
  | append {x : System} (request : Commit) (text : String) :
      StoreStep x (x.withStore
        (exec (writeZone request fun _ _ => pure (text, ())) x.store).2)
  | failNext {x : System} (count : Nat) :
      StoreStep x (x.withStore (exec (failNext count) x.store).2)
  | close {x : System} : StoreStep x (x.withStore (exec close x.store).2)
  | tick {x : System} (now : Timestamp) : StoreStep x (x.withStore { x.store with now })
  /-- Time passes. -/
  | pass {x : System} (nanos : Nat) :
      StoreStep x (x.withStore { x.store with uptime := x.store.uptime + nanos })

/-- A step of a call or of the commit. -/
def QuietStep (x y : System) : Prop :=
  ClientStep x y ∨ CommitStep x y

/-- A step of anyone. -/
def Step (x y : System) : Prop :=
  QuietStep x y ∨ StoreStep x y

end System
end PageTree
