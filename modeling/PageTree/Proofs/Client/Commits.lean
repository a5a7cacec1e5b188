import PageTree.Proofs.Client.Retries
import PageTree.Proofs.Sparing
import PageTree.Proofs.System.Preservation

/-!
# Commits of a client

A commit of a client that no rival gets in the way of writes a diff and installs the committed
tree; where it fails, it has written nothing.  That is true of any way to build the diff
(`ClientM.commitBuilding`), of which a tree's own is one.
-/

namespace PageTree

variable {α β : Type}

open StoreM

/-- What a failed commit may have made of the zones: none has another text, and at most there is one
new zone, with nothing in it. -/
structure Zones.Spared (z z' : Zones) : Prop where
  texts : ∀ id text, z.text? id = some text → z'.text? id = some text
  added : ∃ added, z'.zones = z.zones ++ added ∧ added.length ≤ 1 ∧
    ∀ zone ∈ added, zone.id = z.active + 1 ∧ zone.text = ""

theorem Zones.Spared.refl (z : Zones) : z.Spared z where
  texts _ _ htext := htext
  added := ⟨[], by simp⟩

theorem Commit.spared_zones (request : Commit) (z : Zones) : z.Spared (request.zones z) := by
  unfold Commit.zones
  split
  · refine ⟨fun id text htext => ?_, [⟨z.active + 1, ""⟩], rfl, Nat.le_refl 1, by simp⟩
    obtain ⟨zone, hfound, rfl⟩ := Option.map_eq_some_iff.1 htext
    rw [Zones.find?] at hfound
    simp [Zones.text?, Zones.find?, Zones.shift, List.find?_append, hfound]
  · exact .refl z

namespace StoreM

/-- Where nothing comes to be written, a zone may have been moved on to. -/
theorem spared_of_writeZone_failed {build : Nat → Nat → StoreM (String × α)}
    (hbuild : ∀ zone base, Spares (build zone base)) {request : Commit} {s s' : Store}
    {e : StoreError} (hfailed : exec (writeZone request build) s = (.error e, s')) :
    s.zones.Spared s'.zones := by
  cases hclosed : s.zones.isClosed with
  | true =>
      rw [exec_writeZone_of_closed request build hclosed] at hfailed
      cases hfailed
      exact .refl _
  | false =>
      rw [exec_writeZone request build s hclosed] at hfailed
      have hspared : ∀ zone base, ∀ outcome, exec (build zone base)
          (s.withZones (request.zones s.zones)) = outcome →
            outcome.2.zones = request.zones s.zones := by
        rintro zone base _ rfl
        exact congrArg (fun outside => outside.2.2.1) (hbuild zone base _)
      split at hfailed
      · cases hfailed
      · next hexec =>
          cases hfailed
          rw [hspared _ _ _ hexec]
          exact request.spared_zones _

end StoreM

namespace Trunk

/-- Does the work of `writeDiff` with another builder. -/
def writeBuilt (t : Trunk) (build : Nat → Nat → StoreM (String × Tree)) (request : Commit) :
    StoreM (Option WrittenDiff) := do
  if t.hasWork request then
    let request ← willCommit request
    let (zone, committed) ← writeZone request build
    return some ⟨request, t.tree, t.version, committed, zone⟩
  else
    return none

theorem spared_of_writeBuilt_failed {t : Trunk} {build : Nat → Nat → StoreM (String × Tree)}
    (hbuild : ∀ zone base, Spares (build zone base)) {request : Commit} {s s' : Store}
    {e : StoreError} (hfailed : exec (t.writeBuilt build request) s = (.error e, s')) :
    s.zones.Spared s'.zones := by
  unfold writeBuilt at hfailed
  split at hfailed
  · rw [exec_bind] at hfailed
    rcases exec_willCommit request s with ⟨-, hexec⟩ | ⟨request', hexec⟩
    · rw [hexec] at hfailed
      cases hfailed
      exact .refl _
    · rw [hexec] at hfailed
      rcases exec_bind_eq_error hfailed with hrefused | ⟨_, _, -, hdone⟩
      · exact spared_of_writeZone_failed hbuild hrefused
      · cases hdone
  · cases hfailed

/-- The diff that has been written is that of the trunk. -/
theorem at_of_writeBuilt {t : Trunk} {build : Nat → Nat → StoreM (String × Tree)}
    {request : Commit} {s s' : Store} {diff : WrittenDiff}
    (hwrote : exec (t.writeBuilt build request) s = (.ok (some diff), s')) :
    t.isAt diff.tree diff.version = true := by
  unfold writeBuilt at hwrote
  split at hwrote
  · rcases exec_willCommit request s with ⟨-, hexec⟩ | ⟨request', hexec⟩
    · rw [exec_bind, hexec] at hwrote
      cases hwrote
    · rw [exec_bind, hexec] at hwrote
      dsimp only at hwrote
      rw [exec_bind] at hwrote
      split at hwrote
      · cases hwrote
        simp [isAt, Tree.same, PageRef.same]
      · cases hwrote
  · cases hwrote

/-- Where the trunk has not moved, the committed tree takes the place of its tree. -/
theorem exec_install_of_at {t : Trunk} {diff : WrittenDiff}
    (hat : t.isAt diff.tree diff.version = true) (s : Store) :
    exec (t.install diff) s =
      (.ok { t with tree := diff.committed, version := diff.version + 1 }, s) := by
  rw [install, installCommit, if_pos hat]
  rfl

end Trunk

namespace ClientM

/-- Does the work of `writeDiff` with another builder. -/
def writeBuilt (t : Trunk) (build : Nat → Nat → StoreM (String × Tree)) (request : Commit) :
    ClientStepM (Option WrittenDiff) := do
  let diff ← ofStore (t.writeBuilt build request)
  if diff.isSome then
    releaseRival
  return diff

/-- Commits the current tree as `commit` does, with another builder of diffs. -/
def commitBuilding (build : Trunk → Nat → Nat → StoreM (String × Tree)) (request : Commit) :
    ClientStepM Bool := do
  let t ← trunk
  match ← writeBuilt t (build t) request with
  | none => return false
  | some diff =>
    let current ← trunk
    setTrunk (← ofStore (current.install diff))
    ofStore (StoreM.didCommit diff.commit)
    return true

theorem commit_eq (request : Commit) :
    commit request = commitBuilding (fun t zone base => t.tree.buildDiff zone base t.version)
      request :=
  rfl

theorem exec_writeBuilt (t : Trunk) (build : Nat → Nat → StoreM (String × Tree))
    (request : Commit) {w : Scene} (hrival : w.client.rival = none) :
    exec (writeBuilt t build request) w =
      ((StoreM.exec (t.writeBuilt build request) w.store).1,
        ⟨w.client, (StoreM.exec (t.writeBuilt build request) w.store).2⟩) := by
  rw [writeBuilt, exec_bind, exec_ofStore]
  generalize StoreM.exec (t.writeBuilt build request) w.store = outcome
  obtain ⟨e | _ | diff, s⟩ := outcome
  · rfl
  · rfl
  · have hrelease : exec releaseRival ⟨w.client, s⟩ = (.ok (), ⟨w.client, s⟩) := by
      obtain ⟨client, _⟩ := w
      cases client
      cases hrival
      rfl
    show exec (releaseRival >>= fun _ => pure (some diff)) ⟨w.client, s⟩ = _
    rw [exec_bind, hrelease]
    rfl

/-- A commit that has no rival to wait for writes the diff and installs the committed tree. -/
theorem exec_commitBuilding (build : Trunk → Nat → Nat → StoreM (String × Tree))
    (request : Commit) {w : Scene} (hrival : w.client.rival = none) :
    exec (commitBuilding build request) w =
      match StoreM.exec (w.client.trunk.writeBuilt (build w.client.trunk) request) w.store with
      | (.error e, s) => (.error e, ⟨w.client, s⟩)
      | (.ok none, s) => (.ok false, ⟨w.client, s⟩)
      | (.ok (some diff), s) =>
        (.ok true, ⟨{ w.client with trunk := { w.client.trunk with
            tree := diff.committed, version := diff.version + 1 } },
          (StoreM.exec (StoreM.didCommit diff.commit) s).2⟩) := by
  have hcommit : exec (commitBuilding build request) w =
      exec (writeBuilt w.client.trunk (build w.client.trunk) request >>= fun
        | none => pure false
        | some diff => do
          let current ← trunk
          setTrunk (← ofStore (current.install diff))
          ofStore (StoreM.didCommit diff.commit)
          return true) w := rfl
  rw [hcommit, exec_bind, exec_writeBuilt _ _ _ hrival]
  cases hwrote : StoreM.exec (w.client.trunk.writeBuilt (build w.client.trunk) request) w.store with
  | mk outcome s =>
      obtain e | _ | diff := outcome
      · rfl
      · rfl
      · -- without a rival the trunk is still the one that the diff has been made of
        have hinstall := Trunk.exec_install_of_at (Trunk.at_of_writeBuilt hwrote) s
        obtain ⟨s', hdone, -⟩ := exec_didCommit diff.commit s
        show exec (ofStore (w.client.trunk.install diff) >>= fun t => do
          setTrunk t
          ofStore (StoreM.didCommit diff.commit)
          return true) ⟨w.client, s⟩ = _
        rw [exec_bind, exec_ofStore, hinstall]
        show exec (ofStore (StoreM.didCommit diff.commit) >>= fun _ => pure true)
          ⟨{ w.client with trunk := { w.client.trunk with
              tree := diff.committed, version := diff.version + 1 } }, s⟩ = _
        dsimp only
        rw [exec_bind, exec_ofStore, hdone]
        rfl

/-- Where a commit fails that no rival gets in the way of, nothing has been written. -/
theorem commitBuilding_untouched {build : Trunk → Nat → Nat → StoreM (String × Tree)}
    (hbuild : ∀ t zone base, Spares (build t zone base)) {request : Commit} {w w' : Scene}
    {e : StoreError} (hrival : w.client.rival = none)
    (hfailed : exec (commitBuilding build request) w = (.error e, w')) :
    w'.client = w.client ∧ w.store.zones.Spared w'.store.zones := by
  rw [exec_commitBuilding build request hrival] at hfailed
  split at hfailed
  · next hrefused =>
      cases hfailed
      exact ⟨rfl, Trunk.spared_of_writeBuilt_failed (hbuild _) hrefused⟩
  · cases hfailed
  · cases hfailed

end ClientM
end PageTree
