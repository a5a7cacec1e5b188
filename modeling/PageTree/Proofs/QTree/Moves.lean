import PageTree.Proofs.QTree.Change
import PageTree.Proofs.QTree.Plane
import PageTree.QTree.Basic

/-!
# Taking keys from point to point

An update of a Q-tree looks first where the key lies: one that lies at another point is taken from
there before it is stored.  Whatever is made of the root, the tree is rebalanced in the end.  So
what becomes of the tree follows from what rebalancing makes of it (`Settles`), and the operations
only have to give a root whose slots stand for the right map of the plane.
-/

namespace PageTree
namespace QTree

open Slots
open BTree (Realm)

variable {W : Type} [Terrain W] {s s' : Store} {w w' : W} {stem version post : Nat}
  {slots : List Slot} {r : PageRef} {t : Tree} {key value : Value} {x y : Nat}
  {P : Plane → Tree → Store → W → Prop}

/-- A point that tiles can hold is not refused. -/
theorem pointAt_eq (hx : x ≤ maxCoordinate) (hy : y ≤ maxCoordinate) :
    pointAt x y = pure ⟨.point x, .point y⟩ := by
  unfold pointAt Point.ofCoordinates
  rw [if_neg (by omega)]

/-- The slots without a key that has been taken from where it was. -/
theorem change_absent_erases (hplaced : WellPlaced slots) {slot : Slot} (hslot : slot ∈ slots) :
    (∀ other ∈ change slot.key (Point.ofSlot slot) .absent slots, other.key ≠ slot.key) ∧
      plane (change slot.key (Point.ofSlot slot) .absent slots) =
        (plane slots).erase slot.key := by
  have hchange : change slot.key (Point.ofSlot slot) .absent slots =
      slots.filter fun other => ¬ other.IsAt slot.key (Point.ofSlot slot) := rfl
  -- a key lies at one point only, so to take it from there is to take it away
  have hgone : ∀ other ∈ change slot.key (Point.ofSlot slot) .absent slots,
      other.key ≠ slot.key := by
    intro other hother hkey
    rw [hchange] at hother
    obtain ⟨hmem, hnot⟩ := List.mem_filter.1 hother
    obtain rfl := hplaced.eq_of_key hmem hslot hkey
    simp [Slot.IsAt] at hnot
  refine ⟨hgone, ?_⟩
  have hsub : WellPlaced (change slot.key (Point.ofSlot slot) .absent slots) := by
    rw [hchange]
    exact hplaced.sublist List.filter_sublist
  refine plane_eq_of hsub ?_ ?_
  · intro other hother
    rw [Plane.erase, if_neg (hgone other hother)]
    rw [hchange] at hother
    exact (plane_eq_some_iff hplaced).2 ⟨other, List.mem_of_mem_filter hother, rfl, rfl⟩
  · intro key hkey
    rw [Plane.erase]
    split
    · rfl
    · next hne =>
        refine plane_eq_none_iff.2 fun other hother hsame => hkey other ?_ hsame
        rw [hchange]
        exact List.mem_filter.2 ⟨hother, by simp [Slot.IsAt, hsame, hne]⟩

/-- From this state on, rebalancing a tree over any root has a property of the map of the plane
that the slots of the root stand for. -/
def Settles (s : Store) (w : W) (t : Tree) (version post : Nat)
    (P : Plane → Tree → Store → W → Prop) : Prop :=
  ∀ s' w' r slots, Realm.Grows s w s' w' → WellPlaced slots →
    Root w' t.seed.stem version r slots → Realm.Runs (rebalanced t r version post) s' w'
      (P (plane slots))

theorem Settles.later (hgrows : Realm.Grows s w s' w') (hsettles : Settles s w t version post P) :
    Settles s' w' t version post P :=
  fun s'' w'' r slots hgrows' => hsettles s'' w'' r slots (Realm.grows_trans hgrows hgrows')

/-- Where a key lies at a point or nowhere, a value is put there or the key is taken away. -/
theorem Settles.change_runs (hsettles : Settles s w t version post P)
    (hrep : Realm.Represents s w) (hplaced : WellPlaced slots)
    (hroot : Root w t.seed.stem version r slots) (hx : x ≤ maxCoordinate)
    (hy : y ≤ maxCoordinate)
    (hhome : value.isDefined = true → ∀ slot ∈ slots, slot.key = key →
      Point.ofSlot slot = ⟨.point x, .point y⟩) :
    Realm.Runs (do
        rebalanced t (← updated r key ⟨.point x, .point y⟩ value version) version post) s w
      (P ((plane slots).put key x y value)) := by
  refine Realm.bind (updated_runs hrep (valid_point hx hy) hplaced hhome hroot) ?_
  intro r' s' w' hgrows hroot'
  rw [← plane_change hplaced hx hy]
  exact hsettles s' w' r' _ hgrows (hplaced.change (valid_point hx hy)) hroot'

/-- A key is taken from where it lies, and a value is stored under it at another point. -/
theorem Settles.relocate_runs (hsettles : Settles s w t version post P)
    (hrep : Realm.Represents s w) (hplaced : WellPlaced slots)
    (hroot : Root w t.seed.stem version t.root slots) {slot : Slot} (hslot : slot ∈ slots)
    (hx : x ≤ maxCoordinate) (hy : y ≤ maxCoordinate) :
    Realm.Runs (relocate t slot.key (Point.ofSlot slot) ⟨.point x, .point y⟩ value version post)
      s w (P (((plane slots).erase slot.key).put slot.key x y value)) := by
  obtain ⟨hgone, herase⟩ := change_absent_erases hplaced hslot
  have hvalid := hplaced.valid slot hslot
  have hhome : Value.absent.isDefined = true → ∀ other ∈ slots, other.key = slot.key →
      Point.ofSlot other = Point.ofSlot slot := fun hdefined => by cases hdefined
  unfold relocate
  refine Realm.bind (updated_runs hrep hvalid hplaced hhome hroot) ?_
  intro removed s' w' hgrows hremoved
  have htail : ∀ r' s'' w'', Realm.Grows s' w' s'' w'' →
      Root w'' t.seed.stem version r' (change slot.key (Point.ofSlot slot) .absent slots) →
      Realm.Runs (do
          let r'' ← updated r' slot.key ⟨.point x, .point y⟩ value version
          rebalanced t r'' version post) s'' w''
        (P (((plane slots).erase slot.key).put slot.key x y value)) := by
    -- once the key is nowhere, to store it is a plain change, whatever root the slots have got
    intro r' s'' w'' hgrows' hroot'
    rw [← herase]
    refine (hsettles.later (Realm.grows_trans hgrows hgrows')).change_runs
      (Realm.represents hgrows') (hplaced.change hvalid) hroot' hx hy ?_
    exact fun _ other hother hkey => absurd hkey (hgone other hother)
  have hrep' := Realm.represents hgrows
  dsimp only
  split
  · exact htail removed s' w' (Realm.grows_refl hrep') hremoved
  · refine Realm.bind (balanced_runs hrep' hremoved) ?_
    rintro r' s'' w'' hgrows' ⟨hroot', -⟩
    exact htail r' s'' w'' hgrows' hroot'

/-- A value is stored under a key at a point, or the key is taken from the point. -/
theorem Settles.update_runs (hsettles : Settles s w t version post P)
    (hrep : Realm.Represents s w) (hplaced : WellPlaced slots)
    (hroot : Root w t.seed.stem version t.root slots) (hx : x ≤ maxCoordinate)
    (hy : y ≤ maxCoordinate) (key value : Value) :
    Realm.Runs (update t key x y value version post) s w
      (P ((plane slots).put key x y value)) := by
  have ⟨height, slots', hbranch, hperm⟩ := hroot
  unfold update
  rw [pointAt_eq hx hy, pure_bind]
  dsimp only
  split
  · next hdefined =>
      refine Realm.bind (find_runs hrep (hplaced.perm hperm) hbranch key
        ⟨.point x, .point y⟩) ?_
      intro found s' w' hgrows hfinds
      have hrep' := Realm.represents hgrows
      replace hfinds := hfinds.perm hperm
      cases found with
      | some slot =>
          -- the key is at the point and so at no other
          obtain ⟨hslot, hat⟩ := (hfinds slot).1 rfl
          refine (hsettles.later hgrows).change_runs hrep' hplaced (hroot.grows hgrows) hx hy ?_
          intro _ other hother hkey
          rw [hplaced.eq_of_key hother hslot (hkey.trans hat.1.symm)]
          exact hat.2
      | none =>
          refine Realm.bind (locate_runs hrep' (hplaced.perm hperm)
            (Terrain.branch_grows hgrows hbranch) key) ?_
          intro found s'' w'' hgrows' hlocates
          replace hlocates := hlocates.perm hperm
          have hsince := Realm.grows_trans hgrows hgrows'
          have hrep'' := Realm.represents hgrows'
          have hroot' := hroot.grows hsince
          cases found with
          | some slot =>
              obtain ⟨hslot, rfl⟩ := (hlocates slot).1 rfl
              rw [← Plane.put_erase hdefined]
              exact (hsettles.later hsince).relocate_runs hrep'' hplaced hroot' hslot hx hy
          | none =>
              refine (hsettles.later hsince).change_runs hrep'' hplaced hroot' hx hy ?_
              exact fun _ other hother hkey => absurd hkey (hlocates.none other hother)
  · next habsent =>
      exact hsettles.change_runs hrep hplaced hroot hx hy
        fun hdefined => absurd hdefined habsent

/-- A key is taken from a point. -/
theorem Settles.remove_runs (hsettles : Settles s w t version post P)
    (hrep : Realm.Represents s w) (hplaced : WellPlaced slots)
    (hroot : Root w t.seed.stem version t.root slots) (hx : x ≤ maxCoordinate)
    (hy : y ≤ maxCoordinate) (key : Value) :
    Realm.Runs (remove t key x y version post) s w (P ((plane slots).eraseAt key x y)) := by
  unfold remove
  rw [pointAt_eq hx hy, pure_bind]
  have hhome : Value.absent.isDefined = true → ∀ slot ∈ slots, slot.key = key →
      Point.ofSlot slot = ⟨.point x, .point y⟩ := fun hdefined => by cases hdefined
  exact hsettles.change_runs hrep hplaced hroot hx hy hhome

/-- A key is moved from one point to another. -/
theorem Settles.move_runs {oldX oldY : Nat} (hsettles : Settles s w t version post P)
    (hrep : Realm.Represents s w) (hplaced : WellPlaced slots)
    (hroot : Root w t.seed.stem version t.root slots) (hx : x ≤ maxCoordinate)
    (hy : y ≤ maxCoordinate) (holdX : oldX ≤ maxCoordinate) (holdY : oldY ≤ maxCoordinate)
    (key value : Value) :
    Realm.Runs (move t key oldX oldY x y value version post) s w
      (P ((plane slots).move key oldX oldY x y value)) := by
  have ⟨height, slots', hbranch, hperm⟩ := hroot
  unfold move
  rw [pointAt_eq holdX holdY, pointAt_eq hx hy, pure_bind, pure_bind]
  dsimp only
  split
  · next hsame =>
      have hbases := congrArg (fun p => (p.x.base, p.y.base)) hsame
      simp only [Tile.base_point, holdX, holdY, hx, hy, Prod.mk.injEq] at hbases
      obtain ⟨rfl, rfl⟩ := hbases
      rw [Plane.move_self]
      exact hsettles.update_runs hrep hplaced hroot hx hy key value
  · refine Realm.bind (find_runs hrep (hplaced.perm hperm) hbranch key
      ⟨.point oldX, .point oldY⟩) ?_
    intro found s' w' hgrows hfinds
    have hrep' := Realm.represents hgrows
    replace hfinds := hfinds.perm hperm
    cases found with
    | some slot =>
        obtain ⟨hslot, rfl, hpoint⟩ := (hfinds slot).1 rfl
        have hspot := (plane_eq_some_iff hplaced).2 ⟨slot, hslot, rfl, rfl⟩
        rw [Plane.move_of_at hspot
          ((ofSlot_eq_iff (hplaced.valid slot hslot) holdX holdY).1 hpoint), ← hpoint]
        exact (hsettles.later hgrows).relocate_runs hrep' hplaced (hroot.grows hgrows) hslot
          hx hy
    | none =>
        -- what does not lie at the old point is put at the new one as in any update
        have hnot : ∀ spot, plane slots key = some spot →
            ¬ (spot.x = oldX ∧ spot.y = oldY) := by
          intro spot hspot hat
          obtain ⟨slot, hslot, hkey, rfl⟩ := (plane_eq_some_iff hplaced).1 hspot
          exact hfinds.none slot hslot
            ⟨hkey, (ofSlot_eq_iff (hplaced.valid slot hslot) holdX holdY).2 hat⟩
        rw [Plane.move_of_not_at hnot]
        exact (hsettles.later hgrows).update_runs hrep' hplaced (hroot.grows hgrows) hx hy
          key value

end QTree
end PageTree
