import PageTree.Proofs.QTree.Holds
import PageTree.Proofs.QTree.Moves
import PageTree.Proofs.Trees

/-!
# A Q-tree is a map of the plane

Each operation on a tree makes of the map of the plane that its slots stand for what the same
operation makes of the map, and a look-up gives what the map has.  An operation that is given a
point beyond the largest coordinate is refused before it does anything (`pointAt_cases`).
-/

namespace PageTree
namespace QTree

open StoreM Slots
open BTree (Realm)

variable {s : Store} {c c' : Chart} {height stem version version' : Nat} {slots : List Slot}
  {r r' : PageRef} {n n' : Site}

/-! ## Trees alike hold the same -/

theorem Holds.alike (halike : c.Alike n n') (hholds : Holds c height n slots) :
    Holds c height n' slots := by
  induction height generalizing n n' slots with
  | zero =>
      obtain ⟨hsorted, p, hp, hbody⟩ := hholds
      obtain ⟨p', hp', hshape, -⟩ := halike.page_of hp
      refine ⟨hsorted, p', hp', ?_⟩
      rw [hbody] at hshape
      cases hbody' : p'.body <;> simp [hbody', PageBody.shape, PageBody.map] at hshape
      rw [hshape]
  | succ height ih =>
      obtain ⟨p, children, parts, hp, hbody, hfilled, rfl⟩ := hholds
      obtain ⟨p', hp', hshape, hchildren⟩ := halike.page_of hp
      rw [hbody] at hshape
      cases hbody' : p'.body with
      | qtreeNode children' =>
          refine ⟨p', children', parts, hp', hbody', ?_, rfl⟩
          have hall : List.Forall₂ c.Alike children children' := by
            simpa [Page.children, hbody, hbody'] using hchildren
          exact forall₂_join hall hfilled fun _ _ _ halike' hchild =>
            ⟨hchild.1, ih halike' hchild.2⟩
      | _ => simp [hbody', PageBody.shape, PageBody.map] at hshape

theorem Root.mono (hle : c ≤ c') (hroot : Root c stem version r slots) :
    Root c' stem version r slots := by
  obtain ⟨height, slots', hsub, hperm⟩ := hroot
  exact ⟨height, slots', hsub.mono hle, hperm⟩

theorem Root.raise (hroot : Root c stem version r slots) (hle : version ≤ version') :
    Root c stem version' r slots := by
  obtain ⟨height, slots', hsub, hperm⟩ := hroot
  exact ⟨height, slots', hsub.raise hle, hperm⟩

theorem Root.likeness (hroot : Root c stem version r slots)
    (hlike : c.Likeness .qtree stem version' r.site r') : Root c stem version' r' slots := by
  obtain ⟨height, slots', hsub, hperm⟩ := hroot
  exact ⟨height, slots', ⟨hlike.fit, hsub.holds.alike hlike.alike⟩, hperm⟩

theorem Root.fit (hroot : Root c stem version r slots) : c.Fit .qtree stem version r := by
  obtain ⟨height, slots', hsub, -⟩ := hroot
  exact hsub.fit

theorem Root.span (hrep : Represents s c) (hroot : Root c stem version r slots) :
    r.span = slots.length := by
  obtain ⟨height, slots', hsub, hperm⟩ := hroot
  rw [hsub.span hrep, hperm.length_eq]

/-- The slots of a tree are determined up to their order. -/
theorem Root.unique {stem' : Nat} {slots' : List Slot} (hroot : Root c stem version r slots)
    (hroot' : Root c stem' version' r slots') : slots.Perm slots' := by
  obtain ⟨height, _, hsub, hperm⟩ := hroot
  obtain ⟨height', _, hsub', hperm'⟩ := hroot'
  obtain rfl := hsub.holds.unique hsub'.holds
  exact hperm.symm.trans hperm'

/-! ## Trees -/

/-- A Q-tree whose slots stand for a map of the plane, none of its pages newer than a version. -/
structure Contains (c : Chart) (version : Nat) (t : Tree) (f : Plane) : Prop where
  kind : t.seed.kind = .qtree
  root : ∃ slots, WellPlaced slots ∧ plane slots = f ∧ Root c t.seed.stem version t.root slots

variable {t : Tree} {f g : Plane} {key value : Value} {x y : Nat}

namespace Contains

theorem raise (hcontains : Contains c version t f) (hle : version ≤ version') :
    Contains c version' t f := by
  obtain ⟨slots, hplaced, hplane, hroot⟩ := hcontains.root
  exact ⟨hcontains.kind, slots, hplaced, hplane, hroot.raise hle⟩

theorem mono (hle : c ≤ c') (hcontains : Contains c version t f) : Contains c' version t f := by
  obtain ⟨slots, hplaced, hplane, hroot⟩ := hcontains.root
  exact ⟨hcontains.kind, slots, hplaced, hplane, hroot.mono hle⟩

theorem fit (hcontains : Contains c version t f) : c.Fit .qtree t.seed.stem version t.root := by
  obtain ⟨slots, -, -, hroot⟩ := hcontains.root
  exact hroot.fit

/-- A tree with another root. -/
theorem withRoot (hcontains : Contains c version t f) (hplaced : WellPlaced slots)
    (hroot : Root c t.seed.stem version r slots) :
    Contains c version { t with root := r } (plane slots) :=
  ⟨hcontains.kind, slots, hplaced, rfl, hroot⟩

theorem likeness (hcontains : Contains c version t f)
    (hlike : c.Likeness .qtree t.seed.stem version' t.root.site r) :
    Contains c version' { t with root := r } f := by
  obtain ⟨slots, hplaced, hplane, hroot⟩ := hcontains.root
  exact ⟨hcontains.kind, slots, hplaced, hplane, hroot.likeness hlike⟩

/-- The map of the plane is determined by the root. -/
theorem unique {t' : Tree} (hcontains : Contains c version t f)
    (hcontains' : Contains c version' t' g) (hroot : t.root = t'.root) : f = g := by
  obtain ⟨slots, hplaced, rfl, hslots⟩ := hcontains.root
  obtain ⟨slots', hplaced', rfl, hslots'⟩ := hcontains'.root
  rw [hroot] at hslots
  exact plane_perm hplaced' (hslots.unique hslots')

end Contains

/-! ## Look-ups -/

/-- A point beyond the largest coordinate is refused. -/
theorem pointAt_cases (x y : Nat) (s : Store) :
    x ≤ maxCoordinate ∧ y ≤ maxCoordinate ∧
        exec (pointAt x y) s = (.ok ⟨.point x, .point y⟩, s) ∨
      ∃ reason, exec (pointAt x y) s = (.error (.invalidArgument reason), s) := by
  unfold pointAt Point.ofCoordinates
  by_cases hbeyond : maxCoordinate < x ∨ maxCoordinate < y
  · rw [if_pos hbeyond]
    exact Or.inr ⟨_, rfl⟩
  · rw [if_neg hbeyond]
    exact Or.inl ⟨by omega, by omega, rfl⟩

/-- What a look-up by key finds is the spot of the key. -/
theorem Finds.spot {found : Option Slot} (hplaced : WellPlaced slots)
    (hfinds : Finds (fun slot => slot.key = key) slots found) :
    found.map Slot.spot = plane slots key := by
  cases found with
  | none => exact (plane_eq_none_iff.2 hfinds.none).symm
  | some slot =>
      obtain ⟨hslot, hkey⟩ := (hfinds slot).1 rfl
      exact ((plane_eq_some_iff hplaced).2 ⟨slot, hslot, hkey, rfl⟩).symm

/-- What a look-up at a point finds is the spot of the key, if it is there. -/
theorem Finds.spot_at {found : Option Slot} (hplaced : WellPlaced slots) (hx : x ≤ maxCoordinate)
    (hy : y ≤ maxCoordinate)
    (hfinds : Finds (fun slot => slot.IsAt key ⟨.point x, .point y⟩) slots found) :
    found.map Slot.spot = (plane slots key).filter fun spot => spot.x = x ∧ spot.y = y := by
  cases found with
  | none =>
      symm
      rw [Option.map_none, Option.filter_eq_none_iff]
      intro spot hspot
      obtain ⟨slot, hslot, hkey, rfl⟩ := (plane_eq_some_iff hplaced).1 hspot
      have hnot := hfinds.none slot hslot
      simpa [Slot.IsAt, hkey, ofSlot_eq_iff (hplaced.valid slot hslot) hx hy] using hnot
  | some slot =>
      obtain ⟨hslot, hkey, hpoint⟩ := (hfinds slot).1 rfl
      have hspot := (plane_eq_some_iff hplaced).2 ⟨slot, hslot, hkey, rfl⟩
      have hat := (ofSlot_eq_iff (hplaced.valid slot hslot) hx hy).1 hpoint
      rw [hspot, Option.map_some, Option.filter_some, if_pos (decide_eq_true hat)]

/-- The value of a key at a point. -/
theorem get_runs (hrep : Represents s c) (hcontains : Contains c version t f) (key : Value)
    (hx : x ≤ maxCoordinate) (hy : y ≤ maxCoordinate) :
    Runs (get? t key x y) s c fun found _ _ => found = f.valueAt? key x y := by
  obtain ⟨slots, hplaced, rfl, height, slots', hsub, hperm⟩ := hcontains.root
  unfold get?
  rw [pointAt_eq hx hy, pure_bind]
  refine Runs.bind (find_runs hrep (hplaced.perm hperm) hsub key ⟨.point x, .point y⟩) ?_
  intro found s' c' hgrows hfinds
  refine Runs.pure hgrows.represents ?_
  rw [Plane.valueAt?, ← Finds.spot_at hplaced hx hy (hfinds.perm hperm), Option.map_map]
  rfl

/-- The entry of a key wherever it lies. -/
theorem entry_runs (hrep : Represents s c) (hcontains : Contains c version t f) (key : Value) :
    Runs ( entry? t key) s c fun found _ _ => found = Plane.entry? f key := by
  obtain ⟨slots, hplaced, rfl, height, slots', hsub, hperm⟩ := hcontains.root
  refine Runs.bind (locate_runs hrep (hplaced.perm hperm) hsub key) ?_
  intro found s' c' hgrows hfinds
  refine Runs.pure hgrows.represents ?_
  have hfinds' := hfinds.perm hperm
  rw [ Plane.entry?, ← Finds.spot hplaced hfinds', Option.map_map]
  cases found with
  | none => rfl
  | some slot =>
      obtain ⟨-, rfl⟩ := (hfinds' slot).1 rfl
      rfl

/-! ## Changes -/

/-- A tree is balanced and evacuated after a change of its root. -/
theorem rebalanced_runs (hrep : Represents s c) (hcontains : Contains c version t f) (post : Nat)
    (hplaced : WellPlaced slots) (hroot : Root c t.seed.stem version r slots) :
    Runs (rebalanced t r version post) s c fun t' _ c' =>
      t.Rerooted t' ∧ Contains c' version t' (plane slots) := by
  unfold rebalanced
  refine Runs.ite ?_ ?_
  · intro hsame
    obtain rfl := hrep.eq_of_same hroot.fit.refs hcontains.fit.refs hsame
    exact Runs.pure hrep ⟨.refl t, hcontains.withRoot hplaced hroot⟩
  · intro _
    refine Runs.bind (balanced_runs hrep hroot) ?_
    rintro r' s' c' hgrows ⟨hroot', -⟩
    refine Runs.bind (PageRef.evacuated_runs hgrows.represents post hroot'.fit) ?_
    intro r'' s'' c'' hgrows' hlike
    have hroot'' := (hroot'.mono hgrows'.le).likeness hlike
    have hcontains' := hcontains.mono (hgrows.trans hgrows').le
    have hwith : t.withRoot r'' = { t with root := r'' } :=
      Tree.withRoot_eq hgrows'.represents.toMirrors hlike.fit.refs hcontains'.fit.refs
    rw [hwith]
    exact Runs.pure hgrows'.represents
      ⟨.of_root t r'', hcontains'.withRoot hplaced hroot''⟩

/-- Rebalancing gives a tree that stands for the map of the plane of its root. -/
theorem Contains.settles (hcontains : Contains c version t f) (post : Nat) :
    Settles s c t version post fun g t' _ c' => t.Rerooted t' ∧ Contains c' version t' g := by
  intro s' c' r slots hgrows hplaced hroot
  have hsince : Grows s c s' c' := hgrows
  exact rebalanced_runs hsince.represents (hcontains.mono hsince.le) post hplaced hroot

/-- A value is stored under a key at a point, or the key is taken from the point. -/
theorem update_runs (hrep : Represents s c) (hcontains : Contains c version t f)
    (key value : Value) (post : Nat) (hx : x ≤ maxCoordinate) (hy : y ≤ maxCoordinate) :
    Runs (update t key x y value version post) s c fun t' _ c' =>
      t.Rerooted t' ∧ Contains c' version t' (f.put key x y value) := by
  have hsettles := hcontains.settles (s := s) post
  obtain ⟨slots, hplaced, rfl, hroot⟩ := hcontains.root
  exact hsettles.update_runs hrep hplaced hroot hx hy key value

/-- A key is taken from a point. -/
theorem remove_runs (hrep : Represents s c) (hcontains : Contains c version t f) (key : Value)
    (post : Nat) (hx : x ≤ maxCoordinate) (hy : y ≤ maxCoordinate) :
    Runs (remove t key x y version post) s c fun t' _ c' =>
      t.Rerooted t' ∧ Contains c' version t' (f.eraseAt key x y) := by
  have hsettles := hcontains.settles (s := s) post
  obtain ⟨slots, hplaced, rfl, hroot⟩ := hcontains.root
  exact hsettles.remove_runs hrep hplaced hroot hx hy key

/-- A key is moved from one point to another. -/
theorem move_runs {oldX oldY : Nat} (hrep : Represents s c) (hcontains : Contains c version t f)
    (key value : Value) (post : Nat) (hx : x ≤ maxCoordinate) (hy : y ≤ maxCoordinate)
    (holdX : oldX ≤ maxCoordinate) (holdY : oldY ≤ maxCoordinate) :
    Runs (move t key oldX oldY x y value version post) s c fun t' _ c' =>
      t.Rerooted t' ∧ Contains c' version t' (f.move key oldX oldY x y value) := by
  have hsettles := hcontains.settles (s := s) post
  obtain ⟨slots, hplaced, rfl, hroot⟩ := hcontains.root
  exact hsettles.move_runs hrep hplaced hroot hx hy holdX holdY key value

/-! ## Empty trees -/

/-- An empty page is the root of a tree without slots. -/
theorem root_of_made {fold : Value} (hmade : Made s c (.empty .qtree stem version) fold r) :
    Root c stem version r [] :=
  have hholds : PageHolds (Subtree c) 0 (.empty .qtree stem version) [] := ⟨sorted_nil, rfl⟩
  have hsub : Subtree c 0 stem version r [] := ⟨hmade.fit, hholds.holds hmade.page⟩
  root_of_branch hsub

theorem wellPlaced_nil : WellPlaced [] :=
  ⟨List.nodup_nil, by simp⟩

/-- An empty tree stands for the empty map. -/
theorem empty_runs (hrep : Represents s c) (seed : Seed) (hkind : seed.kind = .qtree) :
    Runs (Tree.empty seed) s c fun t _ c' =>
      (Tree.ofRoot default seed).Rerooted t ∧ Contains c' 0 t .empty := by
  unfold Tree.empty
  rw [hkind]
  refine Runs.bind (ofPage_empty_runs (w := c) hrep seed.stem 0) ?_
  rintro r s' c' hgrows ⟨hroot, -⟩
  exact Runs.pure hgrows.represents ⟨rfl, hkind, [], wellPlaced_nil, rfl, hroot⟩

/-- Clearing leaves no key. -/
theorem cleared_runs (hrep : Represents s c) (hcontains : Contains c version t f) :
    Runs (t.cleared version) s c fun t' _ c' =>
      t.Rerooted t' ∧ Contains c' version t' .empty := by
  refine (Tree.cleared_cases hrep hcontains.fit.refs version).mono ?_
  rintro t' s' c' hgrows (⟨rfl, hspan⟩ | ⟨r, rfl, hmade⟩)
  · obtain ⟨slots, hplaced, rfl, hroot⟩ := hcontains.root
    obtain rfl : slots = [] :=
      List.length_eq_zero_iff.1 (by rw [← hroot.span hrep, hspan])
    exact ⟨.refl _, hcontains.mono hgrows.le⟩
  · rw [Tree.kind, hcontains.kind] at hmade
    exact ⟨.of_root t r, (hcontains.mono hgrows.le).withRoot wellPlaced_nil (root_of_made hmade)⟩

/-! ## Reading all slots -/

/-- The slots of a leaf. -/
def slotsOf {γ : Type} : PageBody γ → List Slot
  | .qtreeLeaf slots => slots
  | _ => []

/-- The entries of a tree, read leaf by leaf. -/
def entries (r : PageRef) : StoreM (List PlaneEntry) :=
  return ((← r.leaves).flatMap fun leaf => slotsOf leaf.body).map Slot.entry

theorem slotsOf_shape {γ : Type} (body : PageBody γ) : slotsOf body.shape = slotsOf body := by
  cases body <;> rfl

/-- The leaves of a Q-tree hold its slots. -/
theorem Holds.reads {depth : Nat} {shapes : List (PageBody Unit)}
    (hholds : Holds c height n slots) (hreads : c.Reads depth n shapes) :
    shapes.flatMap slotsOf = slots := by
  induction depth generalizing height n slots shapes with
  | zero => exact absurd hreads id
  | succ depth ih =>
      obtain ⟨⟨v, stem, body⟩, hp, hshapes⟩ := hreads
      cases height with
      | zero =>
          obtain ⟨-, q, hq, hbody⟩ := hholds
          rw [hp] at hq
          cases hq
          cases hbody
          rcases hshapes with ⟨-, rfl⟩ | ⟨hnode, -⟩
          · simp [PageBody.shape, PageBody.map, slotsOf]
          · cases hnode
      | succ height =>
          obtain ⟨q, children, parts, hq, hbody, hfilled, rfl⟩ := hholds
          rw [hp] at hq
          cases hq
          cases hbody
          rcases hshapes with ⟨hleaf, -⟩ | ⟨-, pieces, hpieces, rfl⟩
          · cases hleaf
          · have hsame : List.Forall₂ (fun piece part => piece.flatMap slotsOf = part)
                pieces parts :=
              forall₂_join hpieces hfilled fun _ _ _ hreads hchild => ih hchild.2 hreads
            rw [← List.forall₂_map_left_iff, List.forall₂_eq_eq_eq] at hsame
            rw [← hsame, List.flatMap_def, List.map_flatten, List.flatten_flatten, List.map_map]
            rfl

/-- Entries list a map of the plane, each key once. -/
def Lists (es : List PlaneEntry) (f : Plane) : Prop :=
  (es.map PlaneEntry.key).Nodup ∧ ∀ key e, (e ∈ es ∧ e.key = key) ↔ Plane.entry? f key = some e

/-- Slots list the map that they stand for. -/
theorem lists_entries (hplaced : WellPlaced slots) :
    Lists (slots.map Slot.entry) (plane slots) := by
  refine ⟨?_, ?_⟩
  · have hkeys : (slots.map Slot.entry).map PlaneEntry.key = slots.map Slot.key := by
      rw [List.map_map]
      rfl
    rw [hkeys]
    exact hplaced.distinct
  · intro key e
    rw [ Plane.entry?, Option.map_eq_some_iff, List.mem_map]
    constructor
    · rintro ⟨⟨slot, hslot, rfl⟩, rfl⟩
      exact ⟨slot.spot, (plane_eq_some_iff hplaced).2 ⟨slot, hslot, rfl, rfl⟩, rfl⟩
    · rintro ⟨spot, hspot, rfl⟩
      obtain ⟨slot, hslot, rfl, rfl⟩ := (plane_eq_some_iff hplaced).1 hspot
      exact ⟨⟨slot, hslot, rfl⟩, rfl⟩

/-- What the leaves of a tree hold lists the map of the plane that it stands for. -/
theorem Contains.lists {depth : Nat} {shapes : List (PageBody Unit)}
    (hcontains : Contains c version t f) (hreads : c.Reads depth t.root.site shapes) :
    Lists ((shapes.flatMap slotsOf).map Slot.entry) f := by
  obtain ⟨slots, hplaced, rfl, height, slots', hsub, hperm⟩ := hcontains.root
  rw [hsub.holds.reads hreads, ← plane_perm hplaced hperm]
  exact lists_entries (hplaced.perm hperm)

/-- The entries that are read are those of the leaves. -/
theorem entries_gather {r : PageRef} (hrep : Represents s c) (hr : c.refs r) :
    Runs (entries r) s c fun es _ c' => ∃ depth shapes, c'.Reads depth r.site shapes ∧
      es = (shapes.flatMap slotsOf).map Slot.entry := by
  refine Runs.bind (PageRef.leaves_runs hrep hr) ?_
  rintro leaves s' c' hgrows ⟨depth, hreads⟩
  refine Runs.pure hgrows.represents ⟨depth, _, hreads, ?_⟩
  simp only [List.flatMap_map, slotsOf_shape]

/-- Reading a tree leaf by leaf lists the map of the plane that it stands for. -/
theorem entries_runs (hrep : Represents s c) (hcontains : Contains c version t f) :
    Runs (entries t.root) s c fun es _ _ => Lists es f := by
  refine (entries_gather hrep hcontains.fit.refs).mono ?_
  rintro es s' c' hgrows ⟨depth, shapes, hreads, rfl⟩
  exact (hcontains.mono hgrows.le).lists hreads

end QTree
end PageTree
