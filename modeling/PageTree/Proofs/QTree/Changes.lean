import PageTree.Proofs.Cursor.Calls

/-!
# Runs of changes of a Q-tree

After any changes of a new Q-tree, look-ups answer from the map of the plane that the changes make
of the empty one, and a cursor yields each entry of that map once (`changes_plane`).
-/

namespace PageTree
namespace QTree

open StoreM

/-- A change of a map of the plane. -/
inductive Change where
  /-- Stores a value under a key at a point; `absent` takes the key away from the point. -/
  | update (key : Value) (x y : Nat) (value : Value)
  /-- Takes a key away from a point. -/
  | remove (key : Value) (x y : Nat)
  /-- Moves a key from one point to another and stores a value there. -/
  | move (key : Value) (oldX oldY newX newY : Nat) (value : Value)
  | clear
  deriving DecidableEq, Repr

namespace Change

/-- All coordinates are some that a tile can hold. -/
def Fits : Change → Prop
  | update _ x y _ | remove _ x y => x ≤ maxCoordinate ∧ y ≤ maxCoordinate
  | move _ oldX oldY newX newY _ => oldX ≤ maxCoordinate ∧ oldY ≤ maxCoordinate ∧
      newX ≤ maxCoordinate ∧ newY ≤ maxCoordinate
  | clear => True

instance : DecidablePred Fits
  | update _ _ _ _ | remove _ _ _ => inferInstanceAs (Decidable (_ ∧ _))
  | move _ _ _ _ _ _ => inferInstanceAs (Decidable (_ ∧ _))
  | clear => inferInstanceAs (Decidable True)

/-- Makes a change of a tree. -/
def apply (t : Tree) (version post : Nat) : Change → StoreM Tree
  | update key x y value => QTree.update t key x y value version post
  | remove key x y => QTree.remove t key x y version post
  | move key oldX oldY newX newY value =>
    QTree.move t key oldX oldY newX newY value version post
  | clear => t.cleared version

/-- Makes a change of a map of the plane. -/
def onPlane (f : Plane) : Change → Plane
  | update key x y value => f.put key x y value
  | remove key x y => f.eraseAt key x y
  | move key oldX oldY newX newY value => f.move key oldX oldY newX newY value
  | clear => .empty

end Change

/-- Makes changes one after another, each at a version. -/
def applyAll (t : Tree) (changes : List (Nat × Change)) : StoreM Tree :=
  changes.foldlM (fun t change => change.2.apply t change.1 0) t

variable {s : Store} {c : Chart} {version : Nat} {t : Tree} {f : Plane}

/-- A change of a tree makes the change of its map. -/
theorem Change.apply_runs (hrep : Represents s c) (hcontains : Contains c version t f)
    (post : Nat) (change : Change) (hfits : change.Fits) :
    Runs (change.apply t version post) s c fun t' _ c' =>
      Contains c' version t' (change.onPlane f) := by
  cases change with
  | update key x y value =>
      exact (update_runs hrep hcontains key value post hfits.1 hfits.2).mono
        fun _ _ _ _ hpost => hpost.2
  | remove key x y =>
      exact (remove_runs hrep hcontains key post hfits.1 hfits.2).mono
        fun _ _ _ _ hpost => hpost.2
  | move key oldX oldY newX newY value =>
      obtain ⟨holdX, holdY, hnewX, hnewY⟩ := hfits
      exact (move_runs hrep hcontains key value post hnewX hnewY holdX holdY).mono
        fun _ _ _ _ hpost => hpost.2
  | clear => exact (cleared_runs hrep hcontains).mono fun _ _ _ _ hpost => hpost.2

theorem applyAll_runs (hrep : Represents s c) (hcontains : Contains c version t f)
    (changes : List (Nat × Change)) (hversions : (changes.map Prod.fst).Pairwise (· ≤ ·))
    (hstart : ∀ change ∈ changes, version ≤ change.1)
    (hfits : ∀ change ∈ changes, change.2.Fits) :
    Runs (applyAll t changes) s c fun t' _ c' =>
      ∃ version', Contains c' version' t' ((changes.map Prod.snd).foldl Change.onPlane f) := by
  induction changes generalizing s c version t f with
  | nil => exact Runs.pure hrep ⟨version, hcontains⟩
  | cons change changes ih =>
      obtain ⟨v, change⟩ := change
      rw [List.map_cons, List.pairwise_cons] at hversions
      have hle : version ≤ v := hstart _ List.mem_cons_self
      simp only [applyAll, List.foldlM_cons]
      refine Runs.bind (change.apply_runs hrep (hcontains.raise hle) 0
        (hfits _ List.mem_cons_self)) ?_
      intro t' s' c' hgrows hcontains'
      refine ih hgrows.represents hcontains' hversions.2 ?_ ?_
      · exact fun change' hmem => hversions.1 _ (List.mem_map_of_mem hmem)
      · exact fun change' hmem => hfits change' (List.mem_cons_of_mem _ hmem)

/-- A cursor yields each entry of a tree once. -/
theorem items_runs (hrep : Represents s c) (hcontains : Contains c version t f) :
    Runs ((Cursor.start t.root Policy.tiles).items .forward) s c fun es _ _ => Lists es f := by
  have hrefs := hcontains.fit.refs
  have hkind : t.root.tree = .qtree := by
    obtain ⟨q, hq, htree, -⟩ := hcontains.fit.page
    exact (hrep.fits t.root q hrefs hq).1.trans htree
  obtain ⟨items, hitems⟩ := hrep.hasItems Policy.tiles_yieldsAll hrefs hkind
  refine (Cursor.items_start_runs hrep Policy.tiles_yieldsAll.follows hitems).mono ?_
  rintro _ s' c' - rfl
  obtain ⟨depth, shapes, hreads, rfl⟩ := hitems.reads
  rw [← List.map_flatMap]
  exact hcontains.lists hreads

/-- After any changes of a new tree, it answers from the map that the changes make of the empty
one. -/
theorem changes_plane (s : Store) (stem : Nat) (created updated : Timestamp)
    (changes : List (Nat × Change)) (hversions : (changes.map Prod.fst).Pairwise (· ≤ ·))
    (hfits : ∀ change ∈ changes, change.2.Fits) :
    ∃ t s', exec (do applyAll (← Tree.empty ⟨.qtree, stem, created, updated⟩) changes) s =
        (.ok t, s') ∧
      (∀ key x y, x ≤ maxCoordinate → y ≤ maxCoordinate → (exec (get? t key x y) s').1 =
        .ok (((changes.map Prod.snd).foldl Change.onPlane .empty).valueAt? key x y)) ∧
      (∀ key, (exec ( entry? t key) s').1 =
        .ok ( Plane.entry? ((changes.map Prod.snd).foldl Change.onPlane .empty) key)) ∧
      ∃ es, (exec ((Cursor.start t.root Policy.tiles).items .forward) s').1 = .ok es ∧
        Lists es ((changes.map Prod.snd).foldl Change.onPlane .empty) := by
  have hrep : Represents s .blank := represents_blank s
  have hserves : Serves s .blank := Or.inl fun r hr => absurd hr id
  have hruns : Runs (do applyAll (← Tree.empty ⟨.qtree, stem, created, updated⟩) changes) s .blank
      fun t _ c => ∃ version,
        Contains c version t ((changes.map Prod.snd).foldl Change.onPlane .empty) := by
    refine Runs.bind (empty_runs hrep ⟨.qtree, stem, created, updated⟩ rfl) ?_
    rintro t s' c' hgrows ⟨-, hcontains⟩
    exact applyAll_runs hgrows.represents hcontains changes hversions
      (fun _ _ => Nat.zero_le _) hfits
  obtain ⟨t, s', c', hexec, hgrows, version, hcontains⟩ := hruns.succeeds hserves
  have hserves' := hgrows.serves hserves
  refine ⟨t, s', hexec, ?_, ?_, ?_⟩
  · intro key x y hx hy
    obtain ⟨found, s'', c'', hfound, -, rfl⟩ :=
      (get_runs hgrows.represents hcontains key hx hy).succeeds hserves'
    rw [hfound]
  · intro key
    obtain ⟨found, s'', c'', hfound, -, rfl⟩ :=
      (entry_runs hgrows.represents hcontains key).succeeds hserves'
    rw [hfound]
  · obtain ⟨es, s'', c'', hitems, -, hlists⟩ :=
      (items_runs hgrows.represents hcontains).succeeds hserves'
    exact ⟨es, by rw [hitems], hlists⟩

/-- A key that is stored at a point, moved and removed from the point where it was before, on
pages that are split as soon as they can be. -/
theorem changes_plane_move :
    [1, 1, 2].Pairwise (· ≤ ·) ∧
      ∃ t s', exec (do
          applyAll (← Tree.empty ⟨.qtree, 1, ⟨0⟩, ⟨0⟩⟩)
            [(1, .update (.int 1) 3 4 (.int 10)), (1, .move (.int 1) 3 4 5 6 (.int 20)),
              (2, .remove (.int 1) 3 4)])
          (.create { Settings.forTrials with pageSplitSize := 0 } false ⟨0⟩) = (.ok t, s') ∧
        (exec (get? t (.int 1) 3 4) s').1 = .ok none ∧
        (exec (get? t (.int 1) 5 6) s').1 = .ok (some (.int 20)) ∧
        (exec ( entry? t (.int 1)) s').1 = .ok (some ⟨.int 1, 5, 6, .int 20⟩) ∧
        ∃ es, (exec ((Cursor.start t.root Policy.tiles).items .forward) s').1 = .ok es ∧
          Lists es (Plane.store (.int 1) ⟨5, 6, .int 20⟩ .empty) := by
  refine ⟨by decide, ?_⟩
  obtain ⟨t, s', hexec, hget, hentry, hitems⟩ := changes_plane
    (.create { Settings.forTrials with pageSplitSize := 0 } false ⟨0⟩) 1 ⟨0⟩ ⟨0⟩
    [(1, .update (.int 1) 3 4 (.int 10)), (1, .move (.int 1) 3 4 5 6 (.int 20)),
      (2, .remove (.int 1) 3 4)] (by decide) (by decide)
  have hplane : ([.update (.int 1) 3 4 (.int 10), .move (.int 1) 3 4 5 6 (.int 20),
      .remove (.int 1) 3 4] : List Change).foldl Change.onPlane .empty =
        Plane.store (.int 1) ⟨5, 6, .int 20⟩ .empty := by
    funext key
    by_cases hkey : key = .int 1 <;>
      simp [Change.onPlane, Plane.put, Plane.move, Plane.store, Plane.eraseAt, Value.isDefined,
        hkey]
  simp only [List.map_cons, List.map_nil, hplane] at hget hentry hitems
  refine ⟨t, s', hexec, ?_, ?_, ?_, hitems⟩
  · rw [hget (.int 1) 3 4 (by decide) (by decide)]
    rfl
  · rw [hget (.int 1) 5 6 (by decide) (by decide)]
    rfl
  · rw [hentry]
    rfl

end QTree
end PageTree
