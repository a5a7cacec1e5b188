import PageTree.BTree.Basic
import PageTree.Proofs.BTree.Change
import PageTree.Proofs.BTree.Holds
import PageTree.Proofs.Trees

/-!
# A B-tree is an ordered map

Each operation on a tree makes of its entries what the same operation makes of a listing, and a
run of operations on a new tree ends with a tree whose leaves, read from left to right, hold
the listing that the run gives (`changes_entries`).
-/

namespace PageTree
namespace BTree

open StoreM Entries

variable {s : Store} {c : Chart} {height stem version : Nat} {es : List Entry} {r r' : PageRef}
  {n n' : Site}

/-! ## Trees alike hold the same -/

theorem Keyed.alike {children children' : List (Value × Site)} {parts : List (List Entry)}
    (hkeyed : Keyed (Holds c height) children parts)
    (hkeys : children'.map (fun child => (child.1, ())) = children.map fun child => (child.1, ()))
    (halike : List.Forall₂ c.Alike (children.map Prod.snd) (children'.map Prod.snd))
    (hholds : ∀ n n' es, c.Alike n n' → Holds c height n es → Holds c height n' es) :
    Keyed (Holds c height) children' parts := by
  induction hkeyed generalizing children' with
  | nil =>
      obtain rfl : children' = [] := by simpa using hkeys
      exact List.Forall₂.nil
  | @cons child part children parts hchild _ ih =>
      cases children' with
      | nil => simp at hkeys
      | cons child' children' =>
          simp only [List.map_cons, List.cons.injEq, Prod.mk.injEq, and_true] at hkeys
          obtain ⟨hfirst, hrest⟩ := List.forall₂_cons.1 halike
          refine List.Forall₂.cons ⟨?_, hholds _ _ _ hfirst hchild.2⟩ (ih hkeys.2 hrest)
          rw [hkeys.1]
          exact hchild.1

theorem Holds.alike (halike : c.Alike n n') (hholds : Holds c height n es) :
    Holds c height n' es := by
  induction height generalizing n n' es with
  | zero =>
      obtain ⟨hsorted, p, hp, hbody⟩ := hholds
      obtain ⟨p', hp', hshape, -⟩ := halike.page_of hp
      refine ⟨hsorted, p', hp', ?_⟩
      rw [hbody] at hshape
      cases hbody' : p'.body <;> simp [hbody', PageBody.shape, PageBody.map] at hshape
      rw [hshape]
  | succ height ih =>
      obtain ⟨hsorted, p, children, parts, hp, hbody, hkeyed, rfl⟩ := hholds
      obtain ⟨p', hp', hshape, hchildren⟩ := halike.page_of hp
      rw [hbody] at hshape
      cases hbody' : p'.body with
      | btreeNode children' =>
          refine ⟨hsorted, p', children', parts, hp', hbody', ?_, rfl⟩
          refine hkeyed.alike ?_ ?_ fun _ _ _ => ih
          · simpa [hbody', PageBody.shape, PageBody.map] using hshape
          · simpa [Page.children, hbody, hbody'] using hchildren
      | _ => simp [hbody', PageBody.shape, PageBody.map] at hshape

theorem Root.likeness {version' : Nat} (hroot : Root c stem version r es)
    (hlike : c.Likeness .btree stem version' r.site r') : Root c stem version' r' es := by
  obtain ⟨height, -, hholds⟩ := hroot
  exact ⟨height, hlike.fit, hholds.alike hlike.alike⟩

theorem Root.mono {c' : Chart} (hle : c ≤ c') (hroot : Root c stem version r es) :
    Root c' stem version r es := by
  obtain ⟨height, hsub⟩ := hroot
  exact ⟨height, hsub.mono hle⟩

theorem Root.raise {version' : Nat} (hroot : Root c stem version r es)
    (hle : version ≤ version') : Root c stem version' r es := by
  obtain ⟨height, hsub⟩ := hroot
  exact ⟨height, hsub.raise hle⟩

theorem Root.fit (hroot : Root c stem version r es) : c.Fit .btree stem version r := by
  obtain ⟨height, hsub⟩ := hroot
  exact hsub.fit

theorem Root.sorted (hroot : Root c stem version r es) : Sorted es := by
  obtain ⟨height, hsub⟩ := hroot
  exact hsub.holds.sorted

theorem Root.span (hrep : Represents s c) (hroot : Root c stem version r es) :
    r.span = es.length := by
  obtain ⟨height, hsub⟩ := hroot
  exact hsub.span hrep

/-- The entries of a tree are determined. -/
theorem Root.unique {stem' version' : Nat} {es' : List Entry} (hroot : Root c stem version r es)
    (hroot' : Root c stem' version' r es') : es = es' := by
  obtain ⟨height, hsub⟩ := hroot
  obtain ⟨height', hsub'⟩ := hroot'
  exact hsub.holds.unique hsub'.holds

/-! ## Operations on trees -/

/-- A B-tree with entries, none of its pages newer than a version. -/
structure Contains (c : Chart) (version : Nat) (t : Tree) (es : List Entry) : Prop where
  kind : t.seed.kind = .btree
  root : Root c t.seed.stem version t.root es

variable {t : Tree} {version' : Nat} {es' : List Entry}

theorem Contains.raise (hcontains : Contains c version t es) (hle : version ≤ version') :
    Contains c version' t es :=
  ⟨hcontains.kind, hcontains.root.raise hle⟩

theorem Contains.mono {c' : Chart} (hle : c ≤ c') (hcontains : Contains c version t es) :
    Contains c' version t es :=
  ⟨hcontains.kind, hcontains.root.mono hle⟩

/-- A tree with another root. -/
theorem Contains.withRoot (hcontains : Contains c version t es)
    (hroot : Root c t.seed.stem version' r es') : Contains c version' { t with root := r } es' :=
  ⟨hcontains.kind, hroot⟩

/-- A tree is balanced and evacuated after a change of its root. -/
theorem rebalanced_runs (hrep : Represents s c) (hcontains : Contains c version t es) (post : Nat)
    (hroot : Root c t.seed.stem version r es') :
    Runs (rebalanced t r version post) s c fun t' _ c' =>
      t.Rerooted t' ∧ Contains c' version t' es' ∧ (r = t.root → t' = t) := by
  unfold rebalanced
  refine Runs.ite ?_ ?_
  · intro hsame
    obtain rfl := hrep.eq_of_same hroot.fit.refs hcontains.root.fit.refs hsame
    rw [hroot.unique hcontains.root]
    exact Runs.pure hrep ⟨.refl t, hcontains, fun _ => rfl⟩
  · intro hmoved
    refine Runs.bind (balanced_runs hrep hroot) ?_
    rintro r' s' c' hgrows ⟨hroot', -⟩
    refine Runs.bind (PageRef.evacuated_runs hgrows.represents post hroot'.fit) ?_
    intro r'' s'' c'' hgrows' hlike
    have hroot'' := (hroot'.mono hgrows'.le).likeness hlike
    have hcontains' := hcontains.mono (hgrows.trans hgrows').le
    have hwith : t.withRoot r'' = { t with root := r'' } :=
      Tree.withRoot_eq hgrows'.represents.toMirrors hlike.fit.refs hcontains'.root.fit.refs
    rw [hwith]
    refine Runs.pure hgrows'.represents ⟨.of_root t r'', hcontains'.withRoot hroot'', ?_⟩
    rintro rfl
    exact absurd (by simp [PageRef.same]) hmoved

/-- A value is stored under a key, or the key is removed. -/
theorem update_runs (hrep : Represents s c) (hcontains : Contains c version t es)
    (key value : Value) (post : Nat) :
    Runs (update t key value version post) s c fun t' _ c' =>
      t.Rerooted t' ∧ Contains c' version t' (Listing.update key value es) ∧
        (Listing.update key value es = es → t' = t) := by
  refine Runs.bind (updated_runs hrep hcontains.root) ?_
  rintro r s' c' hgrows ⟨hroot, hstays⟩
  refine (rebalanced_runs hgrows.represents (hcontains.mono hgrows.le) post hroot).mono ?_
  rintro t' s'' c'' - ⟨hrerooted, hcontains', hsame⟩
  exact ⟨hrerooted, hcontains', fun heq => hsame (hstays heq)⟩

/-- The first entries are dropped. -/
theorem drop_runs (hrep : Represents s c) (hcontains : Contains c version t es)
    (lower post : Nat) :
    Runs (drop t lower version post) s c fun t' _ c' =>
      t.Rerooted t' ∧ Contains c' version t' (es.drop lower) := by
  refine Runs.bind (dropped_runs hrep lower hcontains.root) ?_
  intro r s' c' hgrows hroot
  exact (rebalanced_runs hgrows.represents (hcontains.mono hgrows.le) post hroot).mono
    fun _ _ _ _ hpost => ⟨hpost.1, hpost.2.1⟩

/-- Only the first entries are kept. -/
theorem take_runs (hrep : Represents s c) (hcontains : Contains c version t es)
    (upper post : Nat) :
    Runs (take t upper version post) s c fun t' _ c' =>
      t.Rerooted t' ∧ Contains c' version t' (es.take upper) := by
  refine Runs.bind (taken_runs hrep upper hcontains.root) ?_
  intro r s' c' hgrows hroot
  exact (rebalanced_runs hgrows.represents (hcontains.mono hgrows.le) post hroot).mono
    fun _ _ _ _ hpost => ⟨hpost.1, hpost.2.1⟩

/-- An empty page is the root of a tree without entries. -/
theorem root_of_made {s : Store} {fold : Value}
    (hmade : Made s c (.empty .btree stem version) fold r) : Root c stem version r [] :=
  have hholds : PageHolds (Subtree c) 0 (.empty .btree stem version) [] := rfl
  ⟨0, hmade.fit, hholds.holds hmade.page Sorted.nil⟩

/-- An empty tree has no entries. -/
theorem empty_runs (hrep : Represents s c) (seed : Seed) (hkind : seed.kind = .btree) :
    Runs (Tree.empty seed) s c fun t _ c' =>
      (Tree.ofRoot default seed).Rerooted t ∧ Contains c' 0 t [] := by
  unfold Tree.empty
  rw [hkind]
  refine Runs.bind (ofPage_empty_runs (w := c) hrep seed.stem 0) ?_
  rintro r s' c' hgrows ⟨hroot, -⟩
  exact Runs.pure hgrows.represents ⟨rfl, hkind, hroot⟩

/-- Clearing leaves no entries. -/
theorem cleared_runs (hrep : Represents s c) (hcontains : Contains c version t es) :
    Runs (t.cleared version) s c fun t' _ c' =>
      t.Rerooted t' ∧ Contains c' version t' [] := by
  refine (Tree.cleared_cases hrep hcontains.root.fit.refs version).mono ?_
  rintro t' s' c' hgrows (⟨rfl, hspan⟩ | ⟨r, rfl, hmade⟩)
  · obtain rfl : es = [] :=
      List.length_eq_zero_iff.1 (by rw [← hcontains.root.span hrep, hspan])
    exact ⟨.refl _, hcontains.mono hgrows.le⟩
  · rw [Tree.kind, hcontains.kind] at hmade
    exact ⟨.of_root t r, (hcontains.mono hgrows.le).withRoot (root_of_made hmade)⟩

/-! ## Reading all entries -/

/-- The entries of a leaf. -/
def slotsOf {γ : Type} : PageBody γ → List Entry
  | .btreeLeaf slots => slots
  | _ => []

/-- The entries of a tree, read leaf by leaf. -/
def entries (r : PageRef) : StoreM (List Entry) :=
  return (← r.leaves).flatMap fun leaf => slotsOf leaf.body

theorem slotsOf_shape {γ : Type} (body : PageBody γ) : slotsOf body.shape = slotsOf body := by
  cases body <;> rfl

/-- The leaves of a B-tree hold its entries in order. -/
theorem Holds.reads {depth : Nat} {shapes : List (PageBody Unit)} (hholds : Holds c height n es)
    (hreads : c.Reads depth n shapes) : shapes.flatMap slotsOf = es := by
  induction depth generalizing height n es shapes with
  | zero => exact absurd hreads id
  | succ depth ih =>
      obtain ⟨⟨v, stem, body⟩, hp, hshapes⟩ := hreads
      rcases hshapes with ⟨hleaf, rfl⟩ | ⟨hnode, pieces, hpieces, rfl⟩
      · obtain rfl : body = .btreeLeaf es := hholds.of_leaf hp hleaf
        simp [PageBody.shape, PageBody.map, slotsOf]
      · obtain ⟨below, children, parts, rfl, hkeyed, rfl⟩ := hholds.of_isNode hp hnode
        have hsame : List.Forall₂ (fun piece part => piece.flatMap slotsOf = part) pieces parts :=
          forall₂_join hpieces hkeyed.beneath fun _ _ _ hreads hholds => ih hholds hreads
        rw [← List.forall₂_map_left_iff, List.forall₂_eq_eq_eq] at hsame
        rw [← hsame, List.flatMap_def, List.map_flatten, List.flatten_flatten, List.map_map]
        rfl

/-- Reading a tree leaf by leaf gives its entries. -/
theorem entries_runs (hrep : Represents s c) (hroot : Root c stem version r es) :
    Runs (entries r) s c fun es' _ _ => es' = es := by
  refine Runs.bind (PageRef.leaves_runs hrep hroot.fit.refs) ?_
  rintro leaves s' c' hgrows ⟨depth, hreads⟩
  obtain ⟨height, hsub⟩ := hroot.mono hgrows.le
  refine Runs.pure hgrows.represents ?_
  rw [← hsub.holds.reads hreads, List.flatMap_map]
  simp only [slotsOf_shape]

/-! ## Runs of changes -/

/-- A change of an ordered map. -/
inductive Change where
  /-- Stores a value under a key; `absent` removes the key. -/
  | update (key value : Value)
  | remove (key : Value)
  /-- Removes the first entries. -/
  | drop (lower : Nat)
  /-- Keeps only the first entries. -/
  | take (upper : Nat)
  | clear
  deriving DecidableEq, Repr

namespace Change

/-- Makes a change of a tree. -/
def apply (t : Tree) (version post : Nat) : Change → StoreM Tree
  | update key value => BTree.update t key value version post
  | remove key => BTree.remove t key version post
  | drop lower => BTree.drop t lower version post
  | take upper => BTree.take t upper version post
  | clear => t.cleared version

/-- Makes a change of a listing. -/
def onListing (es : List Entry) : Change → List Entry
  | update key value => Listing.update key value es
  | remove key => Listing.erase key es
  | drop lower => es.drop lower
  | take upper => es.take upper
  | clear => []

end Change

/-- Makes changes one after another, each at a version. -/
def applyAll (t : Tree) (changes : List (Nat × Change)) : StoreM Tree :=
  changes.foldlM (fun t change => change.2.apply t change.1 0) t

/-- A change of a tree makes the change of its entries. -/
theorem Change.apply_runs (hrep : Represents s c) (hcontains : Contains c version t es)
    (post : Nat) (change : Change) :
    Runs (change.apply t version post) s c fun t' _ c' =>
      Contains c' version t' (change.onListing es) := by
  cases change with
  | update key value =>
      exact (update_runs hrep hcontains key value post).mono fun _ _ _ _ hpost => hpost.2.1
  | remove key =>
      exact (update_runs hrep hcontains key .absent post).mono fun _ _ _ _ hpost => hpost.2.1
  | drop lower => exact (drop_runs hrep hcontains lower post).mono fun _ _ _ _ hpost => hpost.2
  | take upper => exact (take_runs hrep hcontains upper post).mono fun _ _ _ _ hpost => hpost.2
  | clear => exact (cleared_runs hrep hcontains).mono fun _ _ _ _ hpost => hpost.2

/-- Changes at versions that do not go back make the changes of the entries. -/
theorem applyAll_runs (hrep : Represents s c) (hcontains : Contains c version t es)
    (changes : List (Nat × Change)) (hversions : (changes.map Prod.fst).Pairwise (· ≤ ·))
    (hstart : ∀ change ∈ changes, version ≤ change.1) :
    Runs (applyAll t changes) s c fun t' _ c' =>
      ∃ version', Contains c' version' t' ((changes.map Prod.snd).foldl Change.onListing es) := by
  induction changes generalizing s c version t es with
  | nil => exact Runs.pure hrep ⟨version, hcontains⟩
  | cons change changes ih =>
      obtain ⟨v, change⟩ := change
      rw [List.map_cons, List.pairwise_cons] at hversions
      have hle : version ≤ v := hstart _ List.mem_cons_self
      simp only [applyAll, List.foldlM_cons]
      refine Runs.bind (change.apply_runs hrep (hcontains.raise hle) 0) ?_
      intro t' s' c' hgrows hcontains'
      refine ih hgrows.represents hcontains' hversions.2 ?_
      exact fun change' hmem => hversions.1 _ (List.mem_map_of_mem hmem)

/-- Changes of a new tree in memory succeed, with a chart of what has been made. -/
theorem exists_applied (s : Store) (seed : Seed) (hkind : seed.kind = .btree)
    (changes : List (Nat × Change)) (hversions : (changes.map Prod.fst).Pairwise (· ≤ ·)) :
    ∃ t s' c version, exec (do applyAll (← Tree.empty seed) changes) s = (.ok t, s') ∧
      Represents s' c ∧ Serves s' c ∧
        Contains c version t ((changes.map Prod.snd).foldl Change.onListing []) := by
  have hruns : Runs (do applyAll (← Tree.empty seed) changes) s .blank fun t _ c => ∃ version,
      Contains c version t ((changes.map Prod.snd).foldl Change.onListing []) := by
    refine Runs.bind (empty_runs (represents_blank s) seed hkind) ?_
    rintro t s' c' hgrows ⟨-, hcontains⟩
    exact applyAll_runs hgrows.represents hcontains changes hversions fun _ _ => Nat.zero_le _
  have hserves : Serves s .blank := Or.inl fun r hr => absurd hr id
  obtain ⟨t, s', c', hexec, hgrows, version, hcontains⟩ := hruns.succeeds hserves
  exact ⟨t, s', c', version, hexec, hgrows.represents, hgrows.serves hserves, hcontains⟩

/-- After any changes of a new tree, its leaves from left to right hold what the changes make of
an empty listing. -/
theorem changes_entries (s : Store) (stem : Nat) (created updated : Timestamp)
    (changes : List (Nat × Change)) (hversions : (changes.map Prod.fst).Pairwise (· ≤ ·)) :
    ∃ t s', exec (do applyAll (← Tree.empty ⟨.btree, stem, created, updated⟩) changes) s =
        (.ok t, s') ∧
      (exec (entries t.root) s').1 = .ok ((changes.map Prod.snd).foldl Change.onListing []) ∧
      Sorted ((changes.map Prod.snd).foldl Change.onListing []) ∧
      t.span = ((changes.map Prod.snd).foldl Change.onListing []).length := by
  have hrep : Represents s .blank := represents_blank s
  have hserves : Serves s .blank := Or.inl fun r hr => absurd hr id
  have hruns : Runs (do applyAll (← Tree.empty ⟨.btree, stem, created, updated⟩) changes) s .blank
      fun t _ c => ∃ version,
        Contains c version t ((changes.map Prod.snd).foldl Change.onListing []) := by
    refine Runs.bind (empty_runs hrep ⟨.btree, stem, created, updated⟩ rfl) ?_
    rintro t s' c' hgrows ⟨-, hcontains⟩
    exact applyAll_runs hgrows.represents hcontains changes hversions fun _ _ => Nat.zero_le _
  obtain ⟨t, s', c', hexec, hgrows, version, hcontains⟩ := hruns.succeeds hserves
  obtain ⟨es, s'', c'', hread, -, rfl⟩ :=
    (entries_runs hgrows.represents hcontains.root).succeeds (hgrows.serves hserves)
  refine ⟨t, s', hexec, by rw [hread], hcontains.root.sorted, ?_⟩
  exact hcontains.root.span hgrows.represents

/-- Two puts and a drop on pages that are split as soon as they can be. -/
theorem changes_entries_puts_and_drop :
    [1, 1, 2].Pairwise (· ≤ ·) ∧
      ∃ t s', exec (do
          applyAll (← Tree.empty ⟨.btree, 1, ⟨0⟩, ⟨0⟩⟩)
            [(1, .update (.int 2) (.int 20)), (1, .update (.int 1) (.int 10)), (2, .drop 1)])
          (.create { Settings.forTrials with pageSplitSize := 0 } false ⟨0⟩) = (.ok t, s') ∧
        (exec (entries t.root) s').1 = .ok [(.int 2, .int 20)] ∧
        Sorted [(.int 2, .int 20)] ∧ t.span = 1 :=
  ⟨by decide, changes_entries (.create { Settings.forTrials with pageSplitSize := 0 } false ⟨0⟩)
    1 ⟨0⟩ ⟨0⟩
    [(1, .update (.int 2) (.int 20)), (1, .update (.int 1) (.int 10)), (2, .drop 1)] (by decide)⟩

end BTree
end PageTree
