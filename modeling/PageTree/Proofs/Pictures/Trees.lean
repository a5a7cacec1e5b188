import PageTree.Proofs.Pictures.Rebuild
import PageTree.Proofs.Pictures.Walks
import PageTree.Proofs.Posts.Reads
import PageTree.Tree.Basic

/-!
# Reads and reworks of trees

Each read of a tree gives what the picture of the tree tells (`Query.run_told`), whatever the store
has in memory, wherever the pages lie and whatever their versions are.  Folds are not told, so the
reads of two trees give the same where one picture only has more folds known (`Refines.told`).

A `Rework` is an operation that gives a tree other pages and keeps what is in them: evacuation,
folding, commits, taking commits back, loading and rebasing.  Each of them keeps the picture of the
tree and can be done in every sound gallery (`Rework.run_yields`); only folding changes it, and to
one that refines it.
-/

namespace PageTree

section Reads

open StoreM

variable {ι : Type}

/-! ## What a picture tells -/

namespace Picture

/-- The value of a register. -/
def value (t : Picture) : Value :=
  match t.shape with
  | .utreeLeaf value => value
  | _ => .absent

/-- What is yielded by a policy that enters all subtrees. -/
def allItems (itemsOf : PageBody Unit → List ι) (t : Picture) : List ι :=
  t.items (fun _ => true) fun body index => (itemsOf body)[index]?

/-- What is yielded within a region. -/
def regionItems (x y : Tile) (t : Picture) : List PlaneEntry :=
  t.items (fun extent => 0 < extent.1 && Policy.overlaps (x, y) extent.2.1 extent.2.2)
    fun body index => (((QTree.slotsOf body)[index]?).filter fun slot =>
      Policy.overlaps (x, y) slot.x slot.y).map Slot.entry

end Picture

namespace Query

/-- What a picture tells. -/
def told (t : Picture) : (query : Query) → Except StoreError query.Answer
  | find key => .ok (t.search (BTree.lookFind key) () : Option Value)
  | contains key => .ok (t.search (BTree.lookFind key) ()).isSome
  | first => .ok (t.search BTree.lookFirst () : Option Entry)
  | last => .ok (t.search BTree.lookLast () : Option Entry)
  | next key => .ok (t.search (BTree.lookNext key) () : Option Entry)
  | previous key => .ok (t.search (BTree.lookPrevious key) () : Option Entry)
  | indexOf key => .ok (t.search (BTree.lookIndex key) 0 : Option Nat)
  | entry index =>
    .ok (if t.extent.1 ≤ index then none else (t.search BTree.lookEntry index : Option Entry))
  | entries => .ok (t.allItems BTree.slotsOf)
  | value => .ok t.value
  | valueAt key x y =>
    (Point.ofCoordinates x y).map fun point =>
      (t.search (QTree.lookFind key point) ()).map Slot.value
  | locate key => .ok ((t.search (QTree.lookLocate key) ()).map Slot.entry)
  | tiles => .ok (t.allItems fun body => (QTree.slotsOf body).map Slot.entry)
  | region x y => .ok (t.regionItems x y)

end Query

/-- Folds are not told. -/
theorem Picture.Refines.told {t t' : Picture} (hrefines : t.Refines t') (query : Query) :
    query.told t' = query.told t := by
  cases query <;> simp only [Query.told, Picture.allItems, Picture.regionItems, Picture.value,
    hrefines.search, hrefines.items, hrefines.extent, hrefines.shape]

/-! ## What reads give -/

/-- The operation gives what is told; unless loads are `sure` to succeed, it may fail. -/
def Gallery.Tells {α : Type} (sure : Prop) (act : StoreM α) (g : Gallery)
    (told : Except StoreError α) : Prop :=
  (exec act g.store).1 = told ∨ ¬ sure ∧ ∃ e, (exec act g.store).1 = .error e

theorem Yielding.tells {α : Type} {sure : Prop} {act : StoreM α} {g : Gallery} {a : α}
    (hact : Yields sure act g fun b _ => b = a) : g.Tells sure act (.ok a) := by
  rcases hact with ⟨b, g', hexec, -, -, rfl⟩ | ⟨hunsure, e, s, hexec⟩
  · exact Or.inl (by rw [hexec])
  · exact Or.inr ⟨hunsure, e, by rw [hexec]⟩

theorem Yielding.map {α β : Type} {sure : Prop} {act : StoreM α} {g : Gallery} {a : α} (f : α → β)
    (hact : Yields sure act g fun b _ => b = a) :
    Yields sure (act >>= fun b => Pure.pure (f b) : StoreM β) g fun b _ => b = f a :=
  Yielding.bind hact fun _ _ _ hsound heq => Yielding.pure hsound (congrArg f heq)

theorem BTree.entry_yields {sure : Prop} {g : Gallery} {r : PageRef} {t : Picture}
    (hsound : g.Sound sure) (hr : g.shows r t) (index : Nat) :
    Yields sure ( entry? r index) g fun b _ =>
      b = if t.extent.1 ≤ index then none else t.search lookEntry index := by
  have hspan : r.span = t.extent.1 := congrArg Prod.fst (hsound.tells hr).extent
  rw [ entry?, hspan]
  by_cases hle : t.extent.1 ≤ index
  · simp only [if_pos hle]
    exact Yielding.pure hsound rfl
  · simp only [if_neg hle]
    exact Yielding.get (entryWithin_yields hsound hr (indexedDepthBound_lt _ _ _) index)

theorem UTree.get_yields {sure : Prop} {g : Gallery} {t : Tree} {T : Picture}
    (hsound : g.Sound sure) (ht : g.shows t.root T) :
    Yields sure (get t) g fun b _ => b = T.value := by
  refine Yielding.bind (PageRef.page_yields hsound ht) ?_
  rintro ⟨version, stem, body⟩ g' - hsound' hsees
  rw [Picture.value, ← hsees.draws.shape]
  cases body with
  | utreeLeaf value => exact Yielding.pure hsound' rfl
  | _ => exact Yielding.pure hsound' rfl

/-- Each read of a tree gives what the picture of the tree tells. -/
theorem Query.run_told {sure : Prop} {g : Gallery} {t : Tree} {T : Picture}
    (hsound : g.Sound sure) (ht : g.shows t.root T) (query : Query) :
    g.Tells sure (query.run t) (query.told T) := by
  have hdepth := fun s : Store => s.treeSize_lt_depthBound t.root
  have hfind : ∀ key, Yields sure (BTree.find? t.root key) g
      fun b _ => b = T.search (BTree.lookFind key) () := fun key =>
    Yielding.get (BTree.findWithin_yields hsound ht (hdepth _) key)
  cases query with
  | find key => exact Yielding.tells (hfind key)
  | contains key => exact Yielding.tells (Yielding.map Option.isSome (hfind key))
  | first => exact Yielding.tells (Yielding.get (BTree.firstWithin_yields hsound ht (hdepth _)))
  | last => exact Yielding.tells (Yielding.get (BTree.lastWithin_yields hsound ht (hdepth _)))
  | next key =>
      exact Yielding.tells (Yielding.get (BTree.nextWithin_yields hsound ht (hdepth _) key))
  | previous key =>
      exact Yielding.tells (Yielding.get (BTree.previousWithin_yields hsound ht (hdepth _) key))
  | indexOf key =>
      exact Yielding.tells (Yielding.get (BTree.indexWithin_yields hsound ht (hdepth _) key 0))
  | entry index => exact Yielding.tells (BTree.entry_yields hsound ht index)
  | entries =>
      exact Yielding.tells (Cursor.start_items_yields Policy.entries_yieldsAll.sifts hsound ht)
  | value => exact Yielding.tells (UTree.get_yields hsound ht)
  | valueAt key x y =>
      show g.Tells sure (QTree.get? t key x y) ((Point.ofCoordinates x y).map _)
      rw [QTree.get?, QTree.pointAt]
      cases Point.ofCoordinates x y with
      | error e => exact Or.inl rfl
      | ok point =>
          have hfound : Yields sure (QTree.find? t.root key point) g
              fun b _ => b = T.search (QTree.lookFind key point) () :=
            Yielding.get (QTree.findWithin_yields hsound ht (hdepth _) key point)
          exact Yielding.tells (Yielding.map (Option.map Slot.value) hfound)
  | locate key =>
      have hfound : Yields sure (QTree.locate? t.root key) g
          fun b _ => b = T.search (QTree.lookLocate key) () :=
        Yielding.get (QTree.locateWithin_yields hsound ht (hdepth _) key)
      exact Yielding.tells (Yielding.map (Option.map Slot.entry) hfound)
  | tiles =>
      exact Yielding.tells (Cursor.start_items_yields Policy.tiles_yieldsAll.sifts hsound ht)
  | region x y =>
      exact Yielding.tells (Cursor.start_items_yields (Policy.region_sifts x y) hsound ht)

end Reads

open StoreM

/-! ## Reworks -/

/-- An operation that gives a tree other pages. -/
inductive Rework where
  | evacuate (post version : Nat)
  | reduce (f : PageRef.Folding) (version : Nat)
  /-- Gives the pages the places that they would have in a diff. -/
  | commit (zone base version : Nat)
  /-- Writes the pages into a diff. -/
  | build (zone base version : Nat)
  | uncommit (version : Nat)
  | load
  /-- Takes over the committed pages of a snapshot. -/
  | rebase (snapshot committed : Tree)

namespace Rework

/-- Reworks a tree. -/
def run (t : Tree) : Rework → StoreM Tree
  | evacuate post version => t.evacuated post version
  | reduce f version => t.reduced f version
  | commit zone base version => t.committed zone base version
  | build zone base version => return (← t.buildDiff zone base version).2
  | uncommit version => t.uncommitted version
  | load => t.loaded
  | rebase snapshot committed => do
    t.rebased (← snapshot.root.pairCommitted committed.root)

/-- The operation computes folds. -/
def Folds : Rework → Prop
  | reduce _ _ => True
  | _ => False

/-- What the operation takes over has the picture of what it replaces. -/
def Fits (g : Gallery) : Rework → Prop
  | rebase snapshot committed => ∃ S, g.shows snapshot.root S ∧ g.shows committed.root S
  | _ => True

end Rework

/-! ## Trees with new roots -/

namespace Tree

variable {sure : Prop} {g : Gallery} {t : Tree} {T T' : Picture} {root : PageRef}

/-- A tree gets the root that it is given, even if it is said to stay the same. -/
theorem withRoot_eq_of_shows (hsound : g.Sound sure) (ht : g.shows t.root T)
    (hroot : g.shows root T') : t.withRoot root = { t with root } := by
  rw [withRoot]
  split
  · next hsame =>
      obtain ⟨rfl, -⟩ := hsound.unique hroot ht (by simpa [PageRef.same] using hsame)
      rfl
  · rfl

/-- The tree has another root, which has a picture, and is the same tree in all else that lasts. -/
structure Reworked (t : Tree) (T : Picture) (t' : Tree) (g : Gallery) : Prop where
  kind : t'.kind = t.kind
  stem : t'.seed.stem = t.seed.stem
  created : t'.seed.created = t.seed.created
  shown : g.shows t'.root T

theorem withRoot_yields {act : StoreM PageRef} {P : Picture → Prop} (ht : g.shows t.root T)
    (hact : Yields sure act g fun root g' => ∃ T', P T' ∧ g'.shows root T') :
    Yields sure (act >>= fun root => pure (t.withRoot root) : StoreM Tree) g
      fun t' g' => ∃ T', P T' ∧ t.Reworked T' t' g' := by
  refine Yielding.bind hact ?_
  rintro root g' hle hsound' ⟨T', hP, hroot⟩
  rw [withRoot_eq_of_shows hsound' (hle.shows _ _ ht) hroot]
  exact Yielding.pure hsound' ⟨T', hP, rfl, rfl, rfl, hroot⟩

theorem withRoot_keeps {act : StoreM PageRef} (ht : g.shows t.root T)
    (hact : Yields sure act g fun root g' => g'.shows root T) :
    Yields sure (act >>= fun root => pure (t.withRoot root) : StoreM Tree) g
      fun t' g' => t.Reworked T t' g' := by
  refine Yielding.mono (withRoot_yields (P := (· = T)) ht ?_) ?_
  · exact Yielding.mono hact fun _ _ _ _ hshows => ⟨T, rfl, hshows⟩
  · rintro t' g' - - ⟨_, rfl, hreworked⟩
    exact hreworked

theorem withCommittedRoot_yields (hsound : g.Sound sure) (ht : g.shows t.root T)
    (hroot : g.shows root T') :
    Yields sure (t.withCommittedRoot root) g fun t' g' => t.Reworked T' t' g' := by
  unfold withCommittedRoot
  split
  · next hsame =>
      obtain ⟨rfl, rfl⟩ := hsound.unique hroot ht (by simpa [PageRef.same] using hsame)
      exact Yielding.pure hsound ⟨rfl, rfl, rfl, ht⟩
  · exact Yielding.get (Yielding.pure hsound ⟨rfl, rfl, rfl, hroot⟩)

end Tree

namespace Rework

variable {sure : Prop} {g : Gallery} {t : Tree} {T : Picture}

/-- A tree can be reworked and keeps its picture; only folds may become known. -/
theorem run_yields (hsound : g.Sound sure) (ht : g.shows t.root T) (work : Rework)
    (hfits : work.Fits g) :
    Yields sure (work.run t) g fun t' g' => ∃ T', T.Refines T' ∧ (¬ work.Folds → T' = T) ∧
      t.Reworked T' t' g' := by
  -- what keeps the picture as it is
  have hkept : ∀ {act : StoreM Tree}, Yields sure act g (fun t' g' => t.Reworked T t' g') →
      Yields sure act g fun t' g' => ∃ T', T.Refines T' ∧ (¬ work.Folds → T' = T) ∧
        t.Reworked T' t' g' := fun hact =>
    Yielding.mono hact fun _ _ _ _ hreworked => ⟨T, .refl T, fun _ => rfl, hreworked⟩
  cases work with
  | evacuate post version =>
      exact hkept (Tree.withRoot_keeps ht (PageRef.evacuated_yields hsound ht post version))
  | uncommit version =>
      exact hkept (Tree.withRoot_keeps ht (PageRef.uncommitted_yields hsound ht version))
  | reduce f version =>
      refine Yielding.mono (Tree.withRoot_yields (P := T.Refines) ht
        (PageRef.reduced_yields hsound ht f version)) ?_
      rintro t' g' - - ⟨T', hrefines, hreworked⟩
      exact ⟨T', hrefines, fun hfolds => absurd trivial hfolds, hreworked⟩
  | commit zone base version =>
      refine hkept (Yielding.bind (PageRef.committed_yields hsound ht zone base version) ?_)
      intro root g' hle hsound' hshows
      exact Tree.withCommittedRoot_yields hsound' (hle.shows _ _ ht) hshows
  | build zone base version =>
      refine hkept (Yielding.bind (P := fun built g' => t.Reworked T built.2 g') ?_ ?_)
      · refine Yielding.bind (PageRef.commitInto_yields hsound ht _) ?_
        rintro ⟨root, diff⟩ g' hle hsound' hshows
        refine Yielding.bind
          (Tree.withCommittedRoot_yields hsound' (hle.shows _ _ ht) hshows) ?_
        intro t' g'' _ hsound'' hreworked
        exact Yielding.pure hsound'' hreworked
      · intro built g' _ hsound' hreworked
        exact Yielding.pure hsound' hreworked
  | load =>
      refine hkept (Yielding.bind (PageRef.loadTree_yields hsound ht) ?_)
      intro _ g' hle hsound' _
      exact Yielding.pure hsound' ⟨rfl, rfl, rfl, hle.shows _ _ ht⟩
  | rebase snapshot committed =>
      obtain ⟨S, hsnapshot, hcommitted⟩ := hfits
      refine hkept (Yielding.bind
        (PageRef.pairCommitted_yields hsound hsnapshot hcommitted) ?_)
      intro pairs g' hle hsound' hpairs
      have ht' := hle.shows _ _ ht
      exact Tree.withRoot_keeps ht' (PageRef.rebased_yields hsound' ht' hpairs)

end Rework

end PageTree
