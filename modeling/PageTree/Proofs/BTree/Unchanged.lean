import PageTree.Proofs.BTree.Shape

/-!
# Changes that change nothing

A change of a B-tree that leaves the entries as they are gives the tree itself, known by its root,
so that whoever asks for a change can tell from the root whether there has been one.  A drop from
a tree without entries is the one exception: it puts an empty page of its own in place of the
root (`Changeable.same_iff`).
-/

namespace PageTree
namespace BTree

open StoreM

variable {s s' : Store} {version : Nat} {t t' : Tree} {es : List Entry}

/-- A B-tree has entries and may be changed at a version: its pages are all in memory, or a chart
tells where they are and none of them is newer. -/
inductive Changeable (s : Store) (version : Nat) (t : Tree) (es : List Entry) : Prop where
  | memory (settled : Settled s t es)
  | zones {c : Chart} (represents : Represents s c) (contains : Contains c version t es)

/-- The change drops entries from where there are none. -/
def Change.Overreaches (es : List Entry) : Change → Prop
  | drop lower => lower ≠ 0 ∧ es = []
  | _ => False

/-! ## The root that stays -/

/-- Nothing is dropped. -/
theorem exec_drop_zero (t : Tree) (version post : Nat) (s : Store) :
    exec (drop t 0 version post) s = (.ok t, s) := by
  have hdropped : exec (dropped t.root 0 version) s = (.ok t.root, s) := by
    obtain ⟨depth, hdepth⟩ := Nat.exists_eq_add_of_lt (indexedDepthBound_lt s t.root 0)
    rw [dropped, exec_bind, exec_get]
    dsimp only
    rw [hdepth, droppedWithin]
    rfl
  rw [drop, exec_bind, hdropped]
  simp [rebalanced, PageRef.same]

/-- All entries are kept. -/
theorem exec_take_all {upper : Nat} (hspan : t.root.span ≤ upper) (version post : Nat)
    (s : Store) : exec (take t upper version post) s = (.ok t, s) := by
  have htaken : exec (taken t.root upper version) s = (.ok t.root, s) := by
    obtain ⟨depth, hdepth⟩ := Nat.exists_eq_add_of_lt (indexedDepthBound_lt s t.root upper)
    rw [taken, exec_bind, exec_get]
    dsimp only
    rw [hdepth, takenWithin, if_pos hspan]
    rfl
  rw [take, exec_bind, htaken]
  simp [rebalanced, PageRef.same]

/-! ## The root that does not -/

/-- An empty leaf stays the root. -/
theorem balanced_emptyLeaf {r : PageRef} {p : LivePage} (hp : s.Pins r p)
    (hbody : p.body = .btreeLeaf []) (version : Nat) :
    Succeeds (balanced r version) s fun r' _ => r' = r := by
  have hsmall : ∀ settings size, p.isOversized settings size = false := by
    intro settings size
    simp [Page.isOversized, Page.arity, hbody]
  apply Succeeding.bind (PageRef.page_succeeds hp)
  rintro _ s' - ⟨rfl, hp'⟩
  apply Succeeding.get
  dsimp only
  rw [hsmall, if_neg Bool.false_ne_true, pure_bind]
  apply Succeeding.get
  obtain ⟨depth, hdepth⟩ := Nat.exists_eq_add_of_lt (s'.treeSize_lt_depthBound r)
  rw [hdepth, collapseWithin]
  apply Succeeding.bind (PageRef.page_succeeds hp')
  rintro p' s'' - ⟨rfl, -⟩
  rw [hbody]
  exact Succeeding.pure rfl

/-- Where all entries are dropped, even if there are none, an empty page of its own is the root. -/
theorem drop_all_moves {lower : Nat} (hlower : lower ≠ 0) (hspan : t.root.span ≤ lower)
    (hallocated : t.root.id < s.cells.size) (version post : Nat) :
    Succeeds (drop t lower version post) s fun t' _ => t'.same t = false := by
  have hdropped : Succeeds (dropped t.root lower version) s fun r s' =>
      s'.Pins r (.empty .btree t.root.stem version) ∧ r.post = 0 ∧ r.same t.root = false := by
    obtain ⟨depth, hdepth⟩ := Nat.exists_eq_add_of_lt (indexedDepthBound_lt s t.root lower)
    apply Succeeding.get
    rw [hdepth, droppedWithin, if_neg hlower, if_pos hspan]
    -- the empty page gets a cell of its own, so the reference to it is another
    have hmoved : (s.cells.size == t.root.id) = false := by
      rw [beq_eq_false_iff_ne]
      omega
    exact ⟨_, _, PageRef.exec_ofPage _ _ s, (Store.Keeps.of_cells_eq rfl).trans (.pushCell _ _),
      ⟨s.nextSerial, congrArg Cell.hold (Store.cell_pushCell_self _ _)⟩, rfl, hmoved⟩
  apply Succeeding.bind hdropped
  rintro r s' - ⟨hp, hpost, hmoved⟩
  rw [rebalanced, hmoved, if_neg Bool.false_ne_true]
  apply Succeeding.bind (balanced_emptyLeaf hp rfl version)
  rintro r s'' - rfl
  have hevacuated : Succeeds (r.evacuated post version) s'' fun r' _ => r' = r := by
    apply Succeeding.get
    obtain ⟨depth, hdepth⟩ := Nat.exists_eq_add_of_lt (s''.treeSize_lt_depthBound r)
    rw [hdepth, PageRef.evacuatedWithin, if_pos (by simp [hpost])]
    exact Succeeding.pure rfl
  apply Succeeding.bind hevacuated
  rintro r' _ - rfl
  apply Succeeding.pure
  rw [Tree.withRoot, hmoved, if_neg Bool.false_ne_true]
  exact hmoved

/-! ## What a change gives -/

namespace Changeable

theorem span (hready : Changeable s version t es) : t.root.span = es.length := by
  cases hready with
  | memory settled =>
      obtain ⟨height, hup⟩ := settled.root
      exact hup.span
  | zones represents contains => exact contains.root.span represents

theorem allocated (hready : Changeable s version t es) : t.root.id < s.cells.size := by
  cases hready with
  | memory settled =>
      obtain ⟨height, hup⟩ := settled.root
      obtain ⟨p, hp⟩ := hup.upright.pins
      exact hp.allocated
  | zones represents contains => exact represents.allocated _ contains.root.fit.refs

/-- A change can be followed by another, and a tree that is the same has the same entries. -/
theorem change (hready : Changeable s version t es) {change : Change} {post : Nat}
    (hexec : exec (change.apply t version post) s = (.ok t', s')) :
    Changeable s' version t' (change.onListing es) ∧
      (t'.same t = true → change.onListing es = es) := by
  cases hready with
  | memory settled =>
      obtain ⟨t', s', hexec', hkeeps, settled'⟩ := settled.change_succeeds change version post
      cases hexec.symm.trans hexec'
      obtain ⟨height, hup⟩ := (settled.keep hkeeps).root
      obtain ⟨height', hup'⟩ := settled'.root
      exact ⟨.memory settled', hup'.same hup⟩
  | zones represents contains =>
      obtain ⟨c', hgrows, contains'⟩ := (change.apply_runs represents contains post).of_ok hexec
      refine ⟨.zones hgrows.represents contains', fun hsame => ?_⟩
      have hbefore := contains.root.mono hgrows.le
      have heq := hgrows.represents.eq_of_same contains'.root.fit.refs hbefore.fit.refs hsame
      exact Root.unique contains'.root (heq ▸ hbefore)

/-- An update that leaves the entries as they are gives the tree itself. -/
theorem update_self (hready : Changeable s version t es) {key value : Value} {post : Nat}
    (hexec : exec (update t key value version post) s = (.ok t', s'))
    (hstays : Listing.update key value es = es) : t' = t := by
  cases hready with
  | memory settled =>
      have hroot : Root s t.seed.stem version t.root es := settled.root
      have hruns : Realm.Runs (updated t.root key value version) s s _ := updated_runs rfl hroot
      obtain ⟨-, r, s₁, hupdated, -, -, hsame⟩ := hruns
      rw [hsame hstays] at hupdated
      rw [update, exec_bind, hupdated] at hexec
      simp only [rebalanced, PageRef.same, beq_self_eq_true, if_true, exec_pure] at hexec
      cases hexec
      rfl
  | zones represents contains =>
      obtain ⟨-, -, -, -, hsame⟩ := (update_runs represents contains key value post).of_ok hexec
      exact hsame hstays

/-- A change gives the tree itself if and only if it leaves the entries as they are, unless it
drops entries from where there are none. -/
theorem same_iff (hready : Changeable s version t es) {change : Change} (hkeyed : change ≠ .clear)
    {post : Nat} (hexec : exec (change.apply t version post) s = (.ok t', s')) :
    t'.same t = true ↔ change.onListing es = es ∧ ¬ change.Overreaches es := by
  have hself : t' = t → t'.same t = true := by
    rintro rfl
    simp [Tree.same, PageRef.same]
  refine ⟨fun hsame => ⟨(hready.change hexec).2 hsame, ?_⟩, ?_⟩
  · -- the only change that may overreach is a drop
    intro hover
    cases change with
    | drop lower =>
        obtain ⟨hlower, rfl⟩ := hover
        have hspan : t.root.span ≤ lower := by simp [hready.span]
        obtain ⟨t', s', hexec', -, hmoved⟩ :=
          drop_all_moves hlower hspan hready.allocated version post
        cases hexec.symm.trans hexec'
        rw [hmoved] at hsame
        cases hsame
    | _ => exact hover
  · rintro ⟨hstays, hover⟩
    apply hself
    cases change with
    | update key value => exact hready.update_self hexec hstays
    | remove key => exact hready.update_self hexec hstays
    | drop lower =>
        have hzero : lower = 0 := by
          by_contra hlower
          have hlength := congrArg List.length (show es.drop lower = es from hstays)
          rw [List.length_drop] at hlength
          exact hover ⟨hlower, List.length_eq_zero_iff.1 (by omega)⟩
        subst hzero
        cases (exec_drop_zero t version post s).symm.trans hexec
        rfl
    | take upper =>
        have hspan : t.root.span ≤ upper := by
          have hlength := congrArg List.length (show es.take upper = es from hstays)
          rw [List.length_take] at hlength
          rw [hready.span]
          omega
        cases (exec_take_all hspan version post s).symm.trans hexec
        rfl
    | clear => exact absurd rfl hkeyed

end Changeable
end BTree
end PageTree
