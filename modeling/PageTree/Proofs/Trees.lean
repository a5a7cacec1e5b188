import PageTree.Proofs.Rebuild
import PageTree.Tree.Basic

/-!
# Trees with other roots, and trees read leaf by leaf

The operations on a tree replace its root and keep all else.  `Tree.withRoot` does so
(`Tree.withRoot_eq`), and clearing either leaves the tree as it is or puts a new empty page in
place of the root (`Tree.cleared_cases`).

`PageRef.leaves` reads the leaves of a tree from left to right.  What it gives is told by the
chart alone (`PageRef.leaves_runs`).
-/

namespace PageTree

namespace Tree

open StoreM

/-- The trees differ in their roots only. -/
def Rerooted (t t' : Tree) : Prop :=
  t' = { t with root := t'.root }

namespace Rerooted

variable {t t' t'' : Tree}

theorem refl (t : Tree) : t.Rerooted t := rfl

theorem of_root (t : Tree) (root : PageRef) : t.Rerooted { t with root } := rfl

theorem seed_eq (hrerooted : t.Rerooted t') : t'.seed = t.seed := by
  rw [Rerooted] at hrerooted
  rw [hrerooted]

theorem isTransient_eq (hrerooted : t.Rerooted t') : t'.isTransient = t.isTransient := by
  rw [Rerooted] at hrerooted
  rw [hrerooted]

end Rerooted

variable {s : Store} {c : Chart} {t : Tree} {r : PageRef} {version : Nat}

/-- A root that is the same is the root itself, so it makes no difference to replace it. -/
theorem withRoot_eq (hrep : Mirrors s c) (hr : c.refs r) (ht : c.refs t.root) :
    t.withRoot r = { t with root := r } := by
  unfold withRoot
  split
  · next hsame =>
      rw [hrep.eq_of_same hr ht hsame]
  · rfl

/-- Clearing leaves a tree known to be empty as it is and puts an empty page in place of any
other. -/
theorem cleared_cases (hrep : Represents s c) (ht : c.refs t.root) (version : Nat) :
    Runs (t.cleared version) s c fun t' _ c' => t' = t ∧ t.root.span = 0 ∨
      ∃ r, t' = { t with root := r } ∧
        Made s c' (.empty t.kind t.seed.stem version) .absent r := by
  unfold cleared
  refine Runs.softPage (Runs.ite ?_ ?_)
  · intro hempty
    rw [Bool.and_eq_true] at hempty
    exact Runs.pure hrep (Or.inl ⟨rfl, of_decide_eq_true hempty.1⟩)
  · intro _
    have hchildren : (Page.empty t.kind t.seed.stem version : LivePage).children = [] := by
      cases t.kind <;> rfl
    refine Runs.bind (PageRef.ofPage_runs hrep _ fun m hm => ?_) ?_
    · rw [hchildren] at hm
      cases hm
    · intro r s' c' hgrows hmade
      refine Runs.pure hgrows.represents (Or.inr ⟨r, ?_, hmade⟩)
      exact withRoot_eq hgrows.represents.toMirrors hmade.refs (hgrows.le.refs _ ht)

end Tree

/-! ## Reading leaf by leaf -/

section Leaves

open StoreM

namespace PageRef

/-- The leaves of a subtree from left to right, within a depth. -/
def leavesWithin : Nat → PageRef → StoreM (List LivePage)
  | 0, _ => throw StoreM.tooDeep
  | depth + 1, r => do
    let page ← r.page
    if page.isNode then
      return (← page.children.mapM (leavesWithin depth)).flatten
    else
      return [page]

/-- The leaves of a subtree from left to right. -/
def leaves (r : PageRef) : StoreM (List LivePage) := do
  leavesWithin ((← get).depthBound r) r

end PageRef

namespace PageRef

variable {s : Store} {c : Chart} {r : PageRef}

theorem leavesWithin_runs (hrep : Represents s c) (depth : Nat) (hdepth : r.treeSize < depth)
    (hr : c.refs r) :
    Runs (leavesWithin depth r) s c fun leaves _ c' =>
      c'.Reads depth r.site (leaves.map fun p => p.body.shape) := by
  induction depth generalizing s c r with
  | zero => exact absurd hdepth (Nat.not_lt_zero _)
  | succ depth ih =>
      unfold leavesWithin
      refine Runs.bind (page_runs hrep hr) ?_
      rintro p s' c' hgrows ⟨hpage, hrefs⟩
      refine Runs.ite ?_ ?_
      · intro hnode
        refine Runs.bind (Runs.listMapM (R := fun m leaves _ c' =>
          c'.Reads depth m.site (leaves.map fun p => p.body.shape)) hgrows.represents p.children
          ?_ ?_) ?_
        · exact fun m leaves s' c' s'' c'' hgrows hreads => hreads.mono hgrows.le
        · intro m hm s'' c'' hgrows'
          have hlt := hgrows.represents.treeSize_lt (hgrows.le.refs r hr) hpage hm
          exact ih hgrows'.represents (by omega) (hgrows'.le.refs m (hrefs m hm))
        · intro parts s'' c'' hgrows' hparts
          refine Runs.pure hgrows'.represents ⟨_, Chart.page_mono hgrows'.le hpage, Or.inr ?_⟩
          refine ⟨by simpa using hnode, parts.map (List.map fun p => p.body.shape), ?_,
            by rw [List.map_flatten]⟩
          rw [Page.map_children, List.forall₂_map_left_iff, List.forall₂_map_right_iff]
          exact hparts
      · intro hleaf
        refine Runs.pure hgrows.represents ⟨_, hpage, Or.inl ⟨by simpa using hleaf, ?_⟩⟩
        simp

/-- The leaves that are read are those that the chart tells. -/
theorem leaves_runs (hrep : Represents s c) (hr : c.refs r) :
    Runs r.leaves s c fun leaves _ c' =>
      ∃ depth, c'.Reads depth r.site (leaves.map fun p => p.body.shape) := by
  refine Runs.get ((leavesWithin_runs hrep _ ?_ hr).mono ?_)
  · exact Store.treeSize_lt_depthBound _ _
  · exact fun leaves _ c' _ hreads => ⟨_, hreads⟩

end PageRef

end Leaves

end PageTree
