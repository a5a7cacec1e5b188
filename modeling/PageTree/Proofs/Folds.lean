import PageTree.Folding
import PageTree.Proofs.Contents

/-!
# Folds of contents

A fold that is known is used again, so the folds of a tree may come from many runs, each over the
pages that had changed by then.  If the folds of parts merge to the fold of the whole
(`PageRef.Folding.Lawful`), this makes no difference: a fold that has been made by parts is the
fold of all values in one go (`Folded.eq_total`), and these are the values that the content of the
tree has (`Chart.Has.folds_root`).
-/

namespace PageTree

open StoreM

/-! ## Lawful foldings -/

namespace PageRef.Folding

variable {f : Folding}

/-- The fold of values in one go. -/
def total (f : Folding) (values : List Value) : Value :=
  values.foldl f.combine f.identity

/-- The folds of two lists merge to the fold of both. -/
def Lawful (f : Folding) : Prop :=
  ∀ us vs, f.merge (f.total us) (f.total vs) = f.total (us ++ vs)

/-- Merging with the fold of some values may do what combining with each of them does. -/
theorem Lawful.of_merge (hmerge : ∀ a vs, f.merge a (f.total vs) = vs.foldl f.combine a) :
    f.Lawful := by
  intro us vs
  rw [hmerge, total, total, List.foldl_append]

/-- The folds of parts merge to the fold of the whole. -/
theorem Lawful.total_flatten (hlawful : f.Lawful) (parts : List (List Value)) :
    (parts.map f.total).foldl f.merge f.identity = f.total parts.flatten := by
  -- what has been merged so far is the fold of the parts in front
  have hfront : ∀ front, (parts.map f.total).foldl f.merge (f.total front) =
      f.total (front ++ parts.flatten) := by
    induction parts with
    | nil => simp
    | cons part parts ih =>
        intro front
        rw [List.map_cons, List.foldl_cons, hlawful, ih, List.flatten_cons, List.append_assoc]
  exact hfront []

end PageRef.Folding

/-- Sums of integers are lawful. -/
theorem NamedFolding.lawful_sum : (sum.folding (.int 0)).Lawful := by
  have htotal : ∀ (vs : List Value) n,
      vs.foldl addInts (.int n) = .int (n + (vs.map intOf).sum) := by
    intro vs
    induction vs with
    | nil => simp
    | cons v vs ih =>
        intro n
        have hadd : addInts (.int n) v = .int (n + intOf v) := rfl
        rw [List.foldl_cons, hadd, ih, List.map_cons, List.sum_cons, Int64.add_assoc]
  intro us vs
  show addInts (us.foldl addInts (.int 0)) (vs.foldl addInts (.int 0)) =
    (us ++ vs).foldl addInts (.int 0)
  rw [List.foldl_append, htotal, htotal vs 0, htotal vs, Int64.zero_add, Int64.zero_add]
  rfl

/-- What has been folded with one lawful folding is folded as in one go. -/
theorem Folded.eq_total {foldings : PageRef.Folding → Prop} {f : PageRef.Folding} {fold : Value}
    {values : List Value} (hlawful : f.Lawful) (honly : ∀ g, foldings g → g = f)
    (hfolded : Folded foldings fold values) : fold = f.total values := by
  induction hfolded with
  | @leaf g given values =>
      obtain rfl := honly g given
      rfl
  | @node g folds parts given length _ ih =>
      obtain rfl := honly g given
      have hfolds : folds = parts.map g.total := by
        refine List.ext_get (by simpa using length) fun i h h' => ?_
        rw [ih i h (length ▸ h), List.get_eq_getElem, List.get_eq_getElem, List.getElem_map]
      rw [hfolds, hlawful.total_flatten]

/-! ## Leaves of a kind -/

section Leaves

variable {c : Chart} {depth : Nat} {n : Site} {p : Page Site}
  {shapes : List (PageBody Unit)}

/-- The leaves of a tree are of the kind of the tree. -/
theorem Chart.Reads.treeKind (hreads : c.Reads depth n shapes) (hsound : c.Sound n)
    (hpage : c.page n = some p) :
    ∀ shape ∈ shapes, (⟨0, 0, shape⟩ : Page Unit).treeKind = p.treeKind := by
  induction depth generalizing n p shapes with
  | zero => exact absurd hreads id
  | succ depth ih =>
      obtain ⟨q, hq, hgathers⟩ := hreads
      rw [hpage] at hq
      cases hq
      rcases hgathers with ⟨-, rfl⟩ | ⟨-, parts, hparts, rfl⟩
      · intro shape hshape
        rw [List.mem_singleton.1 hshape]
        obtain ⟨version, stem, body⟩ := p
        cases body <;> rfl
      · intro shape hshape
        obtain ⟨part, hpart, hmem⟩ := List.mem_flatten.1 hshape
        obtain ⟨m, hm, hbeneath⟩ := exists_of_forall₂_right hparts hpart
        obtain ⟨q, hq, hcovers⟩ := hsound.covers hpage hm
        rw [ih hbeneath (hsound.child hpage hm) hq shape hmem, hcovers.treeKind]

/-- The leaves of a B-tree hold the values of its entries. -/
theorem BTree.flatMap_values
    (hkinds : ∀ shape ∈ shapes, (⟨0, 0, shape⟩ : Page Unit).treeKind = .btree) :
    shapes.flatMap PageBody.values = (shapes.flatMap slotsOf).map Prod.snd := by
  rw [List.map_flatMap]
  refine List.flatMap_congr fun shape hshape => ?_
  have hkind := hkinds shape hshape
  cases shape <;> first | rfl | cases hkind

/-- The leaves of a Q-tree hold the values of its entries. -/
theorem QTree.flatMap_values
    (hkinds : ∀ shape ∈ shapes, (⟨0, 0, shape⟩ : Page Unit).treeKind = .qtree) :
    shapes.flatMap PageBody.values =
      ((shapes.flatMap slotsOf).map Slot.entry).map PlaneEntry.value := by
  rw [List.map_map, List.map_flatMap]
  refine List.flatMap_congr fun shape hshape => ?_
  have hkind := hkinds shape hshape
  cases shape <;> first | rfl | cases hkind

end Leaves

/-! ## Contents -/

/-- A value folds what a content has, in an order in which it may be listed. -/
def Content.Folds (f : PageRef.Folding) (fold : Value) : Content → Prop
  | .listing es => fold = f.total (es.map Prod.snd)
  | .register value => fold = f.total (if value.isDefined then [value] else [])
  | .plane g => ∃ es, QTree.Lists es g ∧ fold = f.total (es.map PlaneEntry.value)

variable {c : Chart} {version depth : Nat} {t : Tree} {content : Content}
  {shapes : List (PageBody Unit)} {f : PageRef.Folding}

/-- A fold that is known folds the leaves that are read. -/
theorem Chart.HasFold.eq_total {r : PageRef} (hfold : c.HasFold r) (hsound : c.Sound r.site)
    (hlawful : f.Lawful) (honly : ∀ g, c.foldings g → g = f)
    (hreads : c.Reads depth r.site shapes) : r.fold = f.total (shapes.flatMap PageBody.values) := by
  obtain ⟨shapes', hreads', hfolded⟩ := hfold.reads hsound (Nat.lt_succ_self _)
  rw [hreads.unique hreads']
  exact hfolded.eq_total hlawful honly

/-- The leaves of a tree are of the kind of its content. -/
theorem Chart.Has.treeKind (hhas : c.Has version t content) (hsound : c.Sound t.root.site)
    (hreads : c.Reads depth t.root.site shapes) :
    ∀ shape ∈ shapes, (⟨0, 0, shape⟩ : Page Unit).treeKind = content.kind := by
  obtain ⟨p, hp, hkind, -⟩ := hhas.fit.page
  rw [hhas.kind_eq] at hkind
  rw [← hkind]
  exact hreads.treeKind hsound hp

/-- The values of the leaves are those of the content. -/
theorem Chart.Has.folds (hhas : c.Has version t content) (hsound : c.Sound t.root.site)
    (hreads : c.Reads depth t.root.site shapes) :
    content.Folds f (f.total (shapes.flatMap PageBody.values)) := by
  have hkinds := hhas.treeKind hsound hreads
  cases content with
  | listing es =>
      obtain ⟨height, hsub⟩ := BTree.Contains.root hhas
      show f.total _ = f.total (es.map Prod.snd)
      rw [← hsub.holds.reads hreads, BTree.flatMap_values hkinds]
  | register value =>
      obtain ⟨p, hp, hbody⟩ := UTree.Contains.page hhas
      cases depth with
      | zero => exact absurd hreads id
      | succ depth =>
          obtain ⟨q, hq, hgathers⟩ := hreads
          rw [hp] at hq
          cases hq
          rcases hgathers with ⟨-, rfl⟩ | ⟨hnode, -⟩
          · rw [hbody, List.flatMap_singleton]
            rfl
          · rw [Page.isNode, Page.kind, hbody] at hnode
            cases hnode
  | plane g =>
      exact ⟨_, QTree.Contains.lists hhas hreads, congrArg f.total (QTree.flatMap_values hkinds)⟩

/-- A fold that is known folds what the tree has. -/
theorem Chart.Has.folds_root {s : Store} (hhas : c.Has version t content) (hrep : Mirrors s c)
    (hlawful : f.Lawful) (honly : ∀ g, c.foldings g → g = f) (hfold : c.HasFold t.root) :
    content.Folds f t.fold := by
  have hsound := hrep.sound t.root hhas.fit.refs
  obtain ⟨shapes, hreads, -⟩ := hfold.reads hsound (Nat.lt_succ_self _)
  rw [Tree.fold, hfold.eq_total hsound hlawful honly hreads]
  exact hhas.folds hsound hreads

end PageTree
