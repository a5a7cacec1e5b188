import PageTree.Proofs.BTree.Balance
import PageTree.Proofs.QTree.Split

/-!
# Balancing keeps the slots

A rebuilt child is put back into its node by leaving it out, merging it with a sibling, cutting
it or just taking it.  In each case the new children hold what the old ones held, with the slots
of the rebuilt child in place of those it had (`rebalanceChild_runs`).  A root that is too large
grows and one with a single child gives way, and its slots stay (`balanced_runs`).
-/

namespace PageTree
namespace QTree

open Slots
open BTree (Realm Trim sibling_cases)

variable {W : Type} [Terrain W] {s : Store} {w : W} {height stem version : Nat}
  {slots as₁ as₂ : List Slot} {p q : LivePage} {r child : PageRef}

/-- Two siblings in one page hold the slots of both. -/
theorem mergePages_holds (hleft : PageHolds (Terrain.Branch w) height p as₁)
    (hright : PageHolds (Terrain.Branch w) height q as₂) (hstem : q.stem = p.stem)
    (hp : Realm.Below W p.version version) (hq : Realm.Below W q.version version)
    (hdistinct : ((as₁ ++ as₂).map Slot.key).Nodup) :
    ∃ slots, PageHolds (Terrain.Branch w) height (mergePages p q version) slots ∧
      slots.Perm (as₁ ++ as₂) := by
  obtain ⟨v, st, body⟩ := p
  obtain ⟨w, st', body'⟩ := q
  cases hstem
  cases height with
  | zero =>
      obtain ⟨-, rfl⟩ := hleft
      obtain ⟨-, rfl⟩ := hright
      exact ⟨_, ⟨sorted_sort hdistinct, rfl⟩, List.mergeSort_perm _ _⟩
  | succ height =>
      obtain ⟨as, ps, rfl, hps, rfl⟩ := hleft
      obtain ⟨bs, qs, rfl, hqs, rfl⟩ := hright
      refine ⟨(ps ++ qs).flatten, ⟨as ++ bs, ps ++ qs, rfl, ?_, rfl⟩, ?_⟩
      · exact List.rel_append (Row.raise hps hp) (Row.raise hqs hq)
      · rw [List.flatten_append]

/-- The parts of a page take their place among children. -/
theorem replace_runs (hrep : Realm.Represents s w) (settings : Settings) {as bs : List PageRef}
    {ps rs : List (List Slot)} (has : Row w height stem version as ps)
    (hbs : Row w height stem version bs rs) (hholds : PageHolds (Terrain.Branch w) height p slots)
    (hstem : p.stem = stem) (hversion : Realm.Below W p.version version) (hne : slots ≠ []) :
    Realm.Runs (do return as ++ (← refsOf (split settings version p)) ++ bs) s w
      fun children _ w' => ∃ parts, Row w' height stem version children parts ∧
        parts.flatten.Perm (ps.flatten ++ slots ++ rs.flatten) := by
  obtain ⟨parts, hpieces, hperm⟩ := split_pieces settings hholds hne hversion
  rw [hstem] at hpieces
  refine Realm.bind (refsOf_runs hrep hpieces) ?_
  intro refs s' w' hgrows hrow
  refine Realm.pure (Realm.represents hgrows) ⟨ps ++ parts ++ rs, ?_, ?_⟩
  · exact List.rel_append (List.rel_append (Row.grows hgrows has) hrow)
      (Row.grows hgrows hbs)
  · rw [List.flatten_append, List.flatten_append]
    exact (hperm.append_left _).append_right _

/-- A page is joined with a sibling, and the parts of both take their place among the other
children. -/
theorem join_runs (hrep : Realm.Represents s w) (settings : Settings) {as bs : List PageRef}
    {ps rs : List (List Slot)} {sibling : PageRef} {part : List Slot}
    (has : Row w height stem version as ps) (hbs : Row w height stem version bs rs)
    (hsibling : Terrain.Branch w height stem version sibling part)
    (hholds : PageHolds (Terrain.Branch w) height p slots) (hstem : p.stem = stem)
    (hversion : Realm.Below W p.version version) (hne : slots ≠ [])
    (hdistinct : ((slots ++ part).map Slot.key).Nodup) :
    Realm.Runs (do
        let page ← sibling.page
        return as ++ (← refsOf (split settings version (mergePages p page version))) ++ bs) s w
      fun children _ w' => ∃ parts, Row w' height stem version children parts ∧
        parts.flatten.Perm (ps.flatten ++ (slots ++ part) ++ rs.flatten) := by
  refine Realm.bind (Terrain.branch_page hrep hsibling) ?_
  rintro page s' w' hgrows ⟨-, hstem', hversion', hholds'⟩
  obtain ⟨merged, hmerged, hperm⟩ := mergePages_holds (pageHolds_grows hgrows hholds) hholds'
    (hstem'.trans hstem.symm) hversion hversion' hdistinct
  have hmerged_ne : merged ≠ [] := by
    rintro rfl
    simp [hne] at hperm
  refine Realm.mono (replace_runs (Realm.represents hgrows) settings (Row.grows hgrows has)
    (Row.grows hgrows hbs) hmerged hstem (Realm.below_refl version) hmerged_ne) ?_
  rintro children s'' w'' - ⟨parts, hrow, hparts⟩
  exact ⟨parts, hrow, hparts.trans ((hperm.append_left _).append_right _)⟩

/-- A rebuilt child is put back among its siblings. -/
theorem rebalanceChild_runs (hrep : Realm.Represents s w) {as bs : List PageRef} {old : PageRef}
    {ps rs : List (List Slot)} (has : Row w height stem version as ps)
    (hbs : Row w height stem version bs rs)
    (hchild : Terrain.Branch w height stem version child slots)
    (hdistinct : ((ps.flatten ++ slots ++ rs.flatten).map Slot.key).Nodup) :
    Realm.Runs (rebalanceChild (as ++ old :: bs) as.length child version) s w fun children _ w' =>
      ∃ parts, Row w' height stem version children parts ∧
        parts.flatten.Perm (ps.flatten ++ slots ++ rs.flatten) := by
  have hspan := Terrain.branch_span hrep hchild
  unfold rebalanceChild
  refine Realm.ite ?_ ?_
  · intro hempty
    obtain rfl : slots = [] := List.length_eq_zero_iff.1 (by rw [← hspan, hempty])
    refine Realm.pure hrep ⟨ps ++ rs, ?_, by simp⟩
    rw [List.eraseIdx_append_of_length_le (Nat.le_refl _), Nat.sub_self, List.eraseIdx_cons_zero]
    exact List.rel_append has hbs
  · intro hfull
    have hne : slots ≠ [] := by
      rintro rfl
      exact hfull hspan
    refine Realm.bind (Terrain.branch_page hrep hchild) ?_
    rintro page s' w' hgrows ⟨hpage, hstem, hversion, hholds⟩
    have hrep' := Realm.represents hgrows
    replace has := Row.grows hgrows has
    replace hbs := Row.grows hgrows hbs
    refine Realm.get ?_
    dsimp only
    split
    · next hmerges =>
        have hmany : 1 < (as ++ old :: bs).length := by
          rw [Bool.and_eq_true, decide_eq_true_eq] at hmerges
          exact hmerges.1
        rcases sibling_cases hmany with
          ⟨as, sibling, rfl, rfl, hlast, hlo, hindex⟩ | ⟨sibling, bs, rfl, hinner, hindex⟩
        · -- the last child joins the one before it
          obtain ⟨ps, qs, rfl, hps, hqs⟩ := exists_of_forall₂_append has
          obtain ⟨part, rest, hsibling, hnil, rfl⟩ := List.forall₂_cons_left_iff.1 hqs
          cases hnil
          cases hbs
          have htake : (as ++ [sibling] ++ [old]).take as.length = as := by simp
          have hdrop : (as ++ [sibling] ++ [old]).drop (as.length + 2) = [] := by simp
          simp only [if_pos hlast, hlo, hindex]
          rw [htake, hdrop]
          have hboth : (slots ++ part).Perm (part ++ slots) := List.perm_append_comm
          have hkeys : ((slots ++ part).map Slot.key).Nodup := by
            refine (hboth.map Slot.key).nodup_iff.2 (hdistinct.sublist ?_)
            simp
          refine Realm.mono (join_runs hrep' s'.settings hps List.Forall₂.nil hsibling.2 hholds
            hstem hversion hne hkeys) ?_
          rintro children s'' w'' - ⟨parts, hrow, hparts⟩
          refine ⟨parts, hrow, hparts.trans ?_⟩
          simpa using hboth.append_left ps.flatten
        · -- any other child joins the one behind it
          obtain ⟨part, rs, hsibling, hrs, rfl⟩ := List.forall₂_cons_left_iff.1 hbs
          have htake : (as ++ old :: sibling :: bs).take as.length = as := by simp
          have hdrop : (as ++ old :: sibling :: bs).drop (as.length + 2) = bs := by simp
          simp only [if_neg hinner, hindex]
          rw [htake, hdrop]
          have hassoc : ps.flatten ++ slots ++ (part :: rs).flatten =
              ps.flatten ++ (slots ++ part) ++ rs.flatten := by simp
          rw [hassoc] at hdistinct ⊢
          have hkeys : ((slots ++ part).map Slot.key).Nodup := hdistinct.sublist
            (((List.sublist_append_right _ _).trans (List.sublist_append_left _ _)).map _)
          exact join_runs hrep' s'.settings has hrs hsibling.2 hholds hstem hversion hne hkeys
    · split
      · have htake : (as ++ old :: bs).take as.length = as := by simp
        have hdrop : (as ++ old :: bs).drop (as.length + 1) = bs := by simp
        rw [htake, hdrop]
        exact replace_runs hrep' s'.settings has hbs hholds hstem hversion hne
      · refine Realm.pure hrep' ⟨ps ++ slots :: rs, ?_, by simp⟩
        rw [List.set_append_right _ _ (Nat.le_refl _), Nat.sub_self, List.set_cons_zero]
        exact List.rel_append has (List.Forall₂.cons ⟨hne, Terrain.branch_grows hgrows hchild⟩ hbs)

/-! ## The root -/

/-- A reference to the root of a Q-tree with slots in some order, none of its pages newer than a
version. -/
def Root (w : W) (stem version : Nat) (r : PageRef) (slots : List Slot) : Prop :=
  ∃ height slots', Terrain.Branch w height stem version r slots' ∧ slots'.Perm slots

theorem root_of_branch (hbranch : Terrain.Branch w height stem version r slots) :
    Root w stem version r slots :=
  ⟨height, slots, hbranch, List.Perm.refl _⟩

theorem Root.perm (hroot : Root w stem version r as₁) (hperm : as₁.Perm as₂) :
    Root w stem version r as₂ := by
  obtain ⟨height, slots', hbranch, hperm'⟩ := hroot
  exact ⟨height, slots', hbranch, hperm'.trans hperm⟩

theorem Root.grows {s' : Store} {w' : W} (hgrows : Realm.Grows s w s' w')
    (hroot : Root w stem version r slots) : Root w' stem version r slots := by
  obtain ⟨height, slots', hbranch, hperm⟩ := hroot
  exact ⟨height, slots', Terrain.branch_grows hgrows hbranch, hperm⟩

/-- An empty page in place of all slots. -/
theorem ofPage_empty_runs (hrep : Realm.Represents s w) (stem version : Nat) :
    Realm.Runs (PageRef.ofPage (.empty .qtree stem version) .absent) s w
      fun r _ w' => Root w' stem version r [] ∧ Trim w' r := by
  have hholds : PageHolds (Terrain.Branch w) 0 (.empty .qtree stem version) [] :=
    ⟨sorted_nil, rfl⟩
  refine Realm.mono (Terrain.branch_ofPage hrep hholds) ?_
  rintro r s' w' - ⟨hbranch, hpage⟩
  exact ⟨root_of_branch hbranch, _, hpage, fun hnode => by cases hnode⟩

/-- Nodes of a single child give way to it. -/
theorem collapseWithin_runs (hrep : Realm.Represents s w) (depth : Nat)
    (hdepth : r.treeSize < depth) (hbranch : Terrain.Branch w height stem version r slots) :
    Realm.Runs (collapseWithin version depth r) s w fun r' _ w' =>
      Root w' stem version r' slots ∧ Trim w' r' := by
  -- a lone child has a smaller tree than the node above, so the depth suffices
  induction depth generalizing s w height r slots with
  | zero => exact absurd hdepth (Nat.not_lt_zero _)
  | succ depth ih =>
      have hstem := Terrain.branch_stem hrep hbranch
      unfold collapseWithin
      refine Realm.bind (Terrain.branch_page hrep hbranch) ?_
      rintro page s' w' hgrows ⟨hpage, rfl, hversion, hholds⟩
      have hrep' := Realm.represents hgrows
      have hbranch' := Terrain.branch_grows hgrows hbranch
      split
      · next child hbody =>
          obtain ⟨below, parts, rfl, hrow, rfl⟩ := hholds.of_node hbody
          obtain ⟨part, rest, hchild, hnil, rfl⟩ := List.forall₂_cons_left_iff.1 hrow
          cases hnil
          have hmem : child ∈ page.children := by simp [Page.children, hbody]
          have hlt := Terrain.branch_treeSize_lt hrep' hbranch' hpage hmem
          have hchild' := Terrain.branch_raise hchild.2 hversion
          refine Realm.mono (ih hrep' (by omega) hchild') ?_
          rintro r' s'' w'' - hroot
          simpa using hroot
      · next hbody =>
          obtain ⟨below, parts, rfl, hrow, rfl⟩ := hholds.of_node hbody
          rw [hrow.flatten_eq_nil.2 rfl, hstem]
          exact ofPage_empty_runs hrep' page.stem version
      · -- a leaf stays, and so does a node with two children or more
        next hone hnone =>
          exact Realm.pure hrep' ⟨root_of_branch hbranch', page, hpage,
            fun hnode => hholds.two_le_arity hnode hnone hone⟩

/-- A root made no larger than it may be. -/
def raised (r : PageRef) (version : Nat) : StoreM PageRef := do
  let page ← r.page
  let settings := (← get).settings
  if page.isOversized settings r.pageSize then do
    let parts ← refsOf (split settings version page)
    let grown ← growWithin version r.stem parts.length parts
    return grown.getLast?.getD r
  else return r

/-- Balancing a root makes it no larger than it may be and then lets it collapse. -/
theorem balanced_eq (r : PageRef) (version : Nat) :
    balanced r version = (do
      let root ← raised r version
      collapseWithin version ((← get).depthBound root) root) := by
  unfold balanced raised
  simp only [bind_assoc]
  refine bind_congr fun page => bind_congr fun s => ?_
  split
  · simp only [bind_assoc]
  · rfl

/-- A root that is too large grows, and its slots stay. -/
theorem raised_runs (hrep : Realm.Represents s w) (hroot : Root w stem version r slots) :
    Realm.Runs (raised r version) s w fun root _ w' => Root w' stem version root slots := by
  obtain ⟨height, slots', hbranch, hperm⟩ := hroot
  have hstem := Terrain.branch_stem hrep hbranch
  unfold raised
  refine Realm.bind (Terrain.branch_page hrep hbranch) ?_
  rintro page s' w' hgrows ⟨hpage, rfl, hversion, hholds⟩
  have hrep' := Realm.represents hgrows
  refine Realm.get (Realm.ite (fun hoversized => ?_) fun _ => ?_)
  · have hne : slots' ≠ [] := hholds.ne_nil_of_arity (by
      have := Page.one_lt_arity hoversized
      omega)
    obtain ⟨parts, hpieces, hparts⟩ := split_pieces s'.settings hholds hne hversion
    refine Realm.bind (refsOf_runs hrep' hpieces) ?_
    intro refs s'' w'' hgrows' hrow
    have hrefs : refs ≠ [] := by
      rw [Ne, ← Filled.flatten_eq_nil hrow]
      intro hnil
      rw [hnil] at hparts
      exact hne (List.nil_perm.1 hparts)
    rw [hstem]
    refine Realm.bind (growWithin_runs (Realm.represents hgrows') refs.length hrow hrefs
      (Nat.le_refl _) (hparts.trans hperm)) ?_
    rintro grown s₃ w₃ hgrows'' ⟨height', root, slots'', rfl, hbranch', hperm'⟩
    exact Realm.pure (Realm.represents hgrows'') ⟨height', slots'', hbranch', hperm'⟩
  · exact Realm.pure hrep' ⟨height, slots', Terrain.branch_grows hgrows hbranch, hperm⟩

/-- A root that is too large grows, one of a single child gives way, and the slots stay. -/
theorem balanced_runs (hrep : Realm.Represents s w) (hroot : Root w stem version r slots) :
    Realm.Runs (balanced r version) s w fun r' _ w' =>
      Root w' stem version r' slots ∧ Trim w' r' := by
  rw [balanced_eq]
  refine Realm.bind (raised_runs hrep hroot) ?_
  rintro root s' w' hgrows ⟨height, slots', hbranch, hperm⟩
  refine Realm.get (Realm.mono (collapseWithin_runs (Realm.represents hgrows) _
    (Store.treeSize_lt_depthBound _ _) hbranch) ?_)
  rintro r' s'' w'' - ⟨hroot, htrim⟩
  exact ⟨hroot.perm hperm, htrim⟩

end QTree
end PageTree
