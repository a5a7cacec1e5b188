import PageTree.Proofs.BTree.Split

/-!
# Balancing keeps the entries

A rebuilt child is put back into its node by leaving it out, merging it with a sibling, cutting
it or just keying it anew.  In each case the new children hold what the old ones held, with the
entries of the rebuilt child in its place (`rebalanceChild_runs`).  A root that is too large
grows and one with a single child gives way, and its entries stay (`balanced_runs`).
-/

namespace PageTree
namespace BTree

open StoreM

variable {W : Type} [Realm W] {s : Store} {w : W} {height stem version : Nat}
  {es es₁ es₂ : List Entry} {p q : LivePage} {r child : PageRef}

/-- Two siblings in one page hold the entries of both. -/
theorem mergePages_holds (hleft : PageHolds (Realm.Subtree w) height p es₁)
    (hright : PageHolds (Realm.Subtree w) height q es₂) (hstem : q.stem = p.stem)
    (hp : Realm.Below W p.version version) (hq : Realm.Below W q.version version) :
    PageHolds (Realm.Subtree w) height (mergePages p q version) (es₁ ++ es₂) := by
  obtain ⟨v, st, body⟩ := p
  obtain ⟨v', st', body'⟩ := q
  cases hstem
  cases height with
  | zero =>
      cases hleft
      cases hright
      rfl
  | succ height =>
      obtain ⟨as, ps, rfl, hps, rfl⟩ := hleft
      obtain ⟨bs, qs, rfl, hqs, rfl⟩ := hright
      exact ⟨as ++ bs, ps ++ qs, rfl, Keyed.append (Row.raise hps hp) (Row.raise hqs hq),
        List.flatten_append.symm⟩

/-- Items in a stretch of a list are replaced. -/
theorem splice_append {α : Type} (as mid bs parts : List α) {hi : Nat}
    (hhi : hi + 1 = as.length + mid.length) :
    splice (as ++ mid ++ bs) as.length hi parts = as ++ parts ++ bs := by
  unfold splice
  rw [hhi, ← List.length_append, List.drop_left' rfl, List.append_assoc as mid bs,
    List.take_left' rfl]

/-- Where there are several children, one of them is behind the one that is put back, or else that
one is the last and another is before it. -/
theorem sibling_cases {α : Type} {as bs : List α} {old : α}
    (hmany : 1 < (as ++ old :: bs).length) :
    (∃ as' sibling, as = as' ++ [sibling] ∧ bs = [] ∧
      (as ++ old :: bs).length ≤ as.length + 1 ∧ as.length - 1 = as'.length ∧
      (as ++ old :: bs)[as'.length]? = some sibling) ∨
    ∃ sibling bs', bs = sibling :: bs' ∧ ¬ (as ++ old :: bs).length ≤ as.length + 1 ∧
      (as ++ old :: bs)[as.length + 1]? = some sibling := by
  cases bs with
  | nil =>
      rcases List.eq_nil_or_concat as with rfl | ⟨as', sibling, rfl⟩
      · simp at hmany
      · exact Or.inl ⟨as', sibling, by simp⟩
  | cons sibling bs => exact Or.inr ⟨sibling, bs, rfl, by simp, by simp⟩

/-- The parts of a page take the place of a stretch of children. -/
theorem replace_runs (hrep : Realm.Represents s w) (settings : Settings)
    {as bs : List (Value × PageRef)} (mid : List (Value × PageRef)) {ps rs : List (List Entry)}
    {hi : Nat} (has : Row w height stem version as ps) (hbs : Row w height stem version bs rs)
    (hhi : hi + 1 = as.length + mid.length) (hholds : PageHolds (Realm.Subtree w) height p es)
    (hstem : p.stem = stem) (hversion : Realm.Below W p.version version) (hne : es ≠ [])
    (hsorted : Entries.Sorted (ps.flatten ++ es ++ rs.flatten)) :
    Realm.Runs
      (do return splice (as ++ mid ++ bs) as.length hi (← refsOf (split settings version p)))
      s w fun children _ w' => ∃ parts, Row w' height stem version children parts ∧
        parts.flatten = ps.flatten ++ es ++ rs.flatten := by
  obtain ⟨parts, hpieces, rfl⟩ := split_pieces settings hholds hne hversion
  rw [hstem] at hpieces
  have hmid : Entries.Sorted parts.flatten :=
    hsorted.sublist ((List.sublist_append_right _ _).trans (List.sublist_append_left _ _))
  refine Realm.bind (refsOf_runs hrep hpieces hmid) ?_
  intro refs s' w' hgrows hrow
  rw [splice_append as mid bs refs hhi]
  refine Realm.pure (Realm.represents hgrows) ⟨ps ++ parts ++ rs, ?_, by simp⟩
  exact Keyed.append (Keyed.append (Row.grows hgrows has) hrow) (Row.grows hgrows hbs)

/-- A rebuilt child is put back among its siblings. -/
theorem rebalanceChild_runs (hrep : Realm.Represents s w) {as bs : List (Value × PageRef)}
    {old : Value × PageRef} {ps rs : List (List Entry)}
    (has : Row w height stem version as ps) (hbs : Row w height stem version bs rs)
    (hspan : child.span = es.length)
    (hchild : es ≠ [] → Realm.Subtree w height stem version child es)
    (hsorted : Entries.Sorted (ps.flatten ++ es ++ rs.flatten)) :
    Realm.Runs (rebalanceChild (as ++ old :: bs) as.length child version) s w
      fun children _ w' => ∃ parts, Row w' height stem version children parts ∧
        parts.flatten = ps.flatten ++ es ++ rs.flatten := by
  unfold rebalanceChild
  split
  · next hempty =>
      obtain rfl : es = [] := List.length_eq_zero_iff.1 (by rw [← hspan, hempty])
      refine Realm.pure hrep ⟨ps ++ rs, ?_, by simp⟩
      rw [List.eraseIdx_append_of_length_le (Nat.le_refl _), Nat.sub_self, List.eraseIdx_cons_zero]
      exact Keyed.append has hbs
  · next hfull =>
      have hne : es ≠ [] := by
        rintro rfl
        exact hfull hspan
      have hsub := hchild hne
      refine Realm.bind (Realm.page_runs hrep hsub) ?_
      rintro page s' w' hgrows ⟨hpage, hstem, hversion, hholds⟩
      have hrep' := Realm.represents hgrows
      replace has := Row.grows hgrows has
      replace hbs := Row.grows hgrows hbs
      refine Realm.get ?_
      dsimp only
      split
      · next hmerges =>
          have hmany : 1 < (as ++ old :: bs).length := by
            rw [Bool.and_eq_true, decide_eq_true_eq] at hmerges
            exact hmerges.1
          rcases sibling_cases hmany with
            ⟨as, sibling, rfl, rfl, hlast, hlo, hindex⟩ | ⟨sibling, bs, rfl, hinner, hindex⟩
          · -- the last child joins the one before it
            obtain ⟨ps, qs, rfl, hps, hqs⟩ := Keyed.of_append has
            obtain ⟨part, rest, hsibling, hnil, rfl⟩ := List.forall₂_cons_left_iff.1 hqs
            cases hnil
            cases hbs
            simp only [if_pos hlast, hlo, hindex]
            refine Realm.bind (Realm.page_runs hrep' hsibling.2) ?_
            rintro page' s'' w'' hgrows' ⟨-, hstem', hversion', hholds'⟩
            have hmerged := mergePages_holds hholds' (pageHolds_grows hgrows' hholds)
              (hstem.trans hstem'.symm) hversion' hversion
            have hlist : Entries.Sorted (ps.flatten ++ (part ++ es) ++ [].flatten) := by
              simpa using hsorted
            have hruns := replace_runs (Realm.represents hgrows') s'.settings [sibling, old]
              (Row.grows hgrows' hps) Row.nil rfl hmerged hstem'
              (Realm.below_refl _) (by simp [hne]) hlist
            simpa using hruns
          · -- any other child joins the one behind it
            obtain ⟨part, rs, hsibling, hrs, rfl⟩ := List.forall₂_cons_left_iff.1 hbs
            simp only [if_neg hinner, hindex]
            refine Realm.bind (Realm.page_runs hrep' hsibling.2) ?_
            rintro page' s'' w'' hgrows' ⟨-, hstem', hversion', hholds'⟩
            have hmerged := mergePages_holds (pageHolds_grows hgrows' hholds) hholds'
              (hstem'.trans hstem.symm) hversion hversion'
            have hlist : Entries.Sorted (ps.flatten ++ (es ++ part) ++ rs.flatten) := by
              simpa using hsorted
            have hruns := replace_runs (Realm.represents hgrows') s'.settings [old, sibling]
              (Row.grows hgrows' has) (Row.grows hgrows' hrs) rfl hmerged hstem
              (Realm.below_refl _) (by simp [hne]) hlist
            simpa using hruns
      · split
        · have hruns := replace_runs hrep' s'.settings [old] has hbs rfl hholds hstem hversion
            hne hsorted
          simpa using hruns
        · refine Realm.pure hrep' ⟨ps ++ es :: rs, ?_, by simp⟩
          rw [List.set_append_right _ _ (Nat.le_refl _), Nat.sub_self, List.set_cons_zero]
          exact Keyed.append has
            (List.Forall₂.cons ⟨hholds.firstKey hne, Realm.subtree_grows hgrows hsub⟩ hbs)

/-! ## The root -/

/-- A reference to the root of a B-tree with entries, none of its pages newer than a version. -/
def Root (w : W) (stem version : Nat) (r : PageRef) (es : List Entry) : Prop :=
  ∃ height, Realm.Subtree w height stem version r es

/-- The root is a leaf or has at least two children. -/
def Trim (w : W) (r : PageRef) : Prop :=
  ∃ p, Realm.PageAt w r p ∧ (p.isNode = true → 2 ≤ p.arity)

/-- An empty page in place of all entries. -/
theorem ofPage_empty_runs (hrep : Realm.Represents s w) (stem version : Nat) :
    Realm.Runs (PageRef.ofPage (.empty .btree stem version) .absent) s w
      fun r _ w' => Root w' stem version r [] ∧ Trim w' r := by
  have hholds : PageHolds (Realm.Subtree w) 0 (.empty .btree stem version) [] := rfl
  refine Realm.mono (Realm.ofPage_runs hrep Entries.Sorted.nil hholds) ?_
  rintro r s' w' - ⟨hsub, hpage⟩
  exact ⟨⟨0, hsub⟩, _, hpage, fun hnode => by cases hnode⟩

/-- Nodes of a single child give way to it. -/
theorem collapseWithin_runs (hrep : Realm.Represents s w) (depth : Nat)
    (hdepth : r.treeSize < depth) (hsub : Realm.Subtree w height stem version r es) :
    Realm.Runs (collapseWithin version depth r) s w fun r' _ w' =>
      Root w' stem version r' es ∧ Trim w' r' := by
  -- a lone child has a smaller tree than the node above, so the depth suffices
  induction depth generalizing s w height r es with
  | zero => exact absurd hdepth (Nat.not_lt_zero _)
  | succ depth ih =>
      have hstem := Realm.stem hrep hsub
      unfold collapseWithin
      refine Realm.bind (Realm.page_runs hrep hsub) ?_
      rintro page s' w' hgrows ⟨hpage, rfl, hversion, hholds⟩
      have hrep' := Realm.represents hgrows
      have hsub' := Realm.subtree_grows hgrows hsub
      split
      · next key child hbody =>
          obtain ⟨below, parts, rfl, hrow, rfl⟩ := hholds.of_node hbody
          obtain ⟨part, rest, hchild, hnil, rfl⟩ := List.forall₂_cons_left_iff.1 hrow
          cases hnil
          have hmem : child ∈ page.children := by simp [Page.children, hbody]
          have hlt := Realm.treeSize_lt hrep' hsub' hpage hmem
          have hchild' := Realm.subtree_raise hchild.2 hversion
          refine Realm.mono (ih hrep' (by omega) hchild') ?_
          rintro r' s'' w'' - hroot
          simpa using hroot
      · next hbody =>
          obtain ⟨below, parts, rfl, hrow, rfl⟩ := hholds.of_node hbody
          rw [hrow.flatten_eq_nil.2 rfl, hstem]
          exact ofPage_empty_runs hrep' page.stem version
      · -- a leaf stays, and so does a node with two children or more
        next hone hnone =>
          exact Realm.pure hrep' ⟨⟨height, hsub'⟩, page, hpage,
            fun hnode => hholds.two_le_arity hnode hnone hone⟩

/-- A root made no larger than it may be. -/
def raised (r : PageRef) (version : Nat) : StoreM PageRef := do
  let page ← r.page
  let settings := (← get).settings
  if page.isOversized settings r.pageSize then do
    let parts ← refsOf (split settings version page)
    let grown ← growWithin version r.stem parts.length parts
    return (grown.getLast?.map Prod.snd).getD r
  else return r

/-- Balancing a root makes it no larger than it may be and then lets it collapse. -/
theorem balanced_eq (r : PageRef) (version : Nat) :
    balanced r version = (do
      let root ← raised r version
      collapseWithin version ((← get).depthBound root) root) := by
  unfold balanced raised
  simp only [bind_assoc]
  refine bind_congr fun page => bind_congr fun s => ?_
  split
  · simp only [bind_assoc]
  · rfl

/-- A root that is too large grows, and its entries stay. -/
theorem raised_runs (hrep : Realm.Represents s w) (hroot : Root w stem version r es) :
    Realm.Runs (raised r version) s w fun root _ w' => Root w' stem version root es := by
  obtain ⟨height, hsub⟩ := hroot
  have hstem := Realm.stem hrep hsub
  have hsorted := Realm.sorted hsub
  unfold raised
  refine Realm.bind (Realm.page_runs hrep hsub) ?_
  rintro page s' w' hgrows ⟨hpage, rfl, hversion, hholds⟩
  have hrep' := Realm.represents hgrows
  refine Realm.get (Realm.ite (fun hoversized => ?_) fun _ => ?_)
  · have hne : es ≠ [] := hholds.ne_nil_of_arity (by
      have := Page.one_lt_arity hoversized
      omega)
    obtain ⟨parts, hpieces, rfl⟩ := split_pieces s'.settings hholds hne hversion
    refine Realm.bind (refsOf_runs hrep' hpieces hsorted) ?_
    intro refs s'' w'' hgrows' hrow
    have hrefs : refs ≠ [] := by rwa [Ne, ← Keyed.flatten_eq_nil hrow]
    rw [hstem]
    refine Realm.bind (growWithin_runs (Realm.represents hgrows') refs.length hrow hrefs
      (Nat.le_refl _) hsorted) ?_
    rintro grown s₃ w₃ hgrows'' ⟨height', key, root, rfl, hsub'⟩
    exact Realm.pure (Realm.represents hgrows'') ⟨height', hsub'⟩
  · exact Realm.pure hrep' ⟨height, Realm.subtree_grows hgrows hsub⟩

/-- A root that is too large grows, one of a single child gives way, and the entries stay. -/
theorem balanced_runs (hrep : Realm.Represents s w) (hroot : Root w stem version r es) :
    Realm.Runs (balanced r version) s w fun r' _ w' =>
      Root w' stem version r' es ∧ Trim w' r' := by
  rw [balanced_eq]
  refine Realm.bind (raised_runs hrep hroot) ?_
  rintro root s' w' hgrows ⟨height, hsub⟩
  exact Realm.get (collapseWithin_runs (Realm.represents hgrows) _
    (Store.treeSize_lt_depthBound _ _) hsub)

end BTree
end PageTree
