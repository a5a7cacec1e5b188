import Mathlib.Algebra.BigOperators.Group.List.Basic
import PageTree.Proofs.Commit.Printing
import PageTree.Proofs.Rebuild

/-!
# All pages of a tree

`PageRef.survey` reads all pages of a tree, each before those beneath it.  What it gives is told by
the chart (`survey_runs`), and the numbers that a reference carries, in its header or beside it, are
sums over these pages (`Chart.Sound.measures`).
-/

namespace PageTree

open StoreM

variable {s : Store} {c c' : Chart} {n : Site} {p : Page Site} {r : PageRef}
  {found found' : List (Site × Page Header)}

/-! ## Listing pages -/

/-- The page lies in memory only. -/
def Site.isLive : Site → Bool
  | .live _ => true
  | .filed _ => false

/-- The pages of the tree at a site, each with its own site and before those beneath it. -/
inductive Chart.Lists (c : Chart) : Site → List (Site × Page Header) → Prop where
  | intro {n : Site} {p : Page Site} {parts : List (List (Site × Page Header))}
      (found : c.page n = some p) (length : p.children.length = parts.length)
      (beneath : ∀ i h h', Lists c (p.children.get ⟨i, h⟩) (parts.get ⟨i, h'⟩)) :
      Lists c n ((n, p.map Site.header) :: parts.flatten)

namespace Chart.Lists

theorem of_forall₂ {parts : List (List (Site × Page Header))} (hpage : c.page n = some p)
    (hparts : List.Forall₂ c.Lists p.children parts) :
    c.Lists n ((n, p.map Site.header) :: parts.flatten) := by
  obtain ⟨hlength, hget⟩ := List.forall₂_iff_get.1 hparts
  exact .intro hpage hlength hget

theorem mono (hle : c ≤ c') (hlists : c.Lists n found) : c'.Lists n found := by
  induction hlists with
  | intro found length _ ih => exact .intro (Chart.page_mono hle found) length ih

/-- There is just one way to list the pages of a tree. -/
theorem unique (hlists : c.Lists n found) (hlists' : c.Lists n found') : found' = found := by
  induction hlists generalizing found' with
  | @intro n p parts hpage length _ ih =>
      cases hlists' with
      | @intro _ p' parts' hpage' length' beneath' =>
          rw [hpage] at hpage'
          cases hpage'
          have hparts : parts' = parts :=
            List.ext_get (length'.symm.trans length) fun i h h' => by
              have hi : i < p.children.length := by omega
              exact ih i hi h' (beneath' i hi h)
          rw [hparts]

/-- The pages of a filed page's tree are all filed. -/
theorem of_filed_eq {h : Header} (hfiled : c'.filed = c.filed)
    (hlists : c'.Lists (.filed h) found) : c.Lists (.filed h) found := by
  generalize hn : Site.filed h = n at hlists
  induction hlists generalizing h with
  | @intro n p parts hpage length _ ih =>
      subst hn
      have hpage' : c.page (.filed h) = some p := by
        rw [← hpage, Chart.page, Chart.page, hfiled]
      refine .intro hpage' length fun i hi hi' => ?_
      obtain ⟨k, hk⟩ := Chart.children_of_filed hpage (List.get_mem p.children ⟨i, hi⟩)
      exact ih i hi hi' hk.symm

end Chart.Lists

/-! ## Measures -/

/-- The numbers that go with a site are those of its page and of all pages of its tree. -/
structure Site.Measures (n : Site) (found : List (Site × Page Header)) : Prop where
  first : ∃ p rest, found = (n, p) :: rest ∧ n.header.size = p.toText.utf8ByteSize
  area : n.header.area = (found.map fun e => e.2.toText.utf8ByteSize + 1).sum
  span : n.header.span = (found.map fun e => e.2.values.length).sum
  pending : n.pending =
    ((found.filter fun e => e.1.isLive).map fun e => e.2.toText.utf8ByteSize + 1).sum

/-- A sum over the parts of a list goes along with another sum. -/
theorem sum_flatten_of_forall₂ {α β : Type} {as : List α} {parts : List (List β)} {f : α → Nat}
    {g : List β → Nat} (hg : ∀ l l', g (l ++ l') = g l + g l') (hnil : g [] = 0)
    (hall : List.Forall₂ (fun a part => f a = g part) as parts) :
    g parts.flatten = (as.map f).sum := by
  induction hall with
  | nil => exact hnil
  | cons hab _ ih => rw [List.flatten_cons, hg, ih, List.map_cons, List.sum_cons, hab]

/-- The entries of a leaf, and none of a node. -/
theorem Page.length_values {γ : Type} (p : Page γ) :
    p.values.length = if p.isNode then 0 else p.arity := by
  obtain ⟨version, stem, body⟩ := p
  cases body with
  | utreeLeaf value =>
      show (if value.isDefined then [value] else []).length = if value.isDefined then 1 else 0
      split <;> rfl
  | btreeLeaf slots => exact List.length_map _
  | qtreeLeaf slots => exact List.length_map _
  | btreeNode | qtreeNode => rfl

/-- A page is measured by itself and by what its children are measured by. -/
theorem Chart.Sound.measures_of_forall₂ {parts : List (List (Site × Page Header))}
    (hsound : c.Sound n) (hpage : c.page n = some p)
    (hparts : List.Forall₂ Site.Measures p.children parts) :
    n.Measures ((n, p.map Site.header) :: parts.flatten) := by
  have hdesc := hsound.describes hpage
  have htext : (p.map Site.header).toText.utf8ByteSize = (p.map Site.header).size :=
    Text.utf8ByteSize_ofList _
  have hareas := sum_flatten_of_forall₂
    (g := fun l : List (Site × Page Header) => (l.map fun e => e.2.toText.utf8ByteSize + 1).sum)
    (by simp) rfl (hparts.imp fun _ _ hm => hm.area)
  have hspans := sum_flatten_of_forall₂
    (g := fun l : List (Site × Page Header) => (l.map fun e => e.2.values.length).sum)
    (by simp) rfl (hparts.imp fun _ _ hm => hm.span)
  have hpendings := sum_flatten_of_forall₂
    (g := fun l : List (Site × Page Header) =>
      ((l.filter fun e => e.1.isLive).map fun e => e.2.toText.utf8ByteSize + 1).sum)
    (by simp) rfl (hparts.imp fun _ _ hm => hm.pending)
  refine ⟨⟨_, _, rfl, hdesc.size_eq.trans htext.symm⟩, ?_, ?_, ?_⟩
  · rw [hdesc.area_eq, Page.area_eq_sum, List.map_cons, List.sum_cons, hareas, htext, Page.map_children,
      List.map_map]
    rfl
  · rw [List.map_cons, List.sum_cons, hspans, Page.length_values, Page.map_isNode, Page.map_arity]
    cases hnode : p.isNode with
    | true => rw [hsound.measured.span_of_isNode hpage hnode, if_pos rfl, Nat.zero_add]
    | false =>
        rw [hsound.measured.span_of_leaf hpage hnode, Page.children_of_not_isNode hnode]
        rfl
  · cases n with
    | live r =>
        obtain ⟨-, -, -, hsize⟩ := hsound.fits hpage
        rw [List.filter_cons_of_pos rfl, List.map_cons, List.sum_cons, hpendings, Site.pending_live,
          hsize, htext, ← hdesc.size_eq]
        rfl
    | filed h =>
        -- what lies beneath a filed page is filed, and nothing of it is to be written
        have hnone : (p.children.map Site.pending).sum = 0 := by
          refine List.sum_eq_zero fun k hk => ?_
          obtain ⟨m, hm, rfl⟩ := List.mem_map.1 hk
          obtain ⟨k, rfl⟩ := Chart.children_of_filed hpage hm
          rfl
        rw [List.filter_cons_of_neg (by simp [Site.isLive]), hpendings, hnone]
        rfl

/-- Every tree has its pages, and its numbers are the sums over them. -/
theorem Chart.Sound.exists_lists (hsound : c.Sound n) :
    ∃ found, c.Lists n found ∧ n.Measures found := by
  induction hsound with
  | @intro n p hpage described fits folded covers beneath ih =>
      obtain ⟨parts, hparts⟩ := exists_forall₂ ih
      exact ⟨_, .of_forall₂ hpage (hparts.imp fun _ _ hpart => hpart.1),
        (Chart.Sound.intro hpage described fits folded covers beneath).measures_of_forall₂ hpage
          (hparts.imp fun _ _ hpart => hpart.2)⟩

/-! ## Reading all pages -/

namespace PageRef

/-- The pages of a subtree within a depth, each with its reference. -/
def surveyWithin : Nat → PageRef → StoreM (List (PageRef × LivePage))
  | 0, _ => throw StoreM.tooDeep
  | depth + 1, r => do
    let page ← r.page
    let beneath ← page.children.mapM (surveyWithin depth)
    return (r, page) :: beneath.flatten

/-- The pages of a subtree, each with its reference and before those beneath it. -/
def survey (r : PageRef) : StoreM (List (PageRef × LivePage)) := do
  surveyWithin ((← get).depthBound r) r

/-- Where a page has been found, and the page as it is stored. -/
def placed (e : PageRef × LivePage) : Site × Page Header :=
  (e.1.site, e.2.stored)

theorem surveyWithin_runs (hrep : Represents s c) (depth : Nat) (hdepth : r.treeSize < depth)
    (hr : c.refs r) :
    Runs (surveyWithin depth r) s c fun l _ c' => c'.Lists r.site (l.map placed) := by
  induction depth generalizing s c r with
  | zero => exact absurd hdepth (Nat.not_lt_zero _)
  | succ depth ih =>
      unfold surveyWithin
      refine Runs.bind (page_runs hrep hr) ?_
      rintro page s' c' hgrows ⟨hpage, hrefs⟩
      refine Runs.bind (Runs.listMapM (R := fun m l _ c' => c'.Lists m.site (l.map placed))
        hgrows.represents page.children ?_ ?_) ?_
      · exact fun _ _ _ _ _ _ hgrows' hlists => hlists.mono hgrows'.le
      · intro m hm s'' c'' hgrows'
        have hlt := hgrows.represents.treeSize_lt (hgrows.le.refs r hr) hpage hm
        exact ih hgrows'.represents (by omega) (hgrows'.le.refs m (hrefs m hm))
      · intro parts s'' c'' hgrows' hparts
        refine Runs.pure hgrows'.represents ?_
        have hall : List.Forall₂ c''.Lists (page.map site).children
            (parts.map (List.map placed)) := by
          rw [Page.map_children, List.forall₂_map_left_iff, List.forall₂_map_right_iff]
          exact hparts
        have hlists := Chart.Lists.of_forall₂ (Chart.page_mono hgrows'.le hpage) hall
        rw [Page.map_site_header] at hlists
        rw [List.map_cons, List.map_flatten]
        exact hlists

/-- A survey gives the pages that the chart tells. -/
theorem survey_runs (hrep : Represents s c) (hr : c.refs r) :
    Runs r.survey s c fun l _ c' => c'.Lists r.site (l.map placed) :=
  Runs.get (surveyWithin_runs hrep _ (Store.treeSize_lt_depthBound _ _) hr)

end PageRef
end PageTree
