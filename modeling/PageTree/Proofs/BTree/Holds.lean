import PageTree.Proofs.BTree.Realm

/-!
# The entries of a B-tree

`BTree.Holds c height n es` says that the site `n` is the root of a B-tree whose leaves lie at
one height and hold the sorted entries `es` from left to right, every child keyed with the least
key of its subtree.  No subtree below a node is empty, since an empty one has no least key; only
a root can be a leaf without entries or a node without children.

The same is said of references that can stand below a page (`Subtree`), which makes charts a
realm of B-trees.
-/

namespace PageTree
namespace BTree

open StoreM

/-! ## Entries beneath a site -/

/-- The site is the root of a B-tree of a height with sorted entries. -/
def Holds (c : Chart) : (height : Nat) → Site → List Entry → Prop
  | 0, n, es => Entries.Sorted es ∧ ∃ p, c.page n = some p ∧ p.body = .btreeLeaf es
  | height + 1, n, es => Entries.Sorted es ∧ ∃ p children parts, c.page n = some p ∧
      p.body = .btreeNode children ∧ Keyed (Holds c height) children parts ∧ es = parts.flatten

section Holds

variable {c c' : Chart} {height height' : Nat} {n : Site} {es es' : List Entry}

theorem Holds.sorted (hholds : Holds c height n es) : Entries.Sorted es := by
  cases height <;> exact hholds.1

theorem Holds.mono (hle : c ≤ c') (hholds : Holds c height n es) : Holds c' height n es := by
  induction height generalizing n es with
  | zero =>
      obtain ⟨hsorted, p, hp, hbody⟩ := hholds
      exact ⟨hsorted, p, Chart.page_mono hle hp, hbody⟩
  | succ height ih =>
      obtain ⟨hsorted, p, children, parts, hp, hbody, hkeyed, hes⟩ := hholds
      exact ⟨hsorted, p, children, parts, Chart.page_mono hle hp, hbody,
        hkeyed.imp fun _ _ => ih, hes⟩

/-- A leaf has the entries in its slots. -/
theorem Holds.of_leaf {p : Page Site} (hholds : Holds c height n es) (hpage : c.page n = some p)
    (hleaf : p.isNode = false) : p.body = .btreeLeaf es := by
  cases height with
  | zero =>
      obtain ⟨-, q, hq, hbody⟩ := hholds
      rw [hpage] at hq
      cases hq
      exact hbody
  | succ height =>
      obtain ⟨-, q, children, parts, hq, hbody, -⟩ := hholds
      rw [hpage] at hq
      cases hq
      rw [Page.isNode, Page.kind, hbody] at hleaf
      cases hleaf

/-- A node has the entries of its children, each keyed with the first of its own. -/
theorem Holds.of_isNode {p : Page Site} (hholds : Holds c height n es) (hpage : c.page n = some p)
    (hnode : p.isNode = true) : ∃ below children parts, p.body = .btreeNode children ∧
      Keyed (Holds c below) children parts ∧ es = parts.flatten := by
  cases height with
  | zero =>
      obtain ⟨-, q, hq, hbody⟩ := hholds
      rw [hpage] at hq
      cases hq
      rw [Page.isNode, Page.kind, hbody] at hnode
      cases hnode
  | succ height =>
      obtain ⟨-, q, children, parts, hq, hrest⟩ := hholds
      rw [hpage] at hq
      cases hq
      exact ⟨height, children, parts, hrest⟩

/-- The pages are those of a B-tree. -/
theorem Holds.treeKind {p : Page Site} (hholds : Holds c height n es) (hpage : c.page n = some p) :
    p.treeKind = .btree := by
  obtain ⟨v, stem, body⟩ := p
  cases hnode : (⟨v, stem, body⟩ : Page Site).isNode with
  | false =>
      cases hholds.of_leaf hpage hnode
      rfl
  | true =>
      obtain ⟨below, children, parts, rfl, -⟩ := hholds.of_isNode hpage hnode
      rfl

/-- The entries beneath a site are determined. -/
theorem Holds.unique (hholds : Holds c height n es) (hholds' : Holds c height' n es') :
    es = es' := by
  induction height generalizing height' n es es' with
  | zero =>
      obtain ⟨-, ⟨version, stem, body⟩, hp, rfl⟩ := hholds
      cases hholds'.of_leaf hp rfl
      rfl
  | succ height ih =>
      obtain ⟨-, ⟨version, stem, body⟩, children, parts, hp, rfl, hkeyed, rfl⟩ := hholds
      obtain ⟨below, children', parts', hbody, hkeyed', rfl⟩ := hholds'.of_isNode hp rfl
      cases hbody
      have hparts : List.Forall₂ Eq parts parts' :=
        forall₂_join hkeyed hkeyed' fun _ _ _ hchild hchild' => ih hchild.2 hchild'.2
      rw [List.forall₂_eq_eq_eq] at hparts
      rw [hparts]

/-- The span of a B-tree is the number of its entries. -/
theorem Holds.span (hmeasured : c.Measured n) (hholds : Holds c height n es) :
    n.header.span = es.length := by
  induction height generalizing n es with
  | zero =>
      obtain ⟨-, ⟨version, stem, body⟩, hp, rfl⟩ := hholds
      rw [hmeasured.span_of_leaf hp rfl, Page.arity]
  | succ height ih =>
      obtain ⟨-, ⟨version, stem, body⟩, children, parts, hp, rfl, hkeyed, rfl⟩ := hholds
      rw [hmeasured.span_of_isNode hp rfl]
      have hbeneath : ∀ m ∈ children.map Prod.snd, c.Measured m :=
        fun m hm => hmeasured.child hp hm
      simp only [Page.children]
      clear hp
      induction hkeyed with
      | nil => rfl
      | cons hchild _ ih' =>
          simp only [List.map_cons, List.sum_cons, List.flatten_cons, List.length_append]
          rw [ih (hbeneath _ (by simp)) hchild.2, ih' fun m hm => hbeneath m (by simp [hm])]

end Holds

/-! ## References and pages -/

/-- A reference that can stand below a page of some stem and version, with the entries beneath
it. -/
structure Subtree (c : Chart) (height stem version : Nat) (r : PageRef) (es : List Entry) :
    Prop where
  fit : c.Fit .btree stem version r
  holds : Holds c height r.site es

section Subtree

variable {s : Store} {c c' : Chart} {height height' stem version version' : Nat} {r m : PageRef}
  {es es' : List Entry} {p : LivePage} {fold : Value}

theorem Subtree.mono (hle : c ≤ c') (hsub : Subtree c height stem version r es) :
    Subtree c' height stem version r es :=
  ⟨hsub.fit.mono hle, hsub.holds.mono hle⟩

theorem Subtree.raise (hsub : Subtree c height stem version r es) (hle : version ≤ version') :
    Subtree c height stem version' r es :=
  ⟨hsub.fit.raise hle, hsub.holds⟩

theorem Subtree.span (hrep : Represents s c) (hsub : Subtree c height stem version r es) :
    r.span = es.length := by
  have hspan := hsub.holds.span (hrep.sound r hsub.fit.refs).measured
  rwa [PageRef.header_site] at hspan

/-- References in use that are one are equal. -/
theorem Subtree.same (hrep : Represents s c) (hsub : Subtree c height stem version r es)
    (hsub' : Subtree c height' stem version' m es') (hsame : r.same m = true) : es = es' := by
  obtain rfl := hrep.eq_of_same hsub.fit.refs hsub'.fit.refs hsame
  exact hsub.holds.unique hsub'.holds

theorem PageHolds.mono (hle : c ≤ c') (hholds : PageHolds (Subtree c) height p es) :
    PageHolds (Subtree c') height p es :=
  hholds.imp fun _ _ _ _ _ => Subtree.mono hle

theorem PageHolds.fit (hholds : PageHolds (Subtree c) height p es) :
    ∀ m ∈ p.children, c.Fit p.treeKind p.stem p.version m := by
  rw [hholds.treeKind]
  obtain ⟨version, stem, body⟩ := p
  cases height with
  | zero =>
      cases hholds
      simp [Page.children]
  | succ height =>
      obtain ⟨children, parts, rfl, hkeyed, -⟩ := hholds
      intro m hm
      obtain ⟨child, hchild, rfl⟩ := List.mem_map.1 hm
      obtain ⟨part, -, -, hsub⟩ := exists_of_forall₂_right (List.Forall₂.flip hkeyed) hchild
      exact hsub.fit

/-- What is beneath a reference in use, seen at its page. -/
theorem Holds.page_holds (hrep : Represents s c) (hr : c.refs r)
    (hpage : c.page r.site = some (p.map PageRef.site)) (hrefs : ∀ m ∈ p.children, c.refs m)
    (hholds : Holds c height r.site es) : PageHolds (Subtree c) height p es := by
  obtain ⟨version, stem, body⟩ := p
  cases height with
  | zero =>
      obtain ⟨-, q, hq, hbody⟩ := hholds
      rw [hpage] at hq
      cases hq
      cases body <;> cases hbody
      rfl
  | succ height =>
      obtain ⟨-, q, sites, parts, hq, hbody, hkeyed, rfl⟩ := hholds
      rw [hpage] at hq
      cases hq
      have hfit := fun m hm => hrep.child_fit hr hpage hm (hrefs m hm)
      cases body <;> cases hbody
      next children =>
      refine ⟨children, parts, rfl, ?_, rfl⟩
      -- each child site is that of a reference, which fits below the page
      replace hfit : ∀ m ∈ children.map Prod.snd, c.Fit .btree stem version m := hfit
      clear hpage hrefs
      induction children generalizing parts with
      | nil =>
          cases hkeyed
          exact List.Forall₂.nil
      | cons child children ih =>
          obtain ⟨part, parts', hchild, hrest, rfl⟩ := List.forall₂_cons_left_iff.1 hkeyed
          exact List.Forall₂.cons ⟨hchild.1, hfit _ (by simp), hchild.2⟩
            (ih _ hrest fun m hm => hfit m (by simp [hm]))

/-- What a page holds is beneath the sites of its references. -/
theorem PageHolds.holds {n : Site} (hpage : c.page n = some (p.map PageRef.site))
    (hsorted : Entries.Sorted es) (hholds : PageHolds (Subtree c) height p es) :
    Holds c height n es := by
  obtain ⟨version, stem, body⟩ := p
  cases height with
  | zero =>
      cases hholds
      exact ⟨hsorted, _, hpage, rfl⟩
  | succ height =>
      obtain ⟨children, parts, rfl, hrow, rfl⟩ := hholds
      refine ⟨hsorted, _, _, parts, hpage, rfl, ?_, rfl⟩
      exact List.forall₂_map_left_iff.2
        (List.Forall₂.imp (fun _ _ hchild => ⟨hchild.1, hchild.2.holds⟩) hrow)

/-- A new page with what it holds. -/
theorem PageHolds.ofPage_runs (hrep : Represents s c)
    (hsorted : Entries.Sorted es) (hholds : PageHolds (Subtree c) height p es) :
    Runs (PageRef.ofPage p .absent) s c fun r _ c' =>
      Subtree c' height p.stem p.version r es ∧ c'.page r.site = some (p.map PageRef.site) := by
  refine (PageRef.ofPage_runs hrep p hholds.fit).mono ?_
  intro r s' c' hgrows hmade
  refine ⟨⟨?_, (hholds.mono hgrows.le).holds hmade.page hsorted⟩, hmade.page⟩
  rw [← hholds.treeKind]
  exact hmade.fit

/-- The page of a reference, with what it holds. -/
theorem Subtree.page_runs (hrep : Represents s c) (hsub : Subtree c height stem version r es) :
    Runs r.page s c fun p _ c' => c'.page r.site = some (p.map PageRef.site) ∧
      p.stem = stem ∧ p.version ≤ version ∧ PageHolds (Subtree c') height p es := by
  refine (PageRef.page_runs hrep hsub.fit.refs).mono ?_
  rintro p s' c' hgrows ⟨hpage, hrefs⟩
  obtain ⟨q, hq, -, hstem, hversion⟩ := (hsub.fit.mono hgrows.le).page
  rw [hpage] at hq
  cases hq
  exact ⟨hpage, by simpa using hstem, by simpa using hversion,
    (hsub.holds.mono hgrows.le).page_holds hgrows.represents (hgrows.le.refs r hsub.fit.refs)
      hpage hrefs⟩

end Subtree

/-! ## Trees on a chart -/

/-- Trees of which any part lies in zones, as a chart has them. -/
instance : Realm Chart where
  Represents := PageTree.Represents
  Grows := PageTree.Grows
  Runs := PageTree.Runs
  Subtree := Subtree
  PageAt c r p := c.page r.site = some (p.map PageRef.site)
  Below := (· ≤ ·)
  grows_refl := Grows.refl
  grows_trans := Grows.trans
  represents := Grows.represents
  pure hrep hpost := Runs.pure hrep hpost
  bind := Runs.bind
  mono := Runs.mono
  get := Runs.get
  below_refl := Nat.le_refl
  subtree_grows hgrows hsub := hsub.mono hgrows.le
  subtree_raise := Subtree.raise
  sorted hsub := hsub.holds.sorted
  span := Subtree.span
  stem hrep hsub := hrep.stem_eq hsub.fit
  same := Subtree.same
  treeSize_lt hrep hsub hpage hm := hrep.treeSize_lt hsub.fit.refs hpage hm
  page_runs := Subtree.page_runs
  ofPage_runs hrep hsorted hholds := hholds.ofPage_runs hrep hsorted

end BTree
end PageTree
