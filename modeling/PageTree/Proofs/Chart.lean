import Mathlib.Data.List.Forall2
import PageTree.Proofs.Pages
import PageTree.Ref.Diff
import PageTree.Ref.Rebuild

/-!
# Charts

What a tree means does not depend on which of its pages happen to be in memory.  A *chart* says
this once: it gives every reference in use its page, whether the page is held in memory (a
`live` site, known by the identity of the reference) or lies in a zone (a `filed` site, known
by its header).  Charts only grow, so a fact about a tree that is read off a chart stays true
while operations go on.

`Chart.Sound` is the judgment that a site is the root of a finite tree whose headers describe
its pages: sizes, spans, tiles and posts are those of the pages, folds are folds of the values
beneath, every page below belongs to the same tree and is not newer than the page above it, and
what lies below a filed page is filed.
-/

namespace PageTree

/-- Where a page of a tree is found. -/
inductive Site where
  /-- In memory, under a reference that has no place in a zone. -/
  | live (r : PageRef)
  /-- At the place in a zone that a header names. -/
  | filed (h : Header)

namespace Site

def header : Site → Header
  | live r => r.header
  | filed h => h

/-- The size of what is still to be written of the subtree. -/
def pending : Site → Nat
  | live r => r.diffSize
  | filed _ => 0

@[simp] theorem header_live (r : PageRef) : (live r).header = r.header := rfl

@[simp] theorem header_filed (h : Header) : (filed h).header = h := rfl

@[simp] theorem pending_live (r : PageRef) : (live r).pending = r.diffSize := rfl

@[simp] theorem pending_filed (h : Header) : (filed h).pending = 0 := rfl

end Site

/-- The site of a reference. -/
def PageRef.site (r : PageRef) : Site :=
  if r.isCommitted then .filed r.header else .live r

namespace PageRef

theorem site_of_committed {r : PageRef} (hcommitted : r.isCommitted = true) :
    r.site = .filed r.header :=
  if_pos hcommitted

theorem site_of_uncommitted {r : PageRef} (huncommitted : r.isCommitted = false) :
    r.site = .live r :=
  if_neg (by simp [huncommitted])

@[simp] theorem header_site (r : PageRef) : r.site.header = r.header := by
  unfold site
  split <;> rfl

theorem site_eq_filed {r : PageRef} {h : Header} (hsite : r.site = .filed h) :
    h = r.header ∧ r.isCommitted = true := by
  unfold site at hsite
  split at hsite
  · next hcommitted =>
      cases hsite
      exact ⟨rfl, hcommitted⟩
  · cases hsite

end PageRef

@[simp] theorem Page.map_site_header (p : LivePage) :
    (p.map PageRef.site).map Site.header = p.stored := by
  simp [Page.map_map, Page.stored]

/-! ## Headers that describe a page -/

/-- What a page covers: the number of entries and the tiles around them. -/
def Page.extent (p : Page Header) : Nat × Tile × Tile :=
  (p.span, p.tiles)

/-- What a header says its page covers. -/
def Header.extent (h : Header) : Nat × Tile × Tile :=
  (h.span, h.x, h.y)

/-- The header is that of the page, at the place that the header names. -/
def Header.Describes (h : Header) (p : Page Header) : Prop :=
  if h.isCommitted then h = (Header.ofPage p h.fold).located p h.zone h.base
  else h = Header.ofPage p h.fold

namespace Header.Describes

variable {h : Header} {p : Page Header}

theorem size_eq (hdesc : h.Describes p) : h.size = p.size := by
  unfold Header.Describes at hdesc
  split at hdesc <;> exact congrArg Header.size hdesc

theorem area_eq (hdesc : h.Describes p) : h.area = p.area := by
  unfold Header.Describes at hdesc
  split at hdesc <;> exact congrArg Header.area hdesc

theorem span_eq (hdesc : h.Describes p) : h.span = p.span := by
  unfold Header.Describes at hdesc
  split at hdesc <;> exact congrArg Header.span hdesc

theorem x_eq (hdesc : h.Describes p) : h.x = p.tiles.1 := by
  unfold Header.Describes at hdesc
  split at hdesc <;> exact congrArg Header.x hdesc

theorem y_eq (hdesc : h.Describes p) : h.y = p.tiles.2 := by
  unfold Header.Describes at hdesc
  split at hdesc <;> exact congrArg Header.y hdesc

end Header.Describes

@[simp] theorem Header.isCommitted_ofPage (p : Page Header) (fold : Value) :
    (Header.ofPage p fold).isCommitted = false := rfl

@[simp] theorem Header.isCommitted_withFold (h : Header) (fold : Value) :
    ({ h with fold } : Header).isCommitted = h.isCommitted := rfl

theorem Header.describes_ofPage (p : Page Header) (fold : Value) :
    (Header.ofPage p fold).Describes p := by
  simp [Header.Describes, Header.ofPage, Header.isCommitted]

/-- The fold is not a part of what a header describes. -/
theorem Header.Describes.withFold {h : Header} {p : Page Header} (hdesc : h.Describes p)
    (fold : Value) : ({ h with fold } : Header).Describes p := by
  unfold Header.Describes at hdesc ⊢
  rw [Header.isCommitted_withFold]
  split at hdesc <;> rename_i hcommitted
  · rw [if_pos hcommitted]
    exact congrArg (fun k : Header => { k with fold }) hdesc
  · rw [if_neg hcommitted]
    exact congrArg (fun k : Header => { k with fold }) hdesc

/-! ## Folds -/

/-- Values are folded by foldings of a set, in one go or by parts. -/
inductive Folded (foldings : PageRef.Folding → Prop) : Value → List Value → Prop where
  | leaf {f : PageRef.Folding} (given : foldings f) (values : List Value) :
      Folded foldings (values.foldl f.combine f.identity) values
  | node {f : PageRef.Folding} {folds : List Value} {parts : List (List Value)} (given : foldings f)
      (length : folds.length = parts.length)
      (beneath : ∀ i h h', Folded foldings (folds.get ⟨i, h⟩) (parts.get ⟨i, h'⟩)) :
      Folded foldings (folds.foldl f.merge f.identity) parts.flatten

theorem Folded.of_forall₂ {foldings : PageRef.Folding → Prop} {f : PageRef.Folding}
    {folds : List Value} {parts : List (List Value)} (given : foldings f)
    (hall : List.Forall₂ (Folded foldings) folds parts) :
    Folded foldings (folds.foldl f.merge f.identity) parts.flatten := by
  obtain ⟨hlength, hget⟩ := List.forall₂_iff_get.1 hall
  exact .node given hlength hget

theorem Folded.mono {foldings foldings' : PageRef.Folding → Prop} {fold : Value}
    {values : List Value} (hfoldings : ∀ f, foldings f → foldings' f)
    (hfolded : Folded foldings fold values) : Folded foldings' fold values := by
  induction hfolded with
  | leaf given values => exact .leaf (hfoldings _ given) values
  | node given length _ ih => exact .node (hfoldings _ given) length ih

/-! ## Charts -/

/-- The references in use, and the pages of their trees. -/
structure Chart where
  /-- The references in use. -/
  refs : PageRef → Prop
  /-- The pages of live sites, by the identities of their references. -/
  live : Nat → Option (Page Site)
  /-- The pages that commits have written, by zone and end. -/
  filed : Nat → Nat → Option (Page Header)
  /-- The foldings that the folds in headers come from. -/
  foldings : PageRef.Folding → Prop

namespace Chart

variable {c c' c'' : Chart} {n m : Site} {p q : Page Site}

/-- The page at a site. -/
def page (c : Chart) : Site → Option (Page Site)
  | .live r => c.live r.id
  | .filed h => (c.filed h.zone h.base).map (Page.map Site.filed)

/-- A chart has all that another has. -/
structure Le (c c' : Chart) : Prop where
  refs : ∀ r, c.refs r → c'.refs r
  live : ∀ id p, c.live id = some p → c'.live id = some p
  filed : ∀ z b p, c.filed z b = some p → c'.filed z b = some p
  foldings : ∀ f, c.foldings f → c'.foldings f

instance : LE Chart := ⟨Le⟩

theorem le_refl (c : Chart) : c ≤ c :=
  ⟨fun _ h => h, fun _ _ h => h, fun _ _ _ h => h, fun _ h => h⟩

theorem le_trans (hle : c ≤ c') (hle' : c' ≤ c'') : c ≤ c'' :=
  ⟨fun r h => hle'.refs r (hle.refs r h), fun id p h => hle'.live id p (hle.live id p h),
    fun z b p h => hle'.filed z b p (hle.filed z b p h),
    fun f h => hle'.foldings f (hle.foldings f h)⟩

theorem page_mono (hle : c ≤ c') (hpage : c.page n = some p) : c'.page n = some p := by
  cases n with
  | live r => exact hle.live _ _ hpage
  | filed h =>
      simp only [page, Option.map_eq_some_iff] at hpage ⊢
      obtain ⟨q, hq, hmap⟩ := hpage
      exact ⟨q, hle.filed _ _ _ hq, hmap⟩

/-- What lies below a filed page is filed. -/
theorem children_of_filed {h : Header} (hpage : c.page (.filed h) = some p)
    (hm : m ∈ p.children) : ∃ k, m = .filed k := by
  simp only [page, Option.map_eq_some_iff] at hpage
  obtain ⟨q, -, rfl⟩ := hpage
  simp only [Page.map_children, List.mem_map] at hm
  obtain ⟨k, -, rfl⟩ := hm
  exact ⟨k, rfl⟩

/-- What lies below a committed page is committed. -/
theorem isCommitted_of_child {r m : PageRef} {p : LivePage}
    (hpage : c.page r.site = some (p.map PageRef.site)) (hcommitted : r.isCommitted = true)
    (hm : m ∈ p.children) : m.isCommitted = true := by
  rw [PageRef.site_of_committed hcommitted] at hpage
  have hmem : m.site ∈ (p.map PageRef.site).children := by
    rw [Page.map_children]
    exact List.mem_map_of_mem hm
  obtain ⟨k, hsite⟩ := children_of_filed hpage hmem
  exact (PageRef.site_eq_filed hsite).2

end Chart

/-! ## Leaves -/

/-- The leaves of a page, told by their shapes, where those beneath its children are known. -/
def Page.Gathers (p : Page Site) (beneath : Site → List (PageBody Unit) → Prop)
    (shapes : List (PageBody Unit)) : Prop :=
  p.isNode = false ∧ shapes = [p.body.shape] ∨
    p.isNode = true ∧ ∃ parts, List.Forall₂ beneath p.children parts ∧ shapes = parts.flatten

theorem Page.Gathers.imp {p : Page Site} {beneath beneath' : Site → List (PageBody Unit) → Prop}
    {shapes : List (PageBody Unit)} (hgathers : p.Gathers beneath shapes)
    (himp : ∀ m ∈ p.children, ∀ shapes, beneath m shapes → beneath' m shapes) :
    p.Gathers beneath' shapes := by
  rcases hgathers with hleaf | ⟨hnode, parts, hparts, rfl⟩
  · exact Or.inl hleaf
  · obtain ⟨hlength, hget⟩ := List.forall₂_iff_get.1 hparts
    exact Or.inr ⟨hnode, parts, List.forall₂_iff_get.2
      ⟨hlength, fun i h h' => himp _ (List.get_mem _ _) _ (hget i h h')⟩, rfl⟩

/-- The leaves beneath a site, told by their shapes, within a depth. -/
def Chart.Reads (c : Chart) : (depth : Nat) → Site → List (PageBody Unit) → Prop
  | 0, _, _ => False
  | depth + 1, n, shapes => ∃ p, c.page n = some p ∧ p.Gathers (c.Reads depth) shapes

theorem Chart.Reads.mono {c c' : Chart} {depth : Nat} {n : Site} {shapes : List (PageBody Unit)}
    (hle : c ≤ c') (hreads : c.Reads depth n shapes) : c'.Reads depth n shapes := by
  induction depth generalizing n shapes with
  | zero => exact hreads
  | succ depth ih =>
      obtain ⟨p, hp, hgathers⟩ := hreads
      exact ⟨p, Chart.page_mono hle hp, hgathers.imp fun _ _ _ => ih⟩

/-- The value folds those beneath a page. -/
def Chart.FoldsTo (c : Chart) (p : Page Site) (fold : Value) : Prop :=
  ∃ depth shapes, p.Gathers (c.Reads depth) shapes ∧
    Folded c.foldings fold (shapes.flatMap PageBody.values)

/-- The value folds those beneath a page, unless it says that the fold is not known. -/
def Chart.Folds (c : Chart) (p : Page Site) (fold : Value) : Prop :=
  fold.isDefined = true → c.FoldsTo p fold

theorem Chart.FoldsTo.mono {c c' : Chart} {p : Page Site} {fold : Value} (hle : c ≤ c')
    (hfolds : c.FoldsTo p fold) : c'.FoldsTo p fold := by
  obtain ⟨depth, shapes, hgathers, hfolded⟩ := hfolds
  exact ⟨depth, shapes, hgathers.imp fun _ _ _ => Chart.Reads.mono hle,
    hfolded.mono hle.foldings⟩

theorem Chart.Folds.mono {c c' : Chart} {p : Page Site} {fold : Value} (hle : c ≤ c')
    (hfolds : c.Folds p fold) : c'.Folds p fold :=
  fun hdefined => (hfolds hdefined).mono hle

theorem Chart.folds_absent (c : Chart) (p : Page Site) : c.Folds p .absent := by
  intro hdefined
  cases hdefined

/-- A page may stand below another. -/
structure Page.Covers (p q : Page Site) : Prop where
  treeKind : q.treeKind = p.treeKind
  stem : q.stem = p.stem
  version : q.version ≤ p.version

/-- What a site has beside a page: a live one the kind and the stem of its tree and the size of
what is to be written, a filed one a place. -/
def Site.Fits (n : Site) (p : Page Site) : Prop :=
  match n with
  | .live r => r.isCommitted = false ∧ r.tree = p.treeKind ∧ r.stem = p.stem ∧
      r.diffSize = r.header.size + 1 + (p.children.map Site.pending).sum
  | .filed h => h.isCommitted = true

namespace Chart

variable {c c' : Chart} {n m : Site} {p q : Page Site}

/-- A site is the root of a finite tree whose headers describe its pages. -/
inductive Sound (c : Chart) : Site → Prop where
  | intro {n : Site} {p : Page Site} (found : c.page n = some p)
      (described : n.header.Describes (p.map Site.header)) (fits : n.Fits p)
      (folded : c.Folds p n.header.fold)
      (covers : ∀ m ∈ p.children, ∃ q, c.page m = some q ∧ p.Covers q)
      (beneath : ∀ m ∈ p.children, Sound c m) : Sound c n

theorem Sound.mono (hle : c ≤ c') (hsound : c.Sound n) : c'.Sound n := by
  induction hsound with
  | intro found described fits folded covers _ ih =>
      refine .intro (page_mono hle found) described fits (folded.mono hle) ?_ ih
      intro m hm
      obtain ⟨q, hq, hcovers⟩ := covers m hm
      exact ⟨q, page_mono hle hq, hcovers⟩

theorem Sound.page (hsound : c.Sound n) : ∃ p, c.page n = some p := by
  cases hsound with
  | intro found => exact ⟨_, found⟩

theorem Sound.describes (hsound : c.Sound n) (hpage : c.page n = some p) :
    n.header.Describes (p.map Site.header) := by
  cases hsound with
  | intro found described =>
      rw [found] at hpage
      cases hpage
      exact described

theorem Sound.fits (hsound : c.Sound n) (hpage : c.page n = some p) : n.Fits p := by
  cases hsound with
  | intro found _ fits =>
      rw [found] at hpage
      cases hpage
      exact fits

theorem Sound.folded (hsound : c.Sound n) (hpage : c.page n = some p) :
    c.Folds p n.header.fold := by
  cases hsound with
  | intro found _ _ folded =>
      rw [found] at hpage
      cases hpage
      exact folded

theorem Sound.covers (hsound : c.Sound n) (hpage : c.page n = some p) (hm : m ∈ p.children) :
    ∃ q, c.page m = some q ∧ p.Covers q := by
  cases hsound with
  | intro found _ _ _ covers =>
      rw [found] at hpage
      cases hpage
      exact covers m hm

theorem Sound.child (hsound : c.Sound n) (hpage : c.page n = some p) (hm : m ∈ p.children) :
    c.Sound m := by
  cases hsound with
  | intro found _ _ _ _ beneath =>
      rw [found] at hpage
      cases hpage
      exact beneath m hm

/-- The subtree below a child is smaller, which bounds every descent. -/
theorem Sound.area_lt (hsound : c.Sound n) (hpage : c.page n = some p) (hm : m ∈ p.children) :
    m.header.area < n.header.area := by
  rw [(hsound.describes hpage).area_eq, Page.area_eq_sum, Page.map_children]
  have hmem : m.header.area ∈ (p.children.map Site.header).map Header.area := by
    simp only [List.map_map, List.mem_map]
    exact ⟨m, hm, rfl⟩
  have hle := le_sum_of_mem hmem
  omega

theorem Sound.area_pos (hsound : c.Sound n) : 0 < n.header.area := by
  obtain ⟨p, hpage⟩ := hsound.page
  rw [(hsound.describes hpage).area_eq, Page.area_eq_sum]
  omega

/-! ## Headers that cover what lies beneath -/

/-- The headers of a tree cover what their pages do. -/
inductive Measured (c : Chart) : Site → Prop where
  | intro {n : Site} {p : Page Site} (found : c.page n = some p)
      (extent : n.header.extent = (p.map Site.header).extent)
      (beneath : ∀ m ∈ p.children, Measured c m) : Measured c n

theorem Measured.extent (hmeasured : c.Measured n) (hpage : c.page n = some p) :
    n.header.extent = (p.map Site.header).extent := by
  obtain ⟨hfound, hextent, -⟩ := hmeasured
  rw [hfound] at hpage
  cases hpage
  exact hextent

theorem Measured.child (hmeasured : c.Measured n) (hpage : c.page n = some p)
    (hm : m ∈ p.children) : c.Measured m := by
  obtain ⟨hfound, -, hbeneath⟩ := hmeasured
  rw [hfound] at hpage
  cases hpage
  exact hbeneath m hm

theorem Measured.span_eq (hmeasured : c.Measured n) (hpage : c.page n = some p) :
    n.header.span = (p.map Site.header).span :=
  congrArg Prod.fst (hmeasured.extent hpage)

theorem Measured.tiles_eq (hmeasured : c.Measured n) (hpage : c.page n = some p) :
    (n.header.x, n.header.y) = (p.map Site.header).tiles :=
  congrArg Prod.snd (hmeasured.extent hpage)

/-- The span of a node is that of its children together. -/
theorem Measured.span_of_isNode (hmeasured : c.Measured n) (hpage : c.page n = some p)
    (hnode : p.isNode = true) :
    n.header.span = (p.children.map fun m => m.header.span).sum := by
  rw [hmeasured.span_eq hpage, Page.span_eq_sum, if_pos (by simpa using hnode)]
  simp only [Page.map_children, List.map_map]
  rfl

/-- The span of a leaf is the number of its entries. -/
theorem Measured.span_of_leaf (hmeasured : c.Measured n) (hpage : c.page n = some p)
    (hleaf : p.isNode = false) : n.header.span = p.arity := by
  rw [hmeasured.span_eq hpage, Page.span_eq_sum, if_neg (by simp [hleaf])]
  simp

/-- Headers that describe their pages cover what these do. -/
theorem Sound.measured (hsound : c.Sound n) : c.Measured n := by
  induction hsound with
  | intro found described _ _ _ _ ih =>
      refine .intro found ?_ ih
      exact Prod.ext described.span_eq (Prod.ext described.x_eq described.y_eq)

end Chart
end PageTree
