import PageTree.Proofs.Effect
import PageTree.Proofs.Text.Pages

/-!
# Making and resolving references

What the operations on trees are built from: a new reference for a new page
(`PageRef.ofPage_runs`), the same page under another fold (`PageRef.withFold_runs`), and the
page of a reference, found in memory or loaded from its zone (`PageRef.page_runs`).
-/

namespace PageTree

open StoreM

/-- A reference can stand below a page of some kind, stem and version. -/
structure Chart.Fit (c : Chart) (kind : TreeKind) (stem version : Nat) (r : PageRef) : Prop where
  refs : c.refs r
  page : ∃ q, c.page r.site = some q ∧ q.treeKind = kind ∧ q.stem = stem ∧ q.version ≤ version

namespace Chart.Fit

variable {c c' : Chart} {kind : TreeKind} {stem version version' : Nat} {r : PageRef}

theorem mono (hle : c ≤ c') (hfit : c.Fit kind stem version r) : c'.Fit kind stem version r := by
  obtain ⟨q, hq, hrest⟩ := hfit.page
  exact ⟨hle.refs r hfit.refs, q, page_mono hle hq, hrest⟩

theorem raise (hfit : c.Fit kind stem version r) (hle : version ≤ version') :
    c.Fit kind stem version' r := by
  obtain ⟨q, hq, hkind, hstem, hversion⟩ := hfit.page
  exact ⟨hfit.refs, q, hq, hkind, hstem, Nat.le_trans hversion hle⟩

end Chart.Fit

/-- A reference has been made for a page. -/
structure Made (s : Store) (c' : Chart) (page : LivePage) (fold : Value) (r : PageRef) : Prop where
  refs : c'.refs r
  fresh : s.cells.size ≤ r.id
  uncommitted : r.isCommitted = false
  header : r.header = .ofPage page.stored fold
  page : c'.page r.site = some (page.map PageRef.site)

namespace Made

variable {s : Store} {c' c'' : Chart} {page : LivePage} {fold : Value} {r : PageRef}

theorem fit (hmade : Made s c' page fold r) :
    c'.Fit page.treeKind page.stem page.version r :=
  ⟨hmade.refs, _, hmade.page, by simp, by simp, by simp⟩

end Made

/-- References in use are the same where their identities are. -/
theorem Mirrors.eq_of_same {s : Store} {c : Chart} (hrep : Mirrors s c) {r r' : PageRef}
    (hr : c.refs r) (hr' : c.refs r') (hsame : r.same r' = true) : r = r' :=
  hrep.unique r r' hr hr' (by simpa [PageRef.same] using hsame)

/-- The child of a page in use fits below it. -/
theorem Mirrors.child_fit {s : Store} {c : Chart} (hrep : Mirrors s c) {r m : PageRef}
    {p : LivePage} (hr : c.refs r) (hpage : c.page r.site = some (p.map PageRef.site))
    (hm : m ∈ p.children) (hrefs : c.refs m) : c.Fit p.treeKind p.stem p.version m := by
  have hmem : m.site ∈ (p.map PageRef.site).children := by
    simp only [Page.map_children, List.mem_map]
    exact ⟨m, hm, rfl⟩
  obtain ⟨q, hq, hcovers⟩ := (hrep.sound r hr).covers hpage hmem
  exact ⟨hrefs, q, hq, by simpa using hcovers.treeKind, by simpa using hcovers.stem,
    by simpa using hcovers.version⟩

/-- A reference is of the stem that it fits. -/
theorem Mirrors.stem_eq {s : Store} {c : Chart} (hrep : Mirrors s c) {kind : TreeKind}
    {stem version : Nat} {r : PageRef} (hfit : c.Fit kind stem version r) : r.stem = stem := by
  obtain ⟨q, hq, -, hstem, -⟩ := hfit.page
  rw [← hstem]
  exact (hrep.fits r q hfit.refs hq).2

/-- The fold of a reference in use is one of the values beneath its page. -/
theorem Mirrors.folds {s : Store} {c : Chart} (hrep : Mirrors s c) {r : PageRef} {p : Page Site}
    (hr : c.refs r) (hpage : c.page r.site = some p) : c.Folds p r.fold := by
  have hfolded := (hrep.sound r hr).folded hpage
  rwa [PageRef.header_site] at hfolded

/-- The subtree of a child is smaller than that of its page. -/
theorem Mirrors.treeSize_lt {s : Store} {c : Chart} (hrep : Mirrors s c) {r m : PageRef}
    {p : LivePage} (hr : c.refs r) (hpage : c.page r.site = some (p.map PageRef.site))
    (hm : m ∈ p.children) : m.treeSize < r.treeSize := by
  have hmem : m.site ∈ (p.map PageRef.site).children := by
    simp only [Page.map_children, List.mem_map]
    exact ⟨m, hm, rfl⟩
  have hlt := (hrep.sound r hr).area_lt hpage hmem
  rwa [PageRef.header_site, PageRef.header_site] at hlt

namespace PageRef

variable {s : Store} {c : Chart}

/-! ## New references -/

theorem exec_copyOf (page : LivePage) (s : Store) :
    exec (copyOf page) s =
      (.ok ⟨s.nextSerial, page⟩, { s with nextSerial := s.nextSerial + 1 }) := rfl

theorem exec_ofPage (page : LivePage) (fold : Value) (s : Store) :
    exec (ofPage page fold) s =
      (.ok ⟨s.cells.size, page.treeKind, page.stem, .ofPage page.stored fold,
          pendingSize (.ofPage page.stored fold) page.children⟩,
        (exec (copyOf page) s).2.pushCell ⟨.strong ⟨s.nextSerial, page⟩, some page.version⟩) :=
  rfl

theorem exec_withFold (r : PageRef) (fold : Value) (s : Store) :
    exec (r.withFold fold) s =
      (.ok ⟨s.cells.size, r.tree, r.stem, { r.header with fold }, r.diffSize⟩,
        s.pushCell (s.cell r.id)) :=
  rfl

/-- Taking a number for a copy of a page changes nothing that a chart is about. -/
theorem grows_copyOf (hrep : Represents s c) (page : LivePage) :
    Grows s c (exec (copyOf page) s).2 c :=
  Grows.of_cells_eq hrep rfl rfl rfl rfl rfl (Nat.le_refl _)

theorem pendingSize_eq_sum (header : Header) (children : List PageRef) :
    pendingSize header children =
      if header.isCommitted then 0 else header.size + 1 + (children.map diffSize).sum :=
  rfl

theorem sum_pending (children : List PageRef) (hsettled : ∀ m ∈ children,
    m.isCommitted = true → m.diffSize = 0) :
    (children.map diffSize).sum = ((children.map site).map Site.pending).sum := by
  induction children with
  | nil => rfl
  | cons m children ih =>
      have hpending : m.site.pending = m.diffSize := by
        cases hcommitted : m.isCommitted with
        | true =>
            rw [site_of_committed hcommitted, Site.pending_filed,
              hsettled m List.mem_cons_self hcommitted]
        | false => rw [site_of_uncommitted hcommitted, Site.pending_live]
      rw [List.map_cons, List.map_cons, List.map_cons, List.sum_cons, List.sum_cons, hpending,
        ih fun m' hm' => hsettled m' (List.mem_cons_of_mem m hm')]

/-- A reference to a new page over references that fit below it can be taken into use. -/
theorem admissible_ofPage (hrep : Mirrors s c) (page : LivePage) (fold : Value)
    (hchildren : ∀ m ∈ page.children, c.Fit page.treeKind page.stem page.version m)
    (hfolds : c.Folds (page.map site) fold) (serial : Nat) :
    Admissible ⟨s.cells.size, page.treeKind, page.stem, .ofPage page.stored fold,
        pendingSize (.ofPage page.stored fold) page.children⟩
      ⟨.strong ⟨serial, page⟩, some page.version⟩ s c (page.map site) := by
  have hsites : ∀ n ∈ (page.map site).children, ∃ m ∈ page.children, m.site = n := by
    intro n hn
    simpa only [Page.map_children, List.mem_map] using hn
  exact {
    id_eq := rfl
    tree := by simp
    stem := by simp
    folded := hfolds
    described := by
      rw [Page.map_site_header]
      exact Header.describes_ofPage _ _
    covers := by
      intro n hn
      obtain ⟨m, hm, rfl⟩ := hsites n hn
      obtain ⟨q, hq, hkind, hstem, hversion⟩ := (hchildren m hm).page
      exact ⟨q, hq, by simpa using hkind, by simpa using hstem, by simpa using hversion⟩
    beneath := by
      intro n hn
      obtain ⟨m, hm, rfl⟩ := hsites n hn
      exact hrep.sound m (hchildren m hm).refs
    filed := by
      intro hcommitted
      cases hcommitted
    unfiled := by
      intro _
      refine ⟨?_, _, rfl⟩
      simp only [pendingSize_eq_sum, Header.isCommitted_ofPage, Bool.false_eq_true, if_false,
        Page.map_children]
      rw [sum_pending page.children fun m hm => hrep.settled m (hchildren m hm).refs]
    held := by
      intro copy hcopy
      cases hcopy
      exact ⟨rfl, fun m hm => (hchildren m hm).refs⟩
    dated := by
      intro v hv
      cases hv
      rfl }

/-- A new page over references that fit below it, which memory holds. -/
theorem ofPage_holds (hrep : Represents s c) (page : LivePage) (fold : Value)
    (hchildren : ∀ m ∈ page.children, c.Fit page.treeKind page.stem page.version m)
    (hfolds : c.Folds (page.map site) fold) :
    Runs (ofPage page fold) s c fun r s' c' =>
      Made s c' page fold r ∧ ∃ serial, s'.hold r = .strong ⟨serial, page⟩ := by
  have hgrows := grows_copyOf hrep page
  have hadm := admissible_ofPage hgrows.represents.toMirrors page fold hchildren hfolds
    s.nextSerial
  refine Runs.ok (exec_ofPage page fold s)
    (hgrows.trans (Grows.add hgrows.represents hadm fun _ => rfl)) rfl ⟨?_, s.nextSerial, ?_⟩
  · exact ⟨Chart.refs_add, Nat.le_refl _, rfl, rfl, hgrows.represents.page_add hadm⟩
  · exact congrArg Cell.hold (Store.cell_pushCell_self _ _)

/-- A new page over references that fit below it, whose fold is not known. -/
theorem ofPage_runs (hrep : Represents s c) (page : LivePage)
    (hchildren : ∀ m ∈ page.children, c.Fit page.treeKind page.stem page.version m) :
    Runs (ofPage page .absent) s c fun r _ c' => Made s c' page .absent r :=
  (ofPage_holds hrep page .absent hchildren (c.folds_absent _)).mono fun _ _ _ _ hpost => hpost.1

/-- The same page under another fold. -/
theorem withFold_runs (hrep : Represents s c) {r : PageRef} (hr : c.refs r) {fold : Value}
    (hfolds : ∀ p, c.page r.site = some p → c.Folds p fold) :
    Runs (r.withFold fold) s c fun r' _ c' =>
      c'.refs r' ∧ s.cells.size ≤ r'.id ∧ r'.header = { r.header with fold } ∧
        c'.page r'.site = c.page r.site := by
  obtain ⟨p, hp⟩ := hrep.page hr
  obtain ⟨htree, hstem⟩ := hrep.fits r p hr hp
  have hsound := hrep.sound r hr
  have hadm : Admissible ⟨s.cells.size, r.tree, r.stem, { r.header with fold }, r.diffSize⟩
      (s.cell r.id) s c p := by
    exact {
      id_eq := rfl
      tree := htree
      stem := hstem
      folded := hfolds p hp
      described := by
        have hdesc := hsound.describes hp
        rw [header_site] at hdesc
        exact hdesc.withFold fold
      covers := fun m hm => hsound.covers hp hm
      beneath := fun m hm => hsound.child hp hm
      filed := by
        intro hcommitted
        have hcommitted' : r.isCommitted = true := hcommitted
        rw [site_of_committed hcommitted'] at hp
        exact ⟨by rw [site_of_committed hcommitted]; exact hp, hrep.settled r hr hcommitted'⟩
      unfiled := by
        intro huncommitted
        have huncommitted' : r.isCommitted = false := huncommitted
        have hfits := hsound.fits hp
        rw [site_of_uncommitted huncommitted'] at hfits
        exact ⟨hfits.2.2.2, hrep.strong r hr huncommitted'⟩
      held := by
        intro copy hcopy
        obtain ⟨hheld, hchildren⟩ := hrep.held r copy hr hcopy
        rw [hp] at hheld
        exact ⟨Option.some.inj hheld, hchildren⟩
      dated := by
        intro v hv
        exact hrep.dated r v p hr hv hp }
  refine Runs.ok (exec_withFold r fold s) (Grows.add hrep hadm fun hall => hall r hr) rfl ?_
  exact ⟨Chart.refs_add, Nat.le_refl _, rfl, by rw [hp]; exact hrep.page_add hadm⟩

end PageRef
end PageTree
