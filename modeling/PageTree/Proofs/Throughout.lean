import PageTree.Proofs.Rebuild

/-!
# What holds of all pages of a tree

`Chart.Throughout P n` says that all pages of the tree at a site have a property, told by their
versions and their shapes.  An operation makes pages at its own version and over pages that it has
read, so a property of all shapes at this version goes on to hold throughout a tree.  Reading and
making pages keeps references `Vetted`, which is to say fit and with such a tree beneath.
-/

namespace PageTree

open StoreM

/-- All pages of the tree at a site have a property. -/
inductive Chart.Throughout (P : Nat → PageBody Unit → Prop) (c : Chart) : Site → Prop where
  | intro {n : Site} {p : Page Site} (found : c.page n = some p) (here : P p.version p.body.shape)
      (beneath : ∀ m ∈ p.children, Throughout P c m) : Throughout P c n

section Throughout

variable {P : Nat → PageBody Unit → Prop} {s : Store} {c c' : Chart} {n m : Site} {p : Page Site}
  {kind : TreeKind} {stem version version' : Nat} {r r' : PageRef} {fold : Value}

namespace Chart.Throughout

theorem mono (hle : c ≤ c') (hall : c.Throughout P n) : c'.Throughout P n := by
  induction hall with
  | intro found here _ ih => exact .intro (page_mono hle found) here ih

theorem here (hall : c.Throughout P n) (hpage : c.page n = some p) :
    P p.version p.body.shape := by
  cases hall with
  | intro found here _ =>
      rw [found] at hpage
      cases hpage
      exact here

theorem child (hall : c.Throughout P n) (hpage : c.page n = some p) (hm : m ∈ p.children) :
    c.Throughout P m := by
  cases hall with
  | intro found _ beneath =>
      rw [found] at hpage
      cases hpage
      exact beneath m hm

/-- It is all about the page. -/
theorem of_page_eq (hall : c.Throughout P n) (hsame : c.page m = c.page n) :
    c.Throughout P m := by
  cases hall with
  | intro found here beneath => exact .intro (hsame.trans found) here beneath

/-- What holds of the children of a page and of all shapes at its version holds throughout. -/
theorem of_made {p : LivePage} (hP : ∀ shape, P version shape) (hmade : Made s c p fold r)
    (hversion : p.version = version) (hchildren : ∀ m ∈ p.children, c.Throughout P m.site) :
    c.Throughout P r.site := by
  refine .intro hmade.page (by rw [Page.map_version, hversion]; exact hP _) ?_
  intro n hn
  rw [Page.map_children] at hn
  obtain ⟨m, hm, rfl⟩ := List.mem_map.1 hn
  exact hchildren m hm

/-- Rebuilding at a version keeps what holds of all shapes at the version. -/
theorem inherited (hP : ∀ shape, P version shape) :
    PageRef.Inherited version fun r c => c.Throughout P r.site where
  mono hle hall := hall.mono hle
  child _ _ hpage hall m hm := hall.child hpage (by
    rw [Page.map_children]
    exact List.mem_map_of_mem hm)
  made := of_made hP
  refolded hsame _ hall := hall.of_page_eq hsame

end Chart.Throughout

/-! ## Vetted references and pages -/

/-- A reference that can stand below a page of some kind, stem and version, with a property of all
pages beneath it. -/
structure Chart.Vetted (P : Nat → PageBody Unit → Prop) (c : Chart) (kind : TreeKind)
    (stem version : Nat) (r : PageRef) : Prop where
  fit : c.Fit kind stem version r
  throughout : c.Throughout P r.site

/-- A page that can stand below one of some kind, stem and version, with a property of its own and
of all pages beneath it. -/
structure Page.Vetted (P : Nat → PageBody Unit → Prop) (c : Chart) (kind : TreeKind)
    (stem version : Nat) (p : LivePage) : Prop where
  treeKind_eq : p.treeKind = kind
  stem_eq : p.stem = stem
  version_le : p.version ≤ version
  here : P p.version p.body.shape
  children : ∀ m ∈ p.children, c.Vetted P kind stem p.version m

theorem Chart.Vetted.mono (hle : c ≤ c') (hvetted : c.Vetted P kind stem version r) :
    c'.Vetted P kind stem version r :=
  ⟨hvetted.fit.mono hle, hvetted.throughout.mono hle⟩

theorem Chart.Vetted.raise (hvetted : c.Vetted P kind stem version r) (hle : version ≤ version') :
    c.Vetted P kind stem version' r :=
  ⟨hvetted.fit.raise hle, hvetted.throughout⟩

namespace Page.Vetted

variable {p : LivePage}

theorem mono (hle : c ≤ c') (hvetted : Page.Vetted P c kind stem version p) :
    Page.Vetted P c' kind stem version p :=
  ⟨hvetted.treeKind_eq, hvetted.stem_eq, hvetted.version_le, hvetted.here,
    fun m hm => (hvetted.children m hm).mono hle⟩

/-- The children of a page can stand wherever the page can. -/
theorem child (hvetted : Page.Vetted P c kind stem version p) {m : PageRef}
    (hm : m ∈ p.children) : c.Vetted P kind stem version m :=
  (hvetted.children m hm).raise hvetted.version_le

/-- A page at a version over children that can stand below it. -/
theorem of_children (hP : ∀ shape, P version shape) {body : PageBody PageRef}
    (hkind : (⟨version, stem, body⟩ : LivePage).treeKind = kind)
    (hchildren : ∀ m ∈ body.children, c.Vetted P kind stem version m) :
    Page.Vetted P c kind stem version ⟨version, stem, body⟩ :=
  ⟨hkind, rfl, Nat.le_refl _, hP _, by rwa [Page.children_eq]⟩

end Page.Vetted

namespace PageRef

/-- The page of a vetted reference is vetted. -/
theorem page_vetted (hrep : Represents s c) (hvetted : c.Vetted P kind stem version r) :
    Runs r.page s c fun p _ c' =>
      c'.page r.site = some (p.map site) ∧ Page.Vetted P c' kind stem version p := by
  refine (page_runs hrep hvetted.fit.refs).mono ?_
  rintro p s' c' hgrows ⟨hpage, hrefs⟩
  have hvetted' := hvetted.mono hgrows.le
  obtain ⟨hkind, hstem, hversion⟩ := fit_of_page hvetted'.fit hpage
  refine ⟨hpage, hkind, hstem, hversion, ?_, fun m hm => ⟨?_, ?_⟩⟩
  · simpa using hvetted'.throughout.here hpage
  · rw [← hkind, ← hstem]
    exact hgrows.represents.child_fit hvetted'.fit.refs hpage hm (hrefs m hm)
  · refine hvetted'.throughout.child hpage ?_
    rw [Page.map_children]
    exact List.mem_map_of_mem hm

/-- A reference to a vetted page is vetted. -/
theorem ofPage_vetted (hrep : Represents s c) {p : LivePage}
    (hvetted : Page.Vetted P c kind stem version p) :
    Runs (ofPage p .absent) s c fun r _ c' => c'.Vetted P kind stem version r := by
  obtain ⟨rfl, rfl, hversion, hhere, hchildren⟩ := hvetted
  refine (ofPage_runs hrep p fun m hm => (hchildren m hm).fit).mono ?_
  intro r s' c' hgrows hmade
  refine ⟨hmade.fit.raise hversion, .intro hmade.page (by simpa using hhere) ?_⟩
  intro n hn
  rw [Page.map_children] at hn
  obtain ⟨m, hm, rfl⟩ := List.mem_map.1 hn
  exact (hchildren m hm).throughout.mono hgrows.le

end PageRef

end Throughout
end PageTree
