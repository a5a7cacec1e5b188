import PageTree.Proofs.BTree.Neighbours
import PageTree.Proofs.BTree.Refinement
import PageTree.Proofs.QTree.Refinement
import PageTree.Proofs.Text.Pages
import PageTree.Proofs.Trees
import PageTree.UTree

/-!
# What trees hold

A tree of each kind means something else: a listing, a value or a map of the plane.  A U-tree is a
register: setting a value makes it the one that is read, until another is set or the tree is cleared
(`UTree.Contains`).  `Content` is the meaning of a tree of any kind, and `Chart.Has c version t
content` says that a tree has it by a chart.  Charts that grow, trees alike and later versions leave
the content as it is.

A committed tree is opened again from the text of its seed, with nothing of it in memory
(`Tree.ofSeed_cases`).  The new root is another reference to the same place, so the tree has the
content that it had, at any version that its root is not newer than (`Tree.reopened_has`).
-/

namespace PageTree

/-! ## A U-tree is a register -/

section Registers

namespace UTree

open StoreM

/-- A U-tree with a value, its page not newer than a version. -/
structure Contains (c : Chart) (version : Nat) (t : Tree) (value : Value) : Prop where
  kind : t.seed.kind = .utree
  fit : c.Fit .utree t.seed.stem version t.root
  page : ∃ p, c.page t.root.site = some p ∧ p.body = .utreeLeaf value

variable {s : Store} {c c' : Chart} {t : Tree} {version version' : Nat} {value old : Value}
  {r : PageRef}

namespace Contains

theorem raise (hcontains : Contains c version t value) (hle : version ≤ version') :
    Contains c version' t value :=
  ⟨hcontains.kind, hcontains.fit.raise hle, hcontains.page⟩

theorem mono (hle : c ≤ c') (hcontains : Contains c version t value) :
    Contains c' version t value := by
  obtain ⟨p, hp, hbody⟩ := hcontains.page
  exact ⟨hcontains.kind, hcontains.fit.mono hle, p, Chart.page_mono hle hp, hbody⟩

theorem likeness (hcontains : Contains c version t value)
    (hlike : c.Likeness .utree t.seed.stem version' t.root.site r) :
    Contains c version' { t with root := r } value := by
  obtain ⟨p, hp, hbody⟩ := hcontains.page
  obtain ⟨p', hp', hshape, -⟩ := hlike.alike.page_of hp
  refine ⟨hcontains.kind, hlike.fit, p', hp', ?_⟩
  rw [hbody] at hshape
  cases hbody' : p'.body <;> simp [hbody', PageBody.shape, PageBody.map] at hshape
  rw [hshape]

/-- The value is determined by the root. -/
theorem unique {t' : Tree} {value' : Value} (hcontains : Contains c version t value)
    (hcontains' : Contains c version' t' value') (hroot : t.root = t'.root) : value = value' := by
  obtain ⟨p, hp, hbody⟩ := hcontains.page
  obtain ⟨p', hp', hbody'⟩ := hcontains'.page
  rw [hroot, hp'] at hp
  cases hp
  rw [hbody] at hbody'
  cases hbody'
  rfl

end Contains

/-- A page with a value is the root of a tree with the value. -/
theorem contains_of_made {stem : Nat} {fold : Value} (hkind : t.seed.kind = .utree)
    (hstem : stem = t.seed.stem) (hmade : Made s c ⟨version, stem, .utreeLeaf value⟩ fold r) :
    Contains c version { t with root := r } value := by
  subst hstem
  exact ⟨hkind, hmade.fit, _, hmade.page, rfl⟩

/-- The value that is read. -/
theorem get_runs (hrep : Represents s c) (hcontains : Contains c version t value) :
    Runs (get t) s c fun found _ _ => found = value := by
  refine Runs.bind (PageRef.page_runs hrep hcontains.fit.refs) ?_
  rintro p s' c' hgrows ⟨hpage, -⟩
  obtain ⟨q, hq, hbody⟩ := (hcontains.mono hgrows.le).page
  rw [hpage] at hq
  cases hq
  have hleaf : p.body = .utreeLeaf value := by
    rw [Page.map_body] at hbody
    cases hp : p.body <;> simp [hp, PageBody.map] at hbody
    rw [hbody]
  rw [hleaf]
  exact Runs.pure hgrows.represents rfl

/-- A value is set. -/
theorem update_runs (hrep : Represents s c) (hcontains : Contains c version t old)
    (value : Value) (post : Nat) :
    Runs (update t value version post) s c fun t' _ c' =>
      t.Rerooted t' ∧ Contains c' version t' value := by
  unfold update
  refine Runs.bind (get_runs hrep hcontains) ?_
  rintro found s' c' hgrows rfl
  have hcontains' := hcontains.mono hgrows.le
  refine Runs.ite ?_ ?_
  · rintro rfl
    exact Runs.pure hgrows.represents ⟨.refl t, hcontains'⟩
  · intro _
    refine Runs.bind (PageRef.ofPage_runs hgrows.represents _
      fun m hm => absurd hm List.not_mem_nil) ?_
    intro r s'' c'' hgrows' hmade
    have hmade' := contains_of_made (t := t) hcontains.kind rfl hmade
    refine Runs.bind (PageRef.evacuated_runs hgrows'.represents post hmade'.fit) ?_
    intro r' s₃ c₃ hgrows'' hlike
    have hwith : t.withRoot r' = { t with root := r' } :=
      Tree.withRoot_eq hgrows''.represents.toMirrors hlike.fit.refs
        ((hgrows'.trans hgrows'').le.refs _ hcontains'.fit.refs)
    rw [hwith]
    exact Runs.pure hgrows''.represents
      ⟨.of_root t r', (hmade'.mono hgrows''.le).likeness hlike⟩

/-- An empty tree has no value. -/
theorem empty_runs (hrep : Represents s c) (seed : Seed) (hkind : seed.kind = .utree) :
    Runs (Tree.empty seed) s c fun t _ c' =>
      (Tree.ofRoot default seed).Rerooted t ∧ Contains c' 0 t .absent := by
  unfold Tree.empty
  rw [hkind]
  refine Runs.bind (PageRef.ofPage_runs hrep _ fun m hm => absurd hm List.not_mem_nil) ?_
  intro r s' c' hgrows hmade
  exact Runs.pure hgrows.represents
    ⟨rfl, contains_of_made (t := Tree.ofRoot default seed) hkind rfl hmade⟩

/-- Clearing leaves no value. -/
theorem cleared_runs (hrep : Represents s c) (hcontains : Contains c version t old) :
    Runs (t.cleared version) s c fun t' _ c' =>
      t.Rerooted t' ∧ Contains c' version t' .absent := by
  refine (Tree.cleared_cases hrep hcontains.fit.refs version).mono ?_
  rintro t' s' c' hgrows (⟨rfl, hspan⟩ | ⟨r, rfl, hmade⟩)
  · obtain ⟨⟨v, stem, body⟩, hp, rfl⟩ := hcontains.page
    have hsound := hrep.sound _ hcontains.fit.refs
    have harity := hsound.measured.span_of_leaf hp rfl
    rw [PageRef.header_site] at harity
    obtain rfl : old = .absent := by
      change t'.root.span = if old.isDefined then 1 else 0 at harity
      rw [hspan] at harity
      cases old <;> first | rfl | cases harity
    exact ⟨.refl _, hcontains.mono hgrows.le⟩
  · rw [Tree.kind, hcontains.kind] at hmade
    exact ⟨.of_root t r, contains_of_made hcontains.kind rfl hmade⟩

end UTree

end Registers

open StoreM

/-- The meaning of a tree. -/
inductive Content where
  /-- The entries of a B-tree. -/
  | listing (es : List Entry)
  /-- The value of a U-tree. -/
  | register (value : Value)
  /-- The spots of the keys of a Q-tree. -/
  | plane (f : Plane)

namespace Content

/-- The kind of the trees that have such a content. -/
def kind : Content → TreeKind
  | listing _ => .btree
  | register _ => .utree
  | plane _ => .qtree

/-- The content of an empty tree of a kind. -/
def empty : TreeKind → Content
  | .btree => listing []
  | .utree => register .absent
  | .qtree => plane .empty

@[simp] theorem kind_empty (kind : TreeKind) : (empty kind).kind = kind := by
  cases kind <;> rfl

end Content

/-- The tree has a content, and none of its pages is newer than a version. -/
def Chart.Has (c : Chart) (version : Nat) (t : Tree) : Content → Prop
  | .listing es => BTree.Contains c version t es
  | .register value => UTree.Contains c version t value
  | .plane f => QTree.Contains c version t f

namespace Chart.Has

variable {s : Store} {c c' : Chart} {version version' : Nat} {t t' : Tree}
  {content content' : Content} {r : PageRef}

theorem kind_eq (hhas : c.Has version t content) : t.seed.kind = content.kind := by
  cases content with
  | listing es => exact BTree.Contains.kind hhas
  | register value => exact UTree.Contains.kind hhas
  | plane f => exact QTree.Contains.kind hhas

/-- A B-tree has entries. -/
theorem listing (hhas : c.Has version t content) (hkind : t.seed.kind = .btree) :
    ∃ es, BTree.Contains c version t es := by
  cases content with
  | listing es => exact ⟨es, hhas⟩
  | register | plane => cases hkind.symm.trans hhas.kind_eq

theorem fit (hhas : c.Has version t content) :
    c.Fit t.seed.kind t.seed.stem version t.root := by
  rw [hhas.kind_eq]
  cases content with
  | listing es => exact (BTree.Contains.root hhas).fit
  | register value => exact UTree.Contains.fit hhas
  | plane f => exact QTree.Contains.fit hhas

theorem mono (hle : c ≤ c') (hhas : c.Has version t content) : c'.Has version t content := by
  cases content with
  | listing es => exact BTree.Contains.mono hle hhas
  | register value => exact UTree.Contains.mono hle hhas
  | plane f => exact QTree.Contains.mono hle hhas

theorem raise (hhas : c.Has version t content) (hle : version ≤ version') :
    c.Has version' t content := by
  cases content with
  | listing es => exact BTree.Contains.raise hhas hle
  | register value => exact UTree.Contains.raise hhas hle
  | plane f => exact QTree.Contains.raise hhas hle

/-- A root alike has the same content, at the version that it fits. -/
theorem likeness (hhas : c.Has version t content)
    (hlike : c.Likeness t.seed.kind t.seed.stem version' t.root.site r) :
    c.Has version' { t with root := r } content := by
  rw [hhas.kind_eq] at hlike
  cases content with
  | listing es =>
      have hcontains : BTree.Contains c version t es := hhas
      exact hcontains.withRoot (hcontains.root.likeness hlike)
  | register value => exact UTree.Contains.likeness hhas hlike
  | plane f => exact QTree.Contains.likeness hhas hlike

/-- A tree that differs in more than the root and in none of kind and stem has the content. -/
theorem congr (hhas : c.Has version t content) (hroot : t'.root = t.root)
    (hkind : t'.seed.kind = t.seed.kind) (hstem : t'.seed.stem = t.seed.stem) :
    c.Has version t' content := by
  cases content with
  | listing es =>
      have hcontains : BTree.Contains c version t es := hhas
      exact ⟨hkind.trans hcontains.kind, by rw [hroot, hstem]; exact hcontains.root⟩
  | register value =>
      have hcontains : UTree.Contains c version t value := hhas
      exact ⟨hkind.trans hcontains.kind, by rw [hroot, hstem]; exact hcontains.fit,
        by rw [hroot]; exact hcontains.page⟩
  | plane f =>
      have hcontains : QTree.Contains c version t f := hhas
      exact ⟨hkind.trans hcontains.kind, by rw [hroot, hstem]; exact hcontains.root⟩

/-- The root determines the content. -/
theorem unique (hhas : c.Has version t content) (hhas' : c.Has version' t' content')
    (hroot : t.root = t'.root) : content = content' := by
  have hkinds : content.kind = content'.kind := by
    obtain ⟨p, hp, hkind, -⟩ := hhas.fit.page
    obtain ⟨p', hp', hkind', -⟩ := hhas'.fit.page
    rw [hroot, hp'] at hp
    cases hp
    rw [← hhas.kind_eq, ← hhas'.kind_eq, ← hkind, ← hkind']
  cases content <;> cases content' <;> try cases hkinds
  · obtain rfl := (hroot ▸ BTree.Contains.root hhas).unique (BTree.Contains.root hhas')
    rfl
  · obtain rfl := UTree.Contains.unique hhas hhas' hroot
    rfl
  · obtain rfl := QTree.Contains.unique hhas hhas' hroot
    rfl

end Chart.Has

variable {s : Store} {c : Chart} {version : Nat} {t : Tree} {content : Content}

/-- An empty tree has the empty content. -/
theorem Tree.empty_runs (hrep : Represents s c) (seed : Seed) :
    Runs (Tree.empty seed) s c fun t _ c' =>
      (Tree.ofRoot default seed).Rerooted t ∧ c'.Has 0 t (.empty seed.kind) := by
  cases hkind : seed.kind with
  | btree => exact BTree.empty_runs hrep seed hkind
  | utree => exact UTree.empty_runs hrep seed hkind
  | qtree => exact QTree.empty_runs hrep seed hkind

/-- Clearing leaves the empty content. -/
theorem Tree.cleared_runs (hrep : Represents s c) (hhas : c.Has version t content) :
    Runs (t.cleared version) s c fun t' _ c' =>
      t.Rerooted t' ∧ c'.Has version t' (.empty content.kind) := by
  cases content with
  | listing es => exact BTree.cleared_runs hrep hhas
  | register value => exact UTree.cleared_runs hrep hhas
  | plane f => exact QTree.cleared_runs hrep hhas

/-- A tree with a root alike, of which something more may be known. -/
theorem Tree.withRoot_runs_of {m : StoreM PageRef} {P : PageRef → Chart → Prop}
    (hhas : c.Has version t content)
    (hm : Runs m s c fun r _ c' =>
      c'.Likeness t.seed.kind t.seed.stem version t.root.site r ∧ P r c') :
    Runs (do return t.withRoot (← m)) s c fun t' _ c' =>
      t.Rerooted t' ∧ c'.Has version t' content ∧ c'.Alike t.root.site t'.root.site ∧
        P t'.root c' := by
  refine Runs.bind hm ?_
  rintro r s' c' hgrows ⟨hlike, hmore⟩
  have hhas' := hhas.mono hgrows.le
  rw [Tree.withRoot_eq hgrows.represents.toMirrors hlike.fit.refs hhas'.fit.refs]
  exact Runs.pure hgrows.represents ⟨.of_root t r, hhas'.likeness hlike, hlike.alike, hmore⟩

/-- A tree with a root alike. -/
theorem Tree.withRoot_runs {m : StoreM PageRef} (hhas : c.Has version t content)
    (hm : Runs m s c fun r _ c' =>
      c'.Likeness t.seed.kind t.seed.stem version t.root.site r) :
    Runs (do return t.withRoot (← m)) s c fun t' _ c' =>
      t.Rerooted t' ∧ c'.Has version t' content := by
  have hm' : Runs m s c fun r _ c' =>
      c'.Likeness t.seed.kind t.seed.stem version t.root.site r ∧ True :=
    hm.mono fun _ _ _ _ hlike => ⟨hlike, trivial⟩
  exact (Tree.withRoot_runs_of (P := fun _ _ => True) hhas hm').mono
    fun _ _ _ _ hpost => ⟨hpost.1, hpost.2.1⟩

/-- Moving pages out of old zones keeps the content. -/
theorem Tree.evacuated_runs (hrep : Represents s c) (hhas : c.Has version t content)
    (post : Nat) :
    Runs (t.evacuated post version) s c fun t' _ c' =>
      t.Rerooted t' ∧ c'.Has version t' content :=
  Tree.withRoot_runs hhas (PageRef.evacuated_runs hrep post hhas.fit)

/-- Taking back commits keeps the content. -/
theorem Tree.uncommitted_runs (hrep : Represents s c) (hhas : c.Has version t content)
    (since : Nat) :
    Runs (t.uncommitted since) s c fun t' _ c' =>
      t.Rerooted t' ∧ c'.Has version t' content :=
  Tree.withRoot_runs hhas (PageRef.uncommitted_runs hrep since hhas.fit)

/-- Folding values leaves a tree alike, and then the fold is known. -/
theorem Tree.reduced_runs (hrep : Represents s c) (hhas : c.Has version t content)
    {f : PageRef.Folding} (hf : c.foldings f) :
    Runs (t.reduced f version) s c fun t' _ c' =>
      t.Rerooted t' ∧ c'.Has version t' content ∧ c'.Alike t.root.site t'.root.site ∧
        c'.HasFold t'.root :=
  Tree.withRoot_runs_of (P := fun r c => c.HasFold r) hhas
    (PageRef.reduced_runs hrep hf hhas.fit)

/-! ## Opening a tree again -/

section Reopening

open StoreM

variable {s : Store} {c : Chart} {t : Tree} {version version' : Nat} {content : Content}

/-- The tree that is opened again from the seed of a committed tree. -/
def Tree.reopened (t : Tree) (s : Store) : Tree :=
  .ofRoot ⟨s.cells.size, t.seed.kind, t.seed.stem, t.root.header,
    PageRef.pendingSize t.root.header []⟩ t.seed

/-- A tree with a content opens again with the root of its seed, unless there is no room for its
numbers. -/
theorem Tree.ofSeed_cases (hrep : Represents s c) (hhas : c.Has version t content) :
    exec (ofSeed t.kind t.seedText) s = (.ok (t.reopened s), s.pushCell ⟨.unloaded, none⟩) ∨
      ¬ (t.seed.Fits ∧ t.root.header.Fits) ∧
        ∃ e, exec (ofSeed t.kind t.seedText) s = (.error e, s) := by
  obtain ⟨p, hp, hkind, -⟩ := hhas.fit.page
  have htree := (hrep.fits t.root p hhas.fit.refs hp).1
  have htiles : t.root.tree.isTiled = false → t.root.header.x = ⟨0⟩ ∧ t.root.header.y = ⟨0⟩ := by
    intro huntiled
    have hdesc := (hrep.sound t.root hhas.fit.refs).describes hp
    rw [PageRef.header_site] at hdesc
    apply hdesc.untiled
    rw [Page.map_treeKind, ← htree]
    intro hqtree
    rw [hqtree] at huntiled
    cases huntiled
  unfold ofSeed seedText
  rcases t.seed.parse_toText_cases t.root htiles with hparse | ⟨hunfit, e, hparse⟩
  · refine Or.inl ?_
    simp only [hparse, exec_bind, PageRef.exec_ofHeader, kind, ne_eq, not_true_eq_false, if_false,
      exec_pure]
    rfl
  · exact Or.inr ⟨hunfit, e, by simp only [hparse, exec_throw]⟩

/-- A committed tree that is opened again is another reference to the same site. -/
theorem Tree.reopened_represents (hrep : Represents s c) (hhas : c.Has version t content)
    (hcommitted : t.root.isCommitted = true) :
    ∃ c', Represents (s.pushCell ⟨.unloaded, none⟩) c' ∧ c ≤ c' ∧ c'.filed = c.filed ∧
      c'.foldings = c.foldings ∧ c'.refs (t.reopened s).root := by
  obtain ⟨p, hp, hkind, hstem, -⟩ := hhas.fit.page
  have hsound := hrep.sound t.root hhas.fit.refs
  rw [PageRef.site_of_committed hcommitted] at hsound hp
  have hadm := PageRef.admissible_ofHeader (s := s) hsound hp hkind.symm hstem.symm
  exact ⟨c.add _ p, hrep.add hadm, Chart.le_add (hrep.live_fresh hadm.id_eq), rfl, rfl,
    Chart.refs_add⟩

/-- A tree that is opened again has the content that it had. -/
theorem Tree.reopened_has (hrep : Represents s c) (hhas : c.Has version t content)
    (hcommitted : t.root.isCommitted = true)
    (hnewest : ∀ p, c.filed t.root.zone t.root.base = some p → p.version ≤ version') :
    ∃ c', Represents (s.pushCell ⟨.unloaded, none⟩) c' ∧ c ≤ c' ∧ c'.filed = c.filed ∧
      c'.foldings = c.foldings ∧ c'.Has version' (t.reopened s) content := by
  obtain ⟨c', hrep', hle, hfiled, hfoldings, hrefs⟩ :=
    Tree.reopened_represents hrep hhas hcommitted
  refine ⟨c', hrep', hle, hfiled, hfoldings, ?_⟩
  have hhas' := hhas.mono hle
  have hsite : (t.reopened s).root.site = t.root.site := by
    rw [PageRef.site_of_committed hcommitted]
    exact PageRef.site_of_committed hcommitted
  obtain ⟨p, hp, hkind, hstem, -⟩ := hhas'.fit.page
  have hversion : p.version ≤ version' := by
    rw [PageRef.site_of_committed hcommitted] at hp
    obtain ⟨q, hq, rfl⟩ := Chart.exists_filed hp
    rw [hfiled] at hq
    rw [Page.map_version]
    exact hnewest q hq
  have hlike : c'.Likeness t.seed.kind t.seed.stem version' t.root.site (t.reopened s).root :=
    ⟨⟨hrefs, p, by rw [hsite, hp], hkind, hstem, hversion⟩, by rw [hsite]; exact .refl _⟩
  exact (hhas'.likeness hlike).congr rfl rfl rfl

end Reopening

end PageTree
