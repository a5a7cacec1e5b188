import PageTree.Proofs.Commit.Draft
import PageTree.Proofs.Rebuild

/-!
# Committed counterparts

A commit gives every uncommitted page of a tree a counterpart: the same page at a place in the
diff, over the counterparts of its children.  Committed pages are their own counterparts.
`PageRef.commitWithin_lays` says that writing a diff does this, that it succeeds, and that all
pages filed by it are pages of the committed tree.
-/

namespace PageTree

open StoreM

/-! ## What a reference leads to in memory -/

/-- In memory, one reference leads down to another. -/
inductive Store.Within (s : Store) : PageRef → PageRef → Prop where
  | self (r : PageRef) : Within s r r
  | beneath {r m k : PageRef} {copy : PageCopy} (held : (s.hold r).copy? = some copy)
      (child : m ∈ copy.page.children) (within : Within s m k) : Within s r k

theorem Store.Extends.keeps {s s' : Store} (hext : s.Extends s') : s.Keeps s' :=
  fun _ _ hcopy => hext.hold_eq (Store.lt_of_copy hcopy)

theorem Store.Keeps.within {s s' : Store} (hkeeps : s.Keeps s') {r m : PageRef}
    (hwithin : s.Within r m) : s'.Within r m := by
  induction hwithin with
  | self => exact .self _
  | beneath held child _ ih => exact .beneath (by rw [hkeeps _ _ held, held]) child ih

/-! ## Counterparts -/

/-- The second reference is the first after its tree has been written to a zone. -/
inductive Counterpart (s : Store) (zone start : Nat) (text : List Char) :
    PageRef → PageRef → Prop where
  | kept {r : PageRef} (committed : r.isCommitted = true) : Counterpart s zone start text r r
  | written {r r' : PageRef} {copy copy' : PageCopy} (uncommitted : r.isCommitted = false)
      (committed : r'.isCommitted = true) (hold : s.hold r = .strong copy)
      (hold' : s.hold r' = .strong copy')
      (header : r'.header = r.header.located copy'.page.stored zone r'.base)
      (prints : Diff.Prints start text r'.base copy'.page.stored)
      (version : copy'.page.version = copy.page.version) (stem : copy'.page.stem = copy.page.stem)
      (shape : copy'.page.body.shape = copy.page.body.shape)
      (length : copy.page.children.length = copy'.page.children.length)
      (children : ∀ i h h', Counterpart s zone start text (copy.page.children.get ⟨i, h⟩)
        (copy'.page.children.get ⟨i, h'⟩)) : Counterpart s zone start text r r'

namespace Counterpart

variable {s s' : Store} {c : Chart} {zone start : Nat} {text text' : List Char} {r r' : PageRef}

theorem isCommitted (hcp : Counterpart s zone start text r r') : r'.isCommitted = true := by
  cases hcp with
  | kept committed => exact committed
  | written _ committed => exact committed

/-- A commit changes neither the span nor the tiles of a page. -/
theorem header_eq (hcp : Counterpart s zone start text r r') :
    r'.header.span = r.header.span ∧ r'.header.x = r.header.x ∧ r'.header.y = r.header.y := by
  cases hcp with
  | kept => exact ⟨rfl, rfl, rfl⟩
  | written _ _ _ _ header =>
      rw [header]
      exact ⟨rfl, rfl, rfl⟩

/-- The pages of an uncommitted reference and of its counterpart. -/
theorem pages (hcp : Counterpart s zone start text r r') (huncommitted : r.isCommitted = false) :
    ∃ copy copy', s.hold r = .strong copy ∧ s.hold r' = .strong copy' ∧
      r'.header = r.header.located copy'.page.stored zone r'.base ∧
      Diff.Prints start text r'.base copy'.page.stored ∧
      copy.page.Rebuilt (Counterpart s zone start text) copy.page.version copy'.page := by
  cases hcp with
  | kept committed =>
      rw [huncommitted] at committed
      cases committed
  | written _ _ hold hold' header prints version stem shape length children =>
      exact ⟨_, _, hold, hold', header, prints, version, stem, shape,
        List.forall₂_iff_get.2 ⟨length, children⟩⟩

theorem of_rebuilt {copy copy' : PageCopy} (huncommitted : r.isCommitted = false)
    (hcommitted : r'.isCommitted = true) (hhold : s.hold r = .strong copy)
    (hhold' : s.hold r' = .strong copy')
    (hheader : r'.header = r.header.located copy'.page.stored zone r'.base)
    (hprints : Diff.Prints start text r'.base copy'.page.stored)
    (hrebuilt : copy.page.Rebuilt (Counterpart s zone start text) copy.page.version copy'.page) :
    Counterpart s zone start text r r' := by
  obtain ⟨hlength, hget⟩ := List.forall₂_iff_get.1 hrebuilt.children
  exact written huncommitted hcommitted hhold hhold' hheader hprints hrebuilt.version
    hrebuilt.stem hrebuilt.shape hlength hget

/-- Counterparts stay what they are while memory keeps them and the diff goes on. -/
theorem keep (hkeeps : s.Keeps s') (hhead : text <+: text')
    (hcp : Counterpart s zone start text r r') : Counterpart s' zone start text' r r' := by
  induction hcp with
  | kept committed => exact kept committed
  | written uncommitted committed hold hold' header prints version stem shape length _ ih =>
      exact written uncommitted committed (hkeeps.strong hold) (hkeeps.strong hold') header
        (prints.of_prefix hhead) version stem shape length ih

/-- A tree is alike its counterpart. -/
theorem alike (hrep : Mirrors s c) (hcp : Counterpart s zone start text r r') (hr : c.refs r)
    (hr' : c.refs r') : c.Alike r.site r'.site := by
  induction hcp with
  | kept => exact .refl _
  | written uncommitted committed hold hold' _ _ _ _ shape length _ ih =>
      obtain ⟨hpage, hrefs⟩ := hrep.held _ _ hr (by rw [hold]; rfl)
      obtain ⟨hpage', hrefs'⟩ := hrep.held _ _ hr' (by rw [hold']; rfl)
      refine .rebuilt hpage hpage' (by simpa using shape) (by simpa using length) ?_
      intro i h h'
      simp only [Page.map_children, List.get_eq_getElem, List.getElem_map]
      exact ih i _ _ (hrefs _ (List.getElem_mem _)) (hrefs' _ (List.getElem_mem _))

end Counterpart

/-! ## Filing a page -/

namespace Chart

/-- The chart with one more filed page. -/
def file (c : Chart) (zone base : Nat) (p : Page Header) : Chart :=
  { c with filed := fun z b => if z = zone ∧ b = base then some p else c.filed z b }

variable {c c' : Chart} {zone base : Nat} {p : Page Header}

theorem filed_file : (c.file zone base p).filed zone base = some p :=
  if_pos ⟨rfl, rfl⟩

theorem le_file (hfresh : c.filed zone base = none) : c ≤ c.file zone base p := by
  refine ⟨fun _ hr => hr, fun _ _ hq => hq, fun z b q hq => ?_, fun _ hf => hf⟩
  have hne : ¬ (z = zone ∧ b = base) := by
    rintro ⟨rfl, rfl⟩
    rw [hfresh] at hq
    cases hq
  simpa only [file, if_neg hne] using hq

/-- A filed page is the new one, or was filed before. -/
theorem filed_of_file {z o : Nat} {q : Page Header}
    (hfiled : (c.file zone base p).filed z o = some q) :
    c.filed z o = some q ∨ z = zone ∧ o = base ∧ q = p := by
  unfold file at hfiled
  dsimp only at hfiled
  split at hfiled
  · next hplace => exact Or.inr ⟨hplace.1, hplace.2, (Option.some.inj hfiled).symm⟩
  · exact Or.inl hfiled

end Chart

/-- The draft goes on with one more page that is filed where its text is appended. -/
theorem Draft.append {old : Chart} {start : Nat} {s s' : Store} {c c' : Chart} {diff : Diff}
    (hdraft : Draft old start s c diff) {p : Page Header} (hmirrors : Mirrors s' c') (hle : c ≤ c')
    (hfiled : ∀ z o q, c'.filed z o = some q →
      c.filed z o = some q ∨ z = diff.zone ∧ o = diff.offset + p.size ∧ q = p) :
    Draft old start s' c' (diff.append p.render) where
  mirrors := hmirrors
  le := Chart.le_trans hdraft.le hle
  zone := hdraft.zone
  offset := by
    have hnewline : Char.utf8Size '\n' = 1 := rfl
    rw [DiffWriter.chars_append, Text.byteLength_append, Text.byteLength_append]
    simp only [DiffWriter.append, hdraft.offset, Text.byteLength_cons, Text.byteLength_nil]
    omega
  older := hdraft.older
  printed z o q hq := by
    rw [DiffWriter.chars_append]
    rcases hfiled z o q hq with hold | ⟨rfl, rfl, rfl⟩
    · exact (hdraft.printed z o q hold).imp_right (And.imp_right fun hprints =>
        hprints.of_prefix (List.prefix_append _ _))
    · rw [hdraft.offset]
      exact Or.inr ⟨rfl, Diff.Prints.last start diff.chars q⟩

/-! ## Writing a page -/

section Writing

variable {old : Chart} {start : Nat} {s : Store} {c : Chart} {diff : Diff} {kind : TreeKind}
  {stem version : Nat} {r : PageRef}

/-- A page that has been filed belongs to a tree in memory. -/
def Filing (r : PageRef) (s : Store) (zone base : Nat) (p : Page Header) : Prop :=
  ∃ m copy, s.Within r m ∧ m.isCommitted = true ∧ m.zone = zone ∧ m.base = base ∧
    s.hold m = .strong copy ∧ copy.page.stored = p

theorem Filing.keep {s s' : Store} (hkeeps : s.Keeps s') {zone base : Nat} {p : Page Header}
    (hfiling : Filing r s zone base p) : Filing r s' zone base p := by
  obtain ⟨m, copy, hwithin, hcommitted, hzone, hbase, hhold, hpage⟩ := hfiling
  exact ⟨m, copy, hkeeps.within hwithin, hcommitted, hzone, hbase, hkeeps.strong hhold, hpage⟩

theorem Filing.pos {s : Store} {zone base : Nat} {p : Page Header}
    (hfiling : Filing r s zone base p) : 0 < zone := by
  obtain ⟨m, copy, -, hcommitted, rfl, -⟩ := hfiling
  rw [PageRef.isCommitted, Header.isCommitted, Bool.and_eq_true, decide_eq_true_eq] at hcommitted
  exact hcommitted.1

namespace PageRef

/-- Appends a page to a diff and makes a reference to it. -/
def layOut {ω : Type} [Sink ω] (r : PageRef) (copy : PageCopy) :
    StateT (DiffWriter ω) StoreM PageRef := do
  let page := copy.page.stored
  modify (·.append page.render)
  let diff ← get
  (holding r.tree r.stem (r.header.located page diff.zone (diff.offset - 1)) copy :
    StoreM PageRef)

theorem exec_layOut {ω : Type} [Sink ω] (r : PageRef) (copy : PageCopy) (diff : DiffWriter ω)
    (s : Store) :
    exec ((r.layOut copy).run diff) s =
      (.ok (⟨s.cells.size, r.tree, r.stem,
          r.header.located copy.page.stored diff.zone (diff.offset + copy.page.stored.size),
          pendingSize (r.header.located copy.page.stored diff.zone
            (diff.offset + copy.page.stored.size)) copy.page.children⟩,
        diff.append copy.page.stored.render),
       s.pushCell ⟨.strong copy, some copy.page.version⟩) := rfl

theorem isCommitted_located {h : Header} {page : Page Header} {zone base : Nat} (hzone : 0 < zone)
    (hbase : 0 < base) : (h.located page zone base).isCommitted = true := by
  simp [Header.isCommitted, Header.located, hzone, hbase]

/-- The header of a written page describes it, if the header before did. -/
theorem describes_located {h : Header} {page page' : LivePage} {zone base : Nat}
    (hzone : 0 < zone) (hbase : 0 < base) (hdesc : h = .ofPage page.stored h.fold)
    (hspan : page'.stored.span = page.stored.span)
    (htiles : page'.stored.tiles = page.stored.tiles) :
    (h.located page'.stored zone base).Describes page'.stored := by
  rw [Header.Describes, if_pos (isCommitted_located hzone hbase)]
  conv_lhs => rw [hdesc]
  simp only [Header.located, Header.ofPage, hspan, htiles]

/-- The header of an uncommitted page is the one that it has when it is made. -/
theorem header_of_uncommitted (hrep : Mirrors s c) (hr : c.refs r)
    (huncommitted : r.isCommitted = false) {page : LivePage}
    (hpage : c.page r.site = some (page.map site)) :
    r.header = .ofPage page.stored r.header.fold := by
  have hdescribes := (hrep.sound r hr).describes hpage
  rw [header_site, Page.map_site_header, Header.Describes] at hdescribes
  rwa [if_neg (by rw [show r.header.isCommitted = false from huncommitted]; simp)] at hdescribes

/-- A page over committed children has only filed pages beneath it. -/
theorem map_site_of_committed {p : LivePage} (hcommitted : ∀ m ∈ p.children, m.isCommitted = true) :
    p.map site = p.stored.map Site.filed := by
  have hchildren : (p.map site).body.children = (p.stored.map Site.filed).body.children := by
    rw [← Page.children_eq, ← Page.children_eq, Page.map_children, Page.map_children,
      Page.stored_children, List.map_map]
    exact List.map_congr_left fun m hm => site_of_committed (hcommitted m hm)
  have hbody := PageBody.ext_of_shape (by simp [Page.stored]) hchildren
  exact congrArg (Page.mk p.version p.stem) hbody

/-- Pages whose children have the same spans and tiles have them too. -/
theorem stored_eq_of_rebuilt {R : PageRef → PageRef → Prop} {page page' : LivePage} {v : Nat}
    (hrebuilt : page.Rebuilt R v page') (hR : ∀ m m', R m m' → m'.header.span = m.header.span ∧
      m'.header.x = m.header.x ∧ m'.header.y = m.header.y) :
    page'.stored.span = page.stored.span ∧ page'.stored.tiles = page.stored.tiles := by
  have hsum : ∀ {ms ms' : List PageRef}, List.Forall₂ R ms ms' →
      ms'.map (fun m => m.header.span) = ms.map (fun m => m.header.span) ∧
        ms'.map (fun m => (m.header.x, m.header.y)) =
          ms.map fun m => (m.header.x, m.header.y) := by
    intro ms ms' hall
    induction hall with
    | nil => exact ⟨rfl, rfl⟩
    | cons hm _ ih =>
        obtain ⟨hspan, hx, hy⟩ := hR _ _ hm
        simp only [List.map_cons, hspan, hx, hy, ih.1, ih.2, and_self]
  obtain ⟨hspans, htiles⟩ := hsum hrebuilt.children
  have hshape := hrebuilt.shape
  obtain ⟨v, stem, body⟩ := page
  obtain ⟨v', stem', body'⟩ := page'
  cases body <;> cases body' <;>
    simp_all [Page.span, Page.tiles, Page.stored, Page.map, PageBody.map, PageBody.shape,
      Page.isNode, Page.kind, PageKind.isNode, Page.children, Page.arity, Function.comp_def]

/-- A page made over counterparts of the children of another. -/
def OverCounterparts (s : Store) (c : Chart) (start : Nat) (diff : Diff) (page page' : LivePage) :
    Prop :=
  page.Rebuilt (fun m m' => Counterpart s diff.zone start diff.chars m m' ∧
    c.Fit page.treeKind page.stem page.version m') page.version page'

section LayOut

variable {page page' : LivePage}

/-- The children of such a page are committed and fit beneath it. -/
theorem OverCounterparts.child (hover : OverCounterparts s c start diff page page') :
    ∀ m ∈ page'.children,
      m.isCommitted = true ∧ c.Fit page.treeKind page.stem page.version m := by
  intro m' hm'
  obtain ⟨m, -, hcp, hfit⟩ := exists_of_forall₂_right hover.children hm'
  exact ⟨hcp.isCommitted, hfit⟩

/-- The fold of a page is one of the values beneath what it is written as. -/
theorem OverCounterparts.folds (hover : OverCounterparts s c start diff page page')
    (hrep : Mirrors s c) (hr : c.refs r) (hpage : c.page r.site = some (page.map site))
    (hrefs : ∀ m ∈ page.children, c.refs m) : c.Folds (page'.map site) r.fold := by
  intro hdefined
  refine (hrep.folds hr hpage hdefined).alike (by simpa using hover.shape) ?_
  rw [Page.map_children, Page.map_children, List.forall₂_map_left_iff,
    List.forall₂_map_right_iff]
  obtain ⟨hlength, hget⟩ := List.forall₂_iff_get.1 hover.children
  exact List.forall₂_iff_get.2 ⟨hlength, fun i h h' =>
    (hget i h h').1.alike hrep (hrefs _ (List.get_mem _ _)) (hget i h h').2.refs⟩

/-- A written page can be taken into use. -/
theorem admissible_layOut (hdraft : Draft old start s c diff) (hr : c.refs r)
    (huncommitted : r.isCommitted = false) {copy copy' : PageCopy}
    (hhold : s.hold r = .strong copy)
    (hover : OverCounterparts s c start diff copy.page copy'.page)
    {base : Nat} (hbase : base = diff.offset + copy'.page.stored.size) {header : Header}
    (hheader : header = r.header.located copy'.page.stored diff.zone base) :
    Admissible ⟨s.cells.size, r.tree, r.stem, header, pendingSize header copy'.page.children⟩
      ⟨.strong copy', some copy'.page.version⟩ s (c.file diff.zone base copy'.page.stored)
      (copy'.page.map site) := by
  have hrep := hdraft.mirrors
  have hpos := copy'.page.stored.size_pos
  have hle : c ≤ c.file diff.zone base copy'.page.stored :=
    Chart.le_file (hdraft.fresh (by omega))
  obtain ⟨hpage, hrefs⟩ := hrep.held r copy hr (by rw [hhold]; rfl)
  obtain ⟨htree, hstem⟩ := hrep.fits r _ hr hpage
  obtain ⟨hspan, htiles⟩ := stored_eq_of_rebuilt hover fun m m' h => h.1.header_eq
  have hcommitted : header.isCommitted = true :=
    hheader ▸ isCommitted_located hdraft.zone (by omega)
  exact {
    id_eq := rfl
    tree := by rw [htree, Page.map_treeKind, Page.map_treeKind, hover.treeKind]
    stem := by rw [hstem, Page.map_stem, Page.map_stem, hover.stem]
    described := by
      rw [Page.map_site_header, hheader]
      exact describes_located hdraft.zone (by omega)
        (header_of_uncommitted hrep hr huncommitted hpage) hspan htiles
    folded := by
      have hfold : header.fold = r.fold := by rw [hheader]; rfl
      rw [fold, hfold]
      exact (hover.folds hrep hr hpage hrefs).mono hle
    covers := by
      simp only [Page.map_children, List.mem_map, forall_exists_index, and_imp,
        forall_apply_eq_imp_iff₂]
      intro m hm
      obtain ⟨q, hq, hkind, hqstem, hversion⟩ := (hover.child m hm).2.page
      refine ⟨q, Chart.page_mono hle hq, ?_, ?_, ?_⟩
      · rw [hkind, Page.map_treeKind, hover.treeKind]
      · rw [hqstem, Page.map_stem, hover.stem]
      · rw [Page.map_version, hover.version]
        exact hversion
    beneath := by
      simp only [Page.map_children, List.mem_map, forall_exists_index, and_imp,
        forall_apply_eq_imp_iff₂]
      exact fun m hm => (hrep.sound m (hover.child m hm).2.refs).mono hle
    filed := by
      intro _
      have hsite : site ⟨s.cells.size, r.tree, r.stem, header,
          pendingSize header copy'.page.children⟩ = .filed header := site_of_committed hcommitted
      rw [hsite, map_site_of_committed fun m hm => (hover.child m hm).1]
      refine ⟨?_, by simp [pendingSize, hcommitted]⟩
      have hfiled : (c.file diff.zone base copy'.page.stored).filed header.zone header.base =
          some copy'.page.stored := by
        rw [hheader]
        exact Chart.filed_file
      simp only [Chart.page, hfiled, Option.map_some]
    unfiled := by
      intro hun
      rw [show header.isCommitted = false from hun] at hcommitted
      cases hcommitted
    held := by
      rintro copy'' ⟨⟩
      exact ⟨rfl, fun m hm => (hover.child m hm).2.refs⟩
    dated := by
      rintro v ⟨⟩
      rfl }

/-- Laying out a page over the counterparts of its children makes its counterpart. -/
theorem layOut_lays (hdraft : Draft old start s c diff) (hr : c.refs r)
    (huncommitted : r.isCommitted = false) {copy copy' : PageCopy}
    (hhold : s.hold r = .strong copy)
    (hover : OverCounterparts s c start diff copy.page copy'.page) :
    Lays (r.layOut copy') old start s c diff fun r' s' c' diff' =>
      Counterpart s' diff'.zone start diff'.chars r r' ∧
        c'.Fit copy.page.treeKind copy.page.stem copy.page.version r' ∧
        s'.hold r' = .strong copy' ∧
        ∀ z o p, c'.filed z o = some p → c.filed z o = some p ∨ Filing r' s' z o p := by
  have hadm := admissible_layOut hdraft hr huncommitted hhold hover rfl rfl
  set base := diff.offset + copy'.page.stored.size with hbase
  set header := r.header.located copy'.page.stored diff.zone base with hheader
  set r' : PageRef := ⟨s.cells.size, r.tree, r.stem, header,
    pendingSize header copy'.page.children⟩ with hr'
  have hpos := copy'.page.stored.size_pos
  -- the chart with the page filed, and then with the reference to it
  have hfile : c ≤ c.file diff.zone base copy'.page.stored :=
    Chart.le_file (hdraft.fresh (by omega))
  have hrep := hdraft.mirrors.of_le hfile rfl rfl
  have hle := Chart.le_trans hfile
    (Chart.le_add (p := copy'.page.map site) (hrep.live_fresh hadm.id_eq))
  have hfiled : ∀ z o p, ((c.file diff.zone base copy'.page.stored).add r'
      (copy'.page.map site)).filed z o = some p →
        c.filed z o = some p ∨ z = diff.zone ∧ o = base ∧ p = copy'.page.stored := by
    intro z o p hp
    rw [Chart.filed_add] at hp
    exact Chart.filed_of_file hp
  have hcommitted : r'.isCommitted = true := isCommitted_located hdraft.zone (by omega)
  have hself : (s.pushCell ⟨.strong copy', some copy'.page.version⟩).hold r' = .strong copy' := by
    rw [Store.hold, hr', Store.cell_pushCell_self]
  have hext := Store.Extends.pushCell s ⟨.strong copy', some copy'.page.version⟩
  have hprints : Diff.Prints start (diff.append copy'.page.stored.render).chars base
      copy'.page.stored := by
    rw [DiffWriter.chars_append, hbase, hdraft.offset]
    exact Diff.Prints.last start diff.chars copy'.page.stored
  have hhead : diff.chars <+: (diff.append copy'.page.stored.render).chars := by
    rw [DiffWriter.chars_append]
    exact List.prefix_append _ _
  refine ⟨r', _, _, _, exec_layOut r copy' diff s, {
    draft := hdraft.append (hrep.add hadm) hle hfiled
    le := hle
    foldings := rfl
    memory := hext
    resident := fun hall =>
      (show Resident s (c.file diff.zone base copy'.page.stored) from hall).add hrep hadm.id_eq rfl
    zone := rfl
    version := rfl
    chars := hhead }, ?_, ?_, hself, ?_⟩
  · refine .of_rebuilt huncommitted hcommitted (hext.keeps.strong hhold) hself rfl hprints ?_
    exact hover.imp fun m m' h => h.1.keep hext.keeps hhead
  · refine ⟨Chart.refs_add, copy'.page.map site, hrep.page_add hadm, ?_, ?_, ?_⟩
    · rw [Page.map_treeKind, hover.treeKind]
    · rw [Page.map_stem, hover.stem]
    · exact Nat.le_of_eq hover.version
  · intro z o p hp
    rcases hfiled z o p hp with hold | ⟨rfl, rfl, rfl⟩
    · exact Or.inl hold
    · exact Or.inr ⟨r', copy', .self r', hcommitted, rfl, rfl, hself, rfl⟩

/-- What has been filed for the children of a page belongs to the page once that is laid out. -/
theorem layOut_credits (hdraft : Draft old start s c diff) (hr : c.refs r)
    (huncommitted : r.isCommitted = false) {copy copy' : PageCopy}
    (hhold : s.hold r = .strong copy)
    (hover : OverCounterparts s c start diff copy.page copy'.page) {before : Chart}
    (hcredits : Lays.Credits Filing before copy'.page.children s c) :
    Lays (r.layOut copy') old start s c diff fun r' s' c' diff' =>
      (Counterpart s' diff'.zone start diff'.chars r r' ∧
        c'.Fit copy.page.treeKind copy.page.stem copy.page.version r') ∧
        Lays.Credits Filing before [r'] s' c' := by
  refine (layOut_lays hdraft hr huncommitted hhold hover).mono ?_
  rintro r' s' c' diff' hleads ⟨hcp, hfit, hhold', hfiled⟩
  refine ⟨⟨hcp, hfit⟩, ?_⟩
  intro z o p hz
  rcases hfiled z o p hz with hz | hfiling
  · rcases hcredits z o p hz with hz | ⟨m, hm, hfiling⟩
    · exact Or.inl hz
    · obtain ⟨n, copy'', hwithin, hrest⟩ := hfiling.keep hleads.memory.keeps
      exact Or.inr ⟨r', List.mem_singleton_self r', n, copy'',
        .beneath (by rw [hhold']; rfl) hm hwithin, hrest⟩
  · exact Or.inr ⟨r', List.mem_singleton_self r', hfiling⟩

end LayOut

/-- Writing a subtree makes its counterpart; all that is filed belongs to it. -/
theorem commitWithin_lays (hdraft : Draft old start s c diff) (depth : Nat)
    (hdepth : r.treeSize < depth) (hfit : c.Fit kind stem version r)
    (hversion : version ≤ diff.version) :
    Lays (commitWithin depth r) old start s c diff fun r' s' c' diff' =>
      (Counterpart s' diff'.zone start diff'.chars r r' ∧ c'.Fit kind stem version r') ∧
        Lays.Credits Filing c [r'] s' c' := by
  induction depth generalizing s c diff kind stem version r with
  | zero => exact absurd hdepth (Nat.not_lt_zero _)
  | succ depth ih =>
      unfold commitWithin
      cases hcommitted : r.isCommitted with
      | true =>
          rw [if_pos rfl]
          exact Lays.pure hdraft ⟨⟨.kept hcommitted, hfit⟩, fun _ _ _ h => Or.inl h⟩
      | false =>
          rw [if_neg (by simp)]
          obtain ⟨copy, hhold⟩ := hdraft.mirrors.strong r hfit.refs hcommitted
          obtain ⟨hpage, hrefs⟩ := hdraft.mirrors.held r copy hfit.refs (by rw [hhold]; rfl)
          obtain ⟨rfl, rfl, hle⟩ := fit_of_page hfit hpage
          refine Lays.hold ?_
          rw [hhold]
          refine Lays.get ?_
          rw [if_neg (Nat.not_lt.2 (Nat.le_trans hle hversion))]
          dsimp only
          split
          · refine Lays.bind (Lays.mapChildren hdraft copy.page copy.page.version
              (R := fun m m' s' c' diff' => Counterpart s' diff'.zone start diff'.chars m m' ∧
                c'.Fit copy.page.treeKind copy.page.stem copy.page.version m') (F := Filing)
              ?_ ?_ ?_) ?_
            · rintro m m' s c d s' c' d' hleads ⟨hcp, hfit'⟩
              rw [hleads.zone]
              exact ⟨hcp.keep hleads.memory.keeps hleads.chars, hfit'.mono hleads.le⟩
            · intro m s c d s' c' d' z o p hleads hfiling
              exact hfiling.keep hleads.memory.keeps
            · intro m hm s' c' d' hleads
              have hlt := hdraft.mirrors.treeSize_lt hfit.refs hpage hm
              refine ih hleads.draft (by omega) ?_ ?_
              · exact (hdraft.mirrors.child_fit hfit.refs hpage hm (hrefs m hm)).mono hleads.le
              · rw [hleads.version]
                exact Nat.le_trans hle hversion
            · rintro page' s' c' d' hleads ⟨hrebuilt, hcredits⟩
              refine Lays.bind (Lays.copyOf hleads.draft page') ?_
              rintro copy' s'' c'' d'' hleads' ⟨rfl, rfl, rfl⟩
              have hsince := hleads.trans hleads'
              have hkeeps := hleads'.memory.keeps
              have hover : OverCounterparts s'' c'' start d'' copy.page copy'.page :=
                hrebuilt.imp fun m m' h => ⟨h.1.keep hkeeps (List.prefix_refl _), h.2⟩
              have hcredits' : Lays.Credits Filing c copy'.page.children s'' c'' :=
                fun z o p hz => (hcredits z o p hz).imp_right fun ⟨m, hm, hfiling⟩ =>
                  ⟨m, hm, hfiling.keep hkeeps⟩
              refine (layOut_credits hsince.draft (hsince.le.refs r hfit.refs) hcommitted
                (hsince.memory.keeps.strong hhold) hover hcredits').mono ?_
              rintro r' s₃ c₃ d₃ - ⟨⟨hcp, hfit'⟩, hcredits⟩
              exact ⟨⟨hcp, hfit'.raise hle⟩, hcredits⟩
          · next hleaf =>
            -- a page without children is laid out as it is
            have hover : OverCounterparts s c start diff copy.page copy.page := by
              refine ⟨rfl, rfl, rfl, ?_⟩
              rw [Page.children_of_not_isNode (by simpa using hleaf)]
              exact List.Forall₂.nil
            have hcredits : Lays.Credits Filing c copy.page.children s c :=
              fun _ _ _ h => Or.inl h
            refine (layOut_credits hdraft hfit.refs hcommitted hhold hover hcredits).mono ?_
            rintro r' s' c' d' - ⟨⟨hcp, hfit'⟩, hcredits⟩
            exact ⟨⟨hcp, hfit'.raise hle⟩, hcredits⟩

end PageRef
end Writing
end PageTree
