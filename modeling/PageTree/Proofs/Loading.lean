import PageTree.Proofs.References

/-!
# Resolving a reference

The page of a reference in use is found in memory or loaded from its zone, and in both cases it
is the page that the chart gives the reference (`PageRef.page_runs`).  What is loaded agrees with
the chart because the text of a page spells the page.
-/

namespace PageTree

open StoreM

variable {γ δ : Type} {s : Store} {c : Chart}

/-! ## Acting on children -/

/-- What becomes of a page whose children are replaced: all but its version and its children
stays. -/
structure Page.Rebuilt (R : γ → δ → Prop) (version : Nat) (p : Page γ) (p' : Page δ) : Prop where
  version : p'.version = version
  stem : p'.stem = p.stem
  shape : p'.body.shape = p.body.shape
  children : List.Forall₂ R p.children p'.children

theorem Page.Rebuilt.treeKind {R : γ → δ → Prop} {version : Nat} {p : Page γ} {p' : Page δ}
    (hrebuilt : p.Rebuilt R version p') : p'.treeKind = p.treeKind :=
  Page.treeKind_of_shape hrebuilt.shape

theorem Page.Rebuilt.imp {R S : γ → δ → Prop} {version : Nat} {p : Page γ} {p' : Page δ}
    (himp : ∀ a b, R a b → S a b) (hrebuilt : p.Rebuilt R version p') : p.Rebuilt S version p' :=
  ⟨hrebuilt.version, hrebuilt.stem, hrebuilt.shape, hrebuilt.children.imp himp⟩

theorem exists_of_forall₂_right {R : γ → δ → Prop} {as : List γ} {bs : List δ} {b : δ}
    (hall : List.Forall₂ R as bs) (hb : b ∈ bs) : ∃ a ∈ as, R a b := by
  induction hall with
  | nil => cases hb
  | cons hab _ ih =>
      rcases List.mem_cons.1 hb with rfl | hb
      · exact ⟨_, List.mem_cons_self, hab⟩
      · obtain ⟨a, ha, hR⟩ := ih hb
        exact ⟨a, List.mem_cons_of_mem _ ha, hR⟩

theorem exists_forall₂ {R : γ → δ → Prop} {l : List γ}
    (hall : ∀ a ∈ l, ∃ b, R a b) : ∃ bs, List.Forall₂ R l bs := by
  induction l with
  | nil => exact ⟨[], .nil⟩
  | cons a l ih =>
      obtain ⟨b, hb⟩ := hall a List.mem_cons_self
      obtain ⟨bs, hbs⟩ := ih fun a' ha' => hall a' (List.mem_cons_of_mem a ha')
      exact ⟨b :: bs, .cons hb hbs⟩

/-- Two lists that go along with a third go along with each other. -/
theorem forall₂_join {ε : Type} {R : γ → δ → Prop} {S : γ → ε → Prop} {T : δ → ε → Prop}
    {as : List γ} {bs : List δ} {cs : List ε} (hR : List.Forall₂ R as bs)
    (hS : List.Forall₂ S as cs) (hT : ∀ a b c, R a b → S a c → T b c) :
    List.Forall₂ T bs cs := by
  induction hR generalizing cs with
  | nil =>
      cases hS
      exact List.Forall₂.nil
  | cons hab _ ih =>
      obtain ⟨c, cs, hac, hrest, rfl⟩ := List.forall₂_cons_left_iff.1 hS
      exact List.Forall₂.cons (hT _ _ _ hab hac) (ih hrest)

/-- What goes along with two stretches comes in two stretches. -/
theorem exists_of_forall₂_append {R : γ → δ → Prop} {as as' : List γ} {bs : List δ}
    (hall : List.Forall₂ R (as ++ as') bs) :
    ∃ ps qs, bs = ps ++ qs ∧ List.Forall₂ R as ps ∧ List.Forall₂ R as' qs := by
  induction as generalizing bs with
  | nil => exact ⟨[], bs, rfl, List.Forall₂.nil, hall⟩
  | cons a as ih =>
      obtain ⟨b, bs, hab, hrest, rfl⟩ := List.forall₂_cons_left_iff.1 hall
      obtain ⟨ps, qs, rfl, hps, hqs⟩ := ih hrest
      exact ⟨b :: ps, qs, rfl, List.Forall₂.cons hab hps, hqs⟩

/-- Where children are replaced by others that count as the same, so is the page. -/
theorem Page.Rebuilt.map_eq {ε : Type} {R : γ → δ → Prop} {f : γ → ε} {g : δ → ε} {p : Page γ}
    {p' : Page δ} (hrebuilt : p.Rebuilt R p.version p') (heq : ∀ a b, R a b → g b = f a) :
    p'.map g = p.map f := by
  have hchildren : p'.children.map g = p.children.map f := by
    have hall := hrebuilt.children
    generalize p.children = as at hall ⊢
    generalize p'.children = bs at hall ⊢
    induction hall with
    | nil => rfl
    | cons hab _ ih => rw [List.map_cons, List.map_cons, heq _ _ hab, ih]
  rw [Page.children_eq, Page.children_eq] at hchildren
  have hbody : p'.body.map g = p.body.map f :=
    PageBody.ext_of_shape (by simp [hrebuilt.shape]) (by simpa using hchildren)
  simp only [Page.map, hrebuilt.version, hrebuilt.stem, hbody]

/-- The page at a version, with other children in place of its own. -/
def Page.withChildren (p : Page γ) (version : Nat) (children : List δ) : Page δ :=
  ⟨version, p.stem, match p.body with
    | .btreeLeaf slots => .btreeLeaf slots
    | .btreeNode slots => .btreeNode ((slots.map Prod.fst).zip children)
    | .utreeLeaf value => .utreeLeaf value
    | .qtreeLeaf slots => .qtreeLeaf slots
    | .qtreeNode _ => .qtreeNode children⟩

section Children

variable {m : Type → Type} [Monad m] [LawfulMonad m]

theorem keyedMapM_eq (f : γ → m δ) (slots : List (Value × γ)) :
    (slots.mapM fun slot => f slot.2 >>= fun child => pure (slot.1, child)) =
      (slots.map Prod.snd).mapM f >>= fun children =>
        pure ((slots.map Prod.fst).zip children) := by
  induction slots with
  | nil => simp
  | cons slot slots ih =>
      rw [List.mapM_cons, ih]
      simp only [List.map_cons, List.mapM_cons, bind_assoc, pure_bind, List.zip_cons_cons]

/-- An action on the children of a page is one on the list of them. -/
theorem Page.mapChildren_eq (p : Page γ) (version : Nat) (f : γ → m δ) :
    p.mapChildren version f =
      p.children.mapM f >>= fun children => pure (p.withChildren version children) := by
  obtain ⟨v, stem, body⟩ := p
  cases body with
  | btreeNode slots =>
      simp only [mapChildren, PageBody.mapM, keyedMapM_eq, bind_assoc, pure_bind]
      rfl
  | qtreeNode children => simp only [mapChildren, PageBody.mapM, bind_assoc, pure_bind]; rfl
  | btreeLeaf | utreeLeaf | qtreeLeaf =>
      simp only [mapChildren, PageBody.mapM, children, List.mapM_nil, pure_bind]
      rfl

end Children

namespace Page

variable {p : Page γ} {version : Nat} {children : List δ}

theorem mem_of_mem_withChildren {child : δ}
    (hmem : child ∈ (p.withChildren version children).children) : child ∈ children := by
  obtain ⟨v, stem, body⟩ := p
  cases body with
  | btreeNode slots =>
      obtain ⟨slot, hslot, rfl⟩ := List.mem_map.1 hmem
      exact (List.of_mem_zip hslot).2
  | qtreeNode => exact hmem
  | btreeLeaf | utreeLeaf | qtreeLeaf => cases hmem

theorem children_withChildren (hlength : p.children.length = children.length) :
    (p.withChildren version children).children = children := by
  obtain ⟨v, stem, body⟩ := p
  cases body with
  | btreeNode slots =>
      refine List.map_snd_zip (Nat.le_of_eq ?_)
      rw [← hlength, List.length_map]
      exact List.length_map ..
  | qtreeNode => rfl
  | btreeLeaf | utreeLeaf | qtreeLeaf => exact (List.eq_nil_of_length_eq_zero hlength.symm).symm

theorem shape_withChildren (hlength : p.children.length = children.length) :
    (p.withChildren version children).body.shape = p.body.shape := by
  obtain ⟨v, stem, body⟩ := p
  cases body with
  | btreeNode slots =>
      have hkeys : ((slots.map Prod.fst).zip children).map Prod.fst = slots.map Prod.fst := by
        refine List.map_fst_zip (Nat.le_of_eq ?_)
        rw [← hlength, List.length_map]
        exact (List.length_map ..).symm
      have hpair := congrArg (List.map fun key => (key, ())) hkeys
      rw [List.map_map, List.map_map] at hpair
      exact congrArg PageBody.btreeNode hpair
  | qtreeNode ms =>
      have hlength' : ms.length = children.length := hlength
      simp only [withChildren, PageBody.shape, PageBody.map, List.map_const', hlength']
  | btreeLeaf | utreeLeaf | qtreeLeaf => rfl

/-- A leaf has no children to replace. -/
theorem withChildren_of_leaf {p : Page γ} (hleaf : p.isNode = false) :
    p.withChildren p.version ([] : List γ) = p := by
  obtain ⟨v, stem, body⟩ := p
  cases body with
  | btreeNode | qtreeNode => cases hleaf
  | btreeLeaf | utreeLeaf | qtreeLeaf => rfl

theorem rebuilt_withChildren {R : γ → δ → Prop} (version : Nat)
    (hall : List.Forall₂ R p.children children) :
    p.Rebuilt R version (p.withChildren version children) :=
  ⟨rfl, rfl, shape_withChildren hall.length_eq, by rwa [children_withChildren hall.length_eq]⟩

end Page

namespace Runs

variable {f : γ → StoreM δ} {R : γ → δ → Store → Chart → Prop} {I : Store → Chart → Prop}

/-- An action on the children of a page that keeps an invariant. -/
theorem mapChildren_keeping (hrep : Represents s c) (hinit : I s c) (p : Page γ) (version : Nat)
    (hstable : ∀ a b s' c' s'' c'', Grows s' c' s'' c'' → R a b s' c' → R a b s'' c'')
    (hf : ∀ a ∈ p.children, ∀ s' c', Grows s c s' c' → I s' c' →
      Runs (f a) s' c' fun b s'' c'' => R a b s'' c'' ∧ I s'' c'') :
    Runs (p.mapChildren version f) s c fun p' s' c' =>
      p.Rebuilt (fun a b => R a b s' c') version p' ∧ I s' c' := by
  rw [Page.mapChildren_eq]
  refine Runs.bind (listMapM_keeping hrep hinit p.children hstable hf) ?_
  rintro children s' c' hgrows ⟨hall, hinv⟩
  exact Runs.pure hgrows.represents ⟨Page.rebuilt_withChildren version hall, hinv⟩

/-- An action on the children of a page. -/
theorem mapChildren (hrep : Represents s c) (p : Page γ) (version : Nat)
    (hstable : ∀ a b s' c' s'' c'', Grows s' c' s'' c'' → R a b s' c' → R a b s'' c'')
    (hf : ∀ a ∈ p.children, ∀ s' c', Grows s c s' c' → Runs (f a) s' c' (R a)) :
    Runs (p.mapChildren version f) s c fun p' s' c' =>
      p.Rebuilt (fun a b => R a b s' c') version p' := by
  refine (mapChildren_keeping (I := fun _ _ => True) hrep trivial p version hstable ?_).mono
    fun _ _ _ _ hpost => hpost.1
  intro a ha s' c' hgrows _
  exact (hf a ha s' c' hgrows).mono fun _ _ _ _ hpost => ⟨hpost, trivial⟩

end Runs

/-! ## Headers of filed pages -/

/-- The pages of a tree that is not of the plane have headers without tiles. -/
theorem Header.Describes.untiled {h : Header} {p : Page Header} (hdesc : h.Describes p)
    (hkind : p.treeKind ≠ .qtree) : h.x = ⟨0⟩ ∧ h.y = ⟨0⟩ := by
  rw [hdesc.x_eq, hdesc.y_eq]
  obtain ⟨version, stem, body⟩ := p
  cases body <;> first | exact ⟨rfl, rfl⟩ | exact absurd rfl hkind

/-- The page of a filed site, with the headers of its children. -/
theorem Chart.exists_filed {h : Header} {p : Page Site} (hpage : c.page (.filed h) = some p) :
    ∃ q, c.filed h.zone h.base = some q ∧ p = q.map Site.filed := by
  simp only [Chart.page, Option.map_eq_some_iff] at hpage
  obtain ⟨q, hq, hmap⟩ := hpage
  exact ⟨q, hq, hmap.symm⟩

/-- What a filed page has beneath it. -/
theorem Chart.Sound.filed_child {h k : Header} (hsound : c.Sound (.filed h)) {q : Page Header}
    (hq : c.filed h.zone h.base = some q) (hk : k ∈ q.children) :
    c.Sound (.filed k) ∧ ∃ p, c.page (.filed k) = some p ∧ (q.map Site.filed).Covers p := by
  have hpage : c.page (.filed h) = some (q.map Site.filed) := by simp [Chart.page, hq]
  have hmem : Site.filed k ∈ (q.map Site.filed).children := by
    simp only [Page.map_children, List.mem_map]
    exact ⟨k, hk, rfl⟩
  exact ⟨hsound.child hpage hmem, hsound.covers hpage hmem⟩

/-- The headers in a filed page that is not of the plane have no tiles. -/
theorem Chart.Sound.untiled {h k : Header} (hsound : c.Sound (.filed h)) {q : Page Header}
    (hq : c.filed h.zone h.base = some q) (hkind : q.treeKind ≠ .qtree) (hk : k ∈ q.children) :
    k.x = ⟨0⟩ ∧ k.y = ⟨0⟩ := by
  obtain ⟨hchild, p, hp, hcovers⟩ := hsound.filed_child hq hk
  refine (hchild.describes hp).untiled ?_
  simpa [hcovers.treeKind] using hkind

/-- What the zone of a filed page gives for it. -/
theorem storedPage_cases (hrep : Represents s c) {h : Header} (hsound : c.Sound (.filed h))
    {q : Page Header} (hq : c.filed h.zone h.base = some q) :
    PageRef.storedPage s.zones h = .ok q ∨
      ∃ e, PageRef.storedPage s.zones h = .error e ∧ ¬ (s.zones.isClosed = false ∧
          (s.zones.text? h.zone).isSome ∧ Page.parse q.toText = .ok q) ∧
        (e.isFatal = true → s.zones.isClosed = true) ∧
        ∀ description, (e.withPageRef description).IsLoadFailure := by
  have hpage : c.page (.filed h) = some (q.map Site.filed) := by simp [Chart.page, hq]
  have hdesc : h.Describes q := by
    have := hsound.describes hpage
    simpa [Page.map_map, Page.map_id] using this
  have huntiled : q.treeKind ≠ .qtree → ∀ k ∈ q.children, k.x = ⟨0⟩ ∧ k.y = ⟨0⟩ :=
    fun hkind k hk => hsound.untiled hq hkind hk
  unfold PageRef.storedPage
  cases hclosed : s.zones.isClosed with
  | true =>
      refine Or.inr ⟨.closed, ?_, by simp, fun _ => rfl, fun _ => .closed⟩
      simp [Zones.slice, Zones.checkOpen, hclosed, bind, Except.bind]
  | false =>
      cases htext : s.zones.text? h.zone with
      | none =>
          refine Or.inr ⟨.zoneNotFound h.zone, ?_, by simp, (fun hfatal => by cases hfatal),
            fun _ => .zoneNotFound _ _⟩
          simp [Zones.slice, Zones.checkOpen, hclosed, htext, bind, Except.bind, throw, throwThe,
            MonadExceptOf.throw]
      | some text =>
          -- a zone that is there has the texts that have been filed in it
          obtain ⟨hbase, hsize, hbetween⟩ := hrep.backed.kept _ _ _ _ hq htext
          have hslice : s.zones.slice h.zone h.base h.size = .ok q.toText := by
            rw [hdesc.size_eq]
            simp [Zones.slice, Zones.checkOpen, hclosed, htext, bind, Except.bind, hbetween,
              Nat.not_lt.2 hsize, pure, Except.pure]
          simp only [hslice, bind, Except.bind]
          rcases Page.parse_toText_cases q huntiled with hparse | ⟨-, reason, input, hparse⟩
          · exact Or.inl hparse
          · exact Or.inr ⟨_, hparse, by simp [hparse], (fun hfatal => by cases hfatal),
              fun _ => .malformedPage _ _ _⟩

namespace PageRef

theorem exec_ofHeader (tree : TreeKind) (stem : Nat) (header : Header) (s : Store) :
    exec (ofHeader tree stem header) s =
      (.ok ⟨s.cells.size, tree, stem, header, pendingSize header []⟩,
        s.pushCell ⟨.unloaded, none⟩) := rfl

/-- A reference made of the header of a filed page can be taken into use. -/
theorem admissible_ofHeader {tree : TreeKind} {stem : Nat} {h : Header}
    (hsound : c.Sound (.filed h)) {p : Page Site} (hpage : c.page (.filed h) = some p)
    (htree : tree = p.treeKind) (hstem : stem = p.stem) :
    Admissible ⟨s.cells.size, tree, stem, h, pendingSize h []⟩ ⟨.unloaded, none⟩ s c p := by
  have hcommitted : h.isCommitted = true := hsound.fits hpage
  exact {
    id_eq := rfl
    tree := htree
    stem := hstem
    described := hsound.describes hpage
    folded := hsound.folded hpage
    covers := fun m hm => hsound.covers hpage hm
    beneath := fun m hm => hsound.child hpage hm
    filed := by
      intro _
      have hsite : (⟨s.cells.size, tree, stem, h, pendingSize h []⟩ : PageRef).site = .filed h :=
        site_of_committed hcommitted
      exact ⟨hsite ▸ hpage, by simp [pendingSize, hcommitted]⟩
    unfiled := by
      intro huncommitted
      rw [show h.isCommitted = false from huncommitted] at hcommitted
      cases hcommitted
    held := nofun
    dated := nofun }

/-- A reference made of the header of a filed page. -/
theorem ofHeader_runs (hrep : Represents s c) {tree : TreeKind} {stem : Nat} {h : Header}
    (hsound : c.Sound (.filed h)) {p : Page Site} (hpage : c.page (.filed h) = some p)
    (htree : tree = p.treeKind) (hstem : stem = p.stem)
    (habsent : ¬ Resident s c) :
    Runs (ofHeader tree stem h) s c fun r' s' c' =>
      (c'.refs r' ∧ r'.site = .filed h) ∧ ∀ r, c.refs r → s'.hold r = s.hold r := by
  have hcommitted : h.isCommitted = true := hsound.fits hpage
  have hadm := admissible_ofHeader (s := s) hsound hpage htree hstem
  refine Runs.ok (exec_ofHeader tree stem h s)
    (Grows.add hrep hadm fun hall => absurd hall habsent) rfl
    ⟨⟨Chart.refs_add, site_of_committed hcommitted⟩, ?_⟩
  intro r hr
  rw [Store.hold, s.cell_pushCell_of_lt _ (hrep.allocated r hr), Store.hold]

/-! ## Loading -/

theorem exec_keep (r : PageRef) (page : LivePage) (s : Store) :
    exec (r.keep page) s =
      (.ok ⟨s.nextSerial, page⟩,
        (exec (copyOf page) s).2.modifyCell r.id fun cell =>
          ⟨.strong ⟨s.nextSerial, page⟩, some (cell.version.getD page.version)⟩) := rfl

/-- A page that is kept is held strongly, and all others as before. -/
theorem hold_of_keep {r : PageRef} {page : LivePage} {copy : PageCopy} {s s' : Store}
    (hexec : exec (r.keep page) s = (.ok copy, s')) (hr : r.id < s.cells.size) :
    s'.cells.size = s.cells.size ∧ (∀ k : PageRef, k.id = r.id → s'.hold k = .strong copy) ∧
      ∀ k : PageRef, k.id ≠ r.id → s'.hold k = s.hold k := by
  rw [exec_keep] at hexec
  cases hexec
  refine ⟨Store.size_modifyCell _ _ _, fun k hid => ?_, fun k hid => ?_⟩
  · exact Store.hold_modifyCell_of_eq _ _ hid hr
  · exact Store.hold_modifyCell_of_ne _ _ hid

/-- A page that is loaded has been read from its zone and is kept. -/
theorem load_eq_ok {r : PageRef} {copy : PageCopy} {s s' : Store}
    (hexec : exec r.load s = (.ok copy, s')) :
    ∃ s₁, exec r.readPage s = (.ok copy.page, s₁) ∧
      exec (r.keep copy.page) s₁ = (.ok copy, s') := by
  rw [load] at hexec
  split at hexec
  · cases hexec
  · rw [read_eq, exec_bind] at hexec
    rcases hread : exec r.readPage s with ⟨e | page, s₁⟩
    · rw [hread] at hexec
      cases hexec
    · rw [hread] at hexec
      dsimp only at hexec
      split at hexec
      · cases hexec
      · rw [exec_keep] at hexec
        cases hexec
        exact ⟨s₁, rfl, rfl⟩

/-- A committed page that memory has let go of can be put into memory again. -/
theorem keep_runs (hrep : Represents s c) {r : PageRef} (hr : c.refs r)
    (hcommitted : r.isCommitted = true) {page : LivePage}
    (hpage : c.page r.site = some (page.map site)) (hchildren : ∀ m ∈ page.children, c.refs m)
    (habsent : (s.hold r).copy? = none) :
    Runs (r.keep page) s c fun copy s' _ => copy.page = page ∧ s'.hold r = .strong copy := by
  have hgrows := grows_copyOf hrep page
  have hlt := hrep.allocated r hr
  suffices hkept : Grows (exec (copyOf page) s).2 c (exec (r.keep page) s).2 c from
    Runs.ok (exec_keep r page s) (hgrows.trans hkept) rfl
      ⟨rfl, Store.hold_modifyCell_of_eq _ _ rfl hlt⟩
  rw [exec_keep]
  set s₁ := (exec (copyOf page) s).2 with hs₁
  have hcell : ∀ id, s₁.cell id = s.cell id := fun _ => rfl
  let f : Cell → Cell := fun cell =>
    ⟨.strong ⟨s.nextSerial, page⟩, some (cell.version.getD page.version)⟩
  refine {
    represents := hgrows.represents.modifyCell hr hcommitted f ?_ ?_
    le := Chart.le_refl c
    filed := rfl
    foldings := rfl
    zones := rfl
    settings := rfl
    takesPart := rfl
    now := rfl
    faults := Nat.le_refl _
    cells := by simp
    keeps := ?_
    resident := ?_ }
  · intro copy hcopy
    cases hcopy
    exact ⟨hpage, hchildren⟩
  · intro v p hv hp
    rw [hpage] at hp
    cases hp
    -- a version that memory has known before stays as it is
    cases hversion : (s.cell r.id).version with
    | none =>
        simp only [f, hcell, hversion] at hv
        cases hv
        rfl
    | some v' =>
        simp only [f, hcell, hversion] at hv
        cases hv
        exact hrep.dated r _ _ hr hversion hpage
  · intro r' copy hcopy
    exact s₁.hold_modifyCell_of_ne f (s₁.id_ne_of_absent habsent hcopy)
  · intro hall
    have := hall r hr
    change (s.hold r).copy?.isSome = true at this
    rw [habsent] at this
    cases this

theorem exec_hold (r : PageRef) (s : Store) : exec r.hold s = (.ok (s.hold r), s) := rfl

theorem exec_naming (r : PageRef) (m : StoreM γ) (s : Store) :
    exec (r.naming m) s =
      match exec m s with
      | (.ok a, s') => (.ok a, s')
      | (.error e, s') => (.error (e.withPageRef (exec r.describe s').1.toOption.get!), s') := by
  rw [naming, exec_tryCatch]
  generalize exec m s = outcome
  obtain ⟨_ | _, s'⟩ := outcome <;> rfl

/-- What is left to do once a filed page has been read. -/
def takeIn (r : PageRef) (q : Page Header) : StoreM PageCopy := do
  let page ← q.mapChildren q.version (ofHeader q.treeKind q.stem)
  if page.treeKind ≠ r.tree then
    throw (.malformedPage ("expected a " ++ r.tree.name ++ " page") page.stored.toText)
  r.keep page

/-- A store that cannot read what is filed for an absent page does not serve. -/
theorem unserved_of_absent {r : PageRef} (hr : c.refs r) (habsent : (s.hold r).copy? = none)
    (hunable : ¬ (s.zones.isClosed = false ∧ s.faults.pending = 0 ∧
      ∀ z b p, c.filed z b = some p →
        (s.zones.text? z).isSome ∧ Page.parse p.toText = .ok p)) : ¬ Serves s c := by
  rintro (hall | hable)
  · have := hall r hr
    rw [habsent] at this
    cases this
  · exact hunable hable

/-- How a page of an open store is read: a fault strikes, the zone fails to tell the page, or
it is there. -/
theorem readPage_cases (hrep : Represents s c) {r : PageRef} (hr : c.refs r)
    (habsent : (s.hold r).copy? = none) (hopen : s.zones.isClosed = false) :
    (∃ e s', exec r.readPage s = (.error e, s') ∧ Grows s c s' c ∧ ∀ description,
        (e.withPageRef description).IsLoadFailure ∧ Lacks s c (e.withPageRef description) s') ∨
      ∃ q s', c.filed r.zone r.base = some q ∧ s'.hold r = s.hold r ∧ Grows s c s' c ∧
        s'.failures = s.failures ∧
        exec r.readPage s =
          exec (q.mapChildren q.version (ofHeader q.treeKind q.stem)) s' := by
  have hsound := hrep.sound r hr
  rw [site_of_committed (hrep.committed_of_absent hr habsent)] at hsound
  obtain ⟨p, hp⟩ := hsound.page
  obtain ⟨q, hq, -⟩ := Chart.exists_filed hp
  simp only [readPage, takeFault, exec_bind, exec_modifyGet]
  cases hstrikes : s.faults.strikes with
  | false =>
      have hsame : s.faults.passed.injected = s.faults.injected := by
        rw [Faults.injected_passed, hstrikes]
        rfl
      simp only [Bool.false_eq_true, if_false, exec_bind, exec_get]
      rcases storedPage_cases hrep hsound hq with
        hstored | ⟨e, hstored, hunable, hminor, hfail⟩
      · refine Or.inr ⟨q, { s with
            faults := s.faults.passed
            stats := { s.stats with loads := s.stats.loads + 1 } }, hq, rfl,
          Grows.of_cells_eq hrep rfl rfl rfl rfl rfl s.faults.pending_passed_le, ?_, ?_⟩
        · simp [Store.failures, hsame]
        · simp only [hstored, countLoad, exec_bind, exec_modify]
      · refine Or.inl ⟨e, { s with
            faults := s.faults.passed
            stats := { s.stats with loadFailures := s.stats.loadFailures + 1 } }, ?_,
          Grows.of_cells_eq hrep rfl rfl rfl rfl rfl s.faults.pending_passed_le,
          fun description => ⟨hfail description, {
            unserved := unserved_of_absent hr habsent fun hable =>
              hunable ⟨hopen, hable.2.2 _ _ _ hq⟩
            refused := fun hnamed => hminor (StoreError.isFatal_of_withPageRef hnamed)
            counted := fun _ => ?_ }⟩⟩
        · simp only [hstored, countLoadFailure, exec_bind, exec_modify, exec_throw]
        · simp only [Store.failures, hsame]
          omega
  | true =>
      have hmore : s.faults.passed.injected = s.faults.injected + 1 := by
        rw [Faults.injected_passed, hstrikes, if_pos rfl]
      refine Or.inl ⟨.pageNotFound r.zone r.base, { s with faults := s.faults.passed }, ?_,
        Grows.of_cells_eq hrep rfl rfl rfl rfl rfl s.faults.pending_passed_le,
        fun _ => ⟨.pageNotFound _ _ _, {
          unserved := unserved_of_absent hr habsent fun hable =>
            Nat.ne_of_gt (Faults.pending_pos hstrikes) hable.2.1
          refused := nofun
          counted := fun _ => ?_ }⟩⟩
      · simp only [if_true, exec_bind, exec_throw]
      · simp only [Store.failures, hmore]
        omega

/-- How a load begins: it is refused, or the page is read. -/
theorem load_cases (hrep : Represents s c) {r : PageRef} (hr : c.refs r)
    (habsent : (s.hold r).copy? = none) :
    (∃ e s', exec (StoreM.ofZones Zones.checkOpen >>= fun _ => r.load) s = (.error e, s') ∧
        Grows s c s' c ∧ ∀ description, (e.withPageRef description).IsLoadFailure ∧
          Lacks s c (e.withPageRef description) s') ∨
      ∃ q s', r.isCommitted = true ∧ c.filed r.zone r.base = some q ∧ s'.hold r = s.hold r ∧
        Grows s c s' c ∧ s'.failures = s.failures ∧
        exec (StoreM.ofZones Zones.checkOpen >>= fun _ => r.load) s = exec (r.takeIn q) s' := by
  have hcommitted : r.isCommitted = true := hrep.committed_of_absent hr habsent
  rw [exec_bind, exec_ofZones]
  cases hclosed : s.zones.isClosed with
  | true =>
      refine Or.inl ⟨.closed, s, ?_, Grows.refl hrep, fun _ => ⟨.closed, {
        unserved := unserved_of_absent hr habsent (by simp [hclosed])
        refused := fun _ => hclosed
        counted := by simp [hclosed] }⟩⟩
      simp [Zones.checkOpen, hclosed]
  | false =>
      simp only [Zones.checkOpen, hclosed, Bool.false_eq_true, if_false, load, hcommitted,
        Bool.not_true, read_eq]
      rcases readPage_cases hrep hr habsent hclosed with
        ⟨e, s', hexec, hfails⟩ | ⟨q, s', hq, hsame, hgrows, hfailures, hexec⟩
      · exact Or.inl ⟨e, s', by rw [exec_bind, hexec], hfails⟩
      · refine Or.inr ⟨q, s', trivial, hq, hsame, hgrows, hfailures, ?_⟩
        rw [exec_bind, hexec, takeIn, exec_bind]

/-- What has been read is taken into memory. -/
theorem takeIn_runs (hrep : Represents s c) {r : PageRef} (hr : c.refs r)
    (habsent : (s.hold r).copy? = none) (hcommitted : r.isCommitted = true) {q : Page Header}
    (hq : c.filed r.zone r.base = some q) :
    Runs (r.takeIn q) s c fun copy s' c' =>
      (c'.page r.site = some (copy.page.map site) ∧ ∀ m ∈ copy.page.children, c'.refs m) ∧
        s'.hold r = .strong copy := by
  have hsite := site_of_committed hcommitted
  have hpage : c.page (.filed r.header) = some (q.map Site.filed) := by
    simp only [Chart.page, Option.map_eq_some_iff]
    exact ⟨q, hq, rfl⟩
  have hsound := hrep.sound r hr
  rw [hsite] at hsound
  -- the reference stays absent while references to the children are made
  refine Runs.bind (Runs.mapChildren_keeping
    (R := fun h m _ c' => c'.refs m ∧ m.site = .filed h)
    (I := fun s' _ => s'.hold r = s.hold r) hrep rfl q q.version ?_ ?_) ?_
  · rintro h m s' c' s'' c'' hgrows ⟨hm, hmsite⟩
    exact ⟨hgrows.le.refs m hm, hmsite⟩
  · intro h hh s' c' hgrows hhold
    have hmem : Site.filed h ∈ (q.map Site.filed).children := by
      simp only [Page.map_children, List.mem_map]
      exact ⟨h, hh, rfl⟩
    obtain ⟨p, hp, hcovers⟩ := hsound.covers hpage hmem
    refine (ofHeader_runs hgrows.represents ((hsound.child hpage hmem).mono hgrows.le)
      (Chart.page_mono hgrows.le hp) (by simpa using hcovers.treeKind.symm)
      (by simpa using hcovers.stem.symm) ?_).mono ?_
    · intro hall
      have := hall r (hgrows.le.refs r hr)
      rw [hhold, habsent] at this
      cases this
    · rintro m s'' c'' - ⟨hm, hsame⟩
      exact ⟨hm, by rw [hsame r (hgrows.le.refs r hr), hhold]⟩
  · rintro page s' c' hgrows ⟨hrebuilt, hhold⟩
    have hkind : page.treeKind = r.tree := by
      rw [hrebuilt.treeKind]
      have := (hrep.fits r _ hr (by rw [hsite]; exact hpage)).1
      simpa using this.symm
    have hmap : page.map site = q.map Site.filed :=
      hrebuilt.map_eq fun _ _ hm => hm.2
    have hpage' : c'.page r.site = some (page.map site) := by
      rw [hmap, hsite]
      exact Chart.page_mono hgrows.le hpage
    have hchildren : ∀ m ∈ page.children, c'.refs m := by
      intro m hm
      obtain ⟨_, -, hrefs, -⟩ := exists_of_forall₂_right hrebuilt.children hm
      exact hrefs
    simp only [hkind, ne_eq, not_true_eq_false, if_false]
    refine (keep_runs hgrows.represents (hgrows.le.refs r hr) hcommitted hpage' hchildren
      (by rw [hhold, habsent])).mono ?_
    rintro copy s'' c'' hgrows' ⟨rfl, hstrong⟩
    exact ⟨⟨Chart.page_mono hgrows'.le hpage', fun m hm => hgrows'.le.refs m (hchildren m hm)⟩,
      hstrong⟩

/-- The copy of the page of a reference in use. -/
theorem pageCopy_runs (hrep : Represents s c) {r : PageRef} (hr : c.refs r) :
    Runs r.pageCopy s c fun copy _ c' => c'.page r.site = some (copy.page.map site) ∧
      ∀ m ∈ copy.page.children, c'.refs m := by
  cases hcopy : (s.hold r).copy? with
  | some copy =>
      have hexec : exec r.pageCopy s =
          (.ok copy, { s with stats := { s.stats with hits := s.stats.hits + 1 } }) := by
        rw [pageCopy, exec_bind, exec_hold]
        simp only [hcopy, exec_bind, countHit, exec_modify, exec_pure]
      exact Runs.ok hexec
        (Grows.of_cells_eq hrep rfl rfl rfl rfl rfl (Nat.le_refl _)) rfl
        (hrep.held r copy hr hcopy)
  | none =>
      have hexec : exec r.pageCopy s =
          exec (r.naming (StoreM.ofZones Zones.checkOpen >>= fun _ => r.load)) s := by
        rw [pageCopy, exec_bind, exec_hold]
        simp only [hcopy, start_eq]
      refine Runs.of_exec_eq hexec (Grows.refl hrep) rfl ?_
      rcases load_cases hrep hr hcopy with
        ⟨e, s', herror, hgrows, hfail⟩ | ⟨q, s', hcommitted, hq, hhold, hgrows, hsame, htail⟩
      · have hnamed := exec_naming r (StoreM.ofZones Zones.checkOpen >>= fun _ => r.load) s
        rw [herror] at hnamed
        exact Runs.error hnamed hgrows (hfail _).1 (hfail _).2
      · refine Runs.naming r (Runs.of_exec_eq htail hgrows hsame ?_)
        exact (takeIn_runs hgrows.represents hr (by rw [hhold, hcopy]) hcommitted hq).mono
          fun _ _ _ _ hpost => hpost.1

/-- The page of a reference in use is the one that the chart gives it. -/
theorem page_runs (hrep : Represents s c) {r : PageRef} (hr : c.refs r) :
    Runs r.page s c fun p _ c' => c'.page r.site = some (p.map site) ∧
      ∀ m ∈ p.children, c'.refs m := by
  refine Runs.bind (pageCopy_runs hrep hr) ?_
  intro copy s' c' hgrows hpost
  exact Runs.pure hgrows.represents hpost

end PageRef
end PageTree
