import PageTree.Proofs.InMemory.Pages

/-!
# Pictures

What there is to see of a tree, wherever its pages lie and whatever version they have, is its
`Picture`: page by page the keys and the entries, and what the reference to the page says that it
covers and folds to.  A `Gallery` is a store with a picture of every reference in use.  It is
`Sound` if a reader of the store sees the pictures: a page that memory holds is as its picture
shows it, with pictures of its children, and a page that memory does not hold has been written and
is found where its header says, unless its load fails.

Nothing is asked of versions and places.  Pages may have been given places in zones where nothing
has been written yet, even one place more than once, as long as memory holds them.
-/

namespace PageTree

/-! ## Pictures -/

/-- What there is to see of a page and of all pages beneath it. -/
inductive Picture where
  /-- The stem and the shape of the page, what a reference to it says that it covers and folds to,
  and the pictures of its children. -/
  | of (stem : Nat) (shape : PageBody Unit) (extent : Nat × Tile × Tile) (fold : Value)
      (beneath : List Picture)

namespace Picture

def stem : Picture → Nat
  | of stem _ _ _ _ => stem

def shape : Picture → PageBody Unit
  | of _ shape _ _ _ => shape

/-- The number of entries and the tiles around them. -/
def extent : Picture → Nat × Tile × Tile
  | of _ _ extent _ _ => extent

def fold : Picture → Value
  | of _ _ _ fold _ => fold

def beneath : Picture → List Picture
  | of _ _ _ _ beneath => beneath

/-- The kind of tree that has such a page. -/
def kind (t : Picture) : TreeKind :=
  (⟨0, 0, t.shape⟩ : Page Unit).treeKind

mutual

/-- The leaves, from left to right, told by their shapes, which have the entries. -/
def leaves : Picture → List (PageBody Unit)
  | of _ shape _ _ beneath =>
    if (⟨0, 0, shape⟩ : Page Unit).isNode then leavesBeneath beneath else [shape]

/-- The leaves of pictures next to each other. -/
def leavesBeneath : List Picture → List (PageBody Unit)
  | [] => []
  | t :: ts => leaves t ++ leavesBeneath ts

end

/-- What holds of a picture whenever it holds of all pictures beneath holds of all pictures. -/
@[elab_as_elim]
theorem induction {P : Picture → Prop}
    (of : ∀ stem shape extent fold beneath, (∀ t ∈ beneath, P t) →
      P (.of stem shape extent fold beneath)) : ∀ t, P t
  | .of stem shape extent fold beneath =>
    of stem shape extent fold beneath fun t _ => induction of t

/-- The picture is of the same pages, and the folds that are known are the same.  More folds may be
known. -/
inductive Refines : Picture → Picture → Prop where
  | of {stem : Nat} {shape : PageBody Unit} {extent : Nat × Tile × Tile} {fold fold' : Value}
      {ts ts' : List Picture} (known : fold.isDefined = true → fold' = fold)
      (children : List.Forall₂ Refines ts ts') :
      Refines (.of stem shape extent fold ts) (.of stem shape extent fold' ts')

end Picture

/-- What goes along with a list by one relation, and then by another, goes along with it by what
the two make together. -/
theorem forall₂_comp {α β γ : Type} {R : α → β → Prop} {S : β → γ → Prop} {T : α → γ → Prop}
    {as : List α} {bs : List β} {cs : List γ} (hR : List.Forall₂ R as bs)
    (hS : List.Forall₂ S bs cs) (hT : ∀ a ∈ as, ∀ b c, R a b → S b c → T a c) :
    List.Forall₂ T as cs := by
  induction hR generalizing cs with
  | nil =>
      cases hS
      exact List.Forall₂.nil
  | cons hab _ ih =>
      obtain ⟨c, cs, hbc, hrest, rfl⟩ := List.forall₂_cons_left_iff.1 hS
      exact List.Forall₂.cons (hT _ List.mem_cons_self _ _ hab hbc)
        (ih hrest fun a ha => hT a (List.mem_cons_of_mem _ ha))

namespace Picture.Refines

variable {t t' t'' : Picture}

protected theorem refl (t : Picture) : t.Refines t := by
  induction t using Picture.induction with
  | of stem shape extent fold beneath ih => exact .of (fun _ => rfl) (List.forall₂_same.2 ih)

protected theorem trans (hrefines : t.Refines t') (hrefines' : t'.Refines t'') :
    t.Refines t'' := by
  induction t using Picture.induction generalizing t' t'' with
  | of stem shape extent fold beneath ih =>
      cases hrefines with
      | of known children =>
          cases hrefines' with
          | of known' children' =>
              refine .of (fun hdefined => ?_) (forall₂_comp children children'
                fun t ht t' t'' hrefines hrefines' => ih t ht hrefines hrefines')
              obtain rfl := known hdefined
              exact known' hdefined

theorem shape (hrefines : t.Refines t') : t'.shape = t.shape := by
  cases hrefines
  rfl

theorem extent (hrefines : t.Refines t') : t'.extent = t.extent := by
  cases hrefines
  rfl

theorem fold (hrefines : t.Refines t') (hdefined : t.fold.isDefined = true) :
    t'.fold = t.fold := by
  cases hrefines with
  | of known _ => exact known hdefined

/-- The leaves have the same entries in the same order. -/
theorem leaves (hrefines : t.Refines t') : t'.leaves = t.leaves := by
  induction t using Picture.induction generalizing t' with
  | of stem shape extent fold beneath ih =>
      cases hrefines with
      | @of _ _ _ _ _ _ beneath' _ children =>
          have hbeneath : leavesBeneath beneath' = leavesBeneath beneath := by
            clear * - ih children
            induction children with
            | nil => rfl
            | cons hchild _ ih' =>
                simp only [leavesBeneath, ih _ List.mem_cons_self hchild,
                  ih' fun t ht => ih t (List.mem_cons_of_mem _ ht)]
          simp only [Picture.leaves, hbeneath]

end Picture.Refines

/-! ## What a page and a reference have in a picture -/

/-- The page is as the picture shows it, and its children have pictures. -/
structure Page.Draws (p : LivePage) (shows : PageRef → Picture → Prop) (t : Picture) : Prop where
  stem : p.stem = t.stem
  shape : p.body.shape = t.shape
  children : List.Forall₂ shows p.children t.beneath

theorem Page.Draws.mono {p : LivePage} {shows shows' : PageRef → Picture → Prop} {t : Picture}
    (hle : ∀ r t, shows r t → shows' r t) (hdraws : p.Draws shows t) : p.Draws shows' t :=
  ⟨hdraws.stem, hdraws.shape, hdraws.children.imp hle⟩

/-- A page is of the kind of its picture. -/
theorem Page.treeKind_of_shape_eq {γ : Type} {p : Page γ} {t : Picture}
    (hshape : p.body.shape = t.shape) : p.treeKind = t.kind := by
  refine Page.treeKind_of_shape (q := (⟨0, 0, t.shape⟩ : Page Unit)) ?_
  rw [← hshape, PageBody.shape, PageBody.shape_map, PageBody.shape]

/-- What a reference says of its page is what the picture has. -/
structure PageRef.Tells (r : PageRef) (t : Picture) : Prop where
  tree : r.tree = t.kind
  stem : r.stem = t.stem
  extent : r.header.extent = t.extent
  fold : r.fold = t.fold

/-- The page of a header has been written, as the picture shows it.  It is found in its zone; unless
loads are `sure` to succeed it may be out of reach, but no other page is found there. -/
inductive Zones.Files (z : Zones) (sure : Prop) : Header → Picture → Prop where
  | of {h : Header} {p : Page Header} {beneath : List Picture} (committed : h.isCommitted = true)
      (found : PageRef.storedPage z h = .ok p ∨
        ¬ sure ∧ ∃ e, PageRef.storedPage z h = .error e)
      (measures : h.Measures p)
      (alike : ∀ t ∈ beneath, t.kind = p.treeKind ∧ t.stem = p.stem)
      (children : List.Forall₂ (Files z sure) p.children beneath) :
      Files z sure h (.of p.stem p.body.shape h.extent h.fold beneath)

/-! ## Galleries -/

/-- A store, with the pictures of the references in use. -/
structure Gallery where
  store : Store
  shows : PageRef → Picture → Prop

namespace Gallery

/-- A gallery has all pictures that another has, and the same zones. -/
structure Le (g g' : Gallery) : Prop where
  shows : ∀ r t, g.shows r t → g'.shows r t
  zones : g'.store.zones = g.store.zones

instance : LE Gallery := ⟨Le⟩

variable {g g' g'' : Gallery} {sure : Prop} {r r' : PageRef} {t : Picture} {p : LivePage}
  {cell : Cell}

theorem le_refl (g : Gallery) : g ≤ g :=
  ⟨fun _ _ h => h, rfl⟩

theorem le_trans (hle : g ≤ g') (hle' : g' ≤ g'') : g ≤ g'' :=
  ⟨fun r t h => hle'.shows r t (hle.shows r t h), hle'.zones.trans hle.zones⟩

/-- The page is as the picture of the reference shows it, and the reference measures it. -/
structure Sees (g : Gallery) (r : PageRef) (t : Picture) (p : LivePage) : Prop where
  draws : p.Draws g.shows t
  measures : r.header.Measures p.stored

theorem Sees.mono (hle : g ≤ g') (hsees : g.Sees r t p) : g'.Sees r t p :=
  ⟨hsees.draws.mono hle.shows, hsees.measures⟩

/-- The subtree of a child is smaller than that of its page. -/
theorem Sees.treeSize_lt {m : PageRef} (hsees : g.Sees r t p) (hm : m ∈ p.children) :
    m.treeSize < r.treeSize := by
  have harea : r.treeSize = p.stored.area := hsees.measures.area
  have hmem : m.treeSize ∈ p.stored.children.map Header.area := by
    rw [Page.stored_children, List.map_map]
    exact List.mem_map.2 ⟨m, hm, rfl⟩
  have hle := le_sum_of_mem hmem
  rw [harea, Page.area_eq_sum]
  omega

/-- A reader of the store sees the pictures; if `sure`, no load fails. -/
structure Sound (sure : Prop) (g : Gallery) : Prop where
  opened : sure → g.store.zones.isClosed = false
  faultless : sure → g.store.faults.pending = 0
  /-- A reference in use has a cell. -/
  allocated : ∀ {r t}, g.shows r t → r.id < g.store.cells.size
  /-- No two references in use share an identity, and each has one picture. -/
  unique : ∀ {r r' t t'}, g.shows r t → g.shows r' t' → r.id = r'.id → r = r' ∧ t = t'
  tells : ∀ {r t}, g.shows r t → r.Tells t
  /-- A page that has no place in a zone is held strongly. -/
  strong : ∀ {r t}, g.shows r t → r.isCommitted = false → ∃ copy, g.store.hold r = .strong copy
  held : ∀ {r t copy}, g.shows r t → (g.store.hold r).copy? = some copy → g.Sees r t copy.page
  absent : ∀ {r t}, g.shows r t → (g.store.hold r).copy? = none →
    g.store.zones.Files sure r.header t

/-- The gallery with a new reference. -/
def add (g : Gallery) (cell : Cell) (r : PageRef) (t : Picture) : Gallery where
  store := g.store.pushCell cell
  shows r' t' := g.shows r' t' ∨ r' = r ∧ t' = t

theorem le_add (g : Gallery) (cell : Cell) (r : PageRef) (t : Picture) : g ≤ g.add cell r t :=
  ⟨fun _ _ h => Or.inl h, rfl⟩

theorem shows_add : (g.add cell r t).shows r t :=
  Or.inr ⟨rfl, rfl⟩

namespace Sound

/-- Where the memory and the zones of a store are the same, so are the pictures. -/
theorem of_cells_eq {s : Store} (hsound : g.Sound sure) (hcells : s.cells = g.store.cells)
    (hzones : s.zones = g.store.zones)
    (hfaults : s.faults.pending ≤ g.store.faults.pending) : Sound sure ⟨s, g.shows⟩ := by
  have hhold : ∀ r, s.hold r = g.store.hold r := fun r => by
    simp only [Store.hold, Store.cell, hcells]
  exact { hsound with
    opened := by simpa only [hzones] using hsound.opened
    faultless := by
      intro hsure
      have := hsound.faultless hsure
      show s.faults.pending = 0
      omega
    allocated := by
      intro r t hr
      simpa only [hcells] using hsound.allocated hr
    strong := by
      intro r t hr
      simpa only [hhold] using hsound.strong hr
    held := by
      intro r t copy hr hcopy
      have hsees := hsound.held hr (hhold r ▸ hcopy)
      exact ⟨hsees.draws, hsees.measures⟩
    absent := by
      intro r t hr
      simpa only [hhold, hzones] using hsound.absent hr }

/-- A new reference whose page is in memory or has been written can be taken into use. -/
theorem add (hsound : g.Sound sure) (hid : r.id = g.store.cells.size) (htells : r.Tells t)
    (hstrong : r.isCommitted = false → ∃ copy, cell.hold = .strong copy)
    (hheld : ∀ copy, cell.hold.copy? = some copy → g.Sees r t copy.page)
    (habsent : cell.hold.copy? = none → g.store.zones.Files sure r.header t) :
    (g.add cell r t).Sound sure := by
  -- the references that were in use before keep their cells
  have hhold : ∀ {r' t'}, g.shows r' t' → (g.add cell r t).store.hold r' = g.store.hold r' :=
    fun hr' => congrArg Cell.hold (g.store.cell_pushCell_of_lt cell (hsound.allocated hr'))
  have hself : (g.add cell r t).store.hold r = cell.hold := by
    rw [Store.hold, hid]
    exact congrArg Cell.hold (g.store.cell_pushCell_self cell)
  have hle := g.le_add cell r t
  exact {
    opened := hsound.opened
    faultless := hsound.faultless
    allocated := by
      rintro r' t' (hr' | ⟨rfl, rfl⟩)
      · exact Nat.lt_of_lt_of_le (hsound.allocated hr') (by simp [Gallery.add])
      · simp [Gallery.add, hid]
    unique := by
      rintro r₁ r₂ t₁ t₂ (h₁ | ⟨rfl, rfl⟩) (h₂ | ⟨rfl, rfl⟩) heq
      · exact hsound.unique h₁ h₂ heq
      · have := hsound.allocated h₁
        omega
      · have := hsound.allocated h₂
        omega
      · exact ⟨rfl, rfl⟩
    tells := by
      rintro r' t' (hr' | ⟨rfl, rfl⟩)
      · exact hsound.tells hr'
      · exact htells
    strong := by
      rintro r' t' (hr' | ⟨rfl, rfl⟩) huncommitted
      · rw [hhold hr']
        exact hsound.strong hr' huncommitted
      · rw [hself]
        exact hstrong huncommitted
    held := by
      rintro r' t' copy (hr' | ⟨rfl, rfl⟩) hcopy
      · rw [hhold hr'] at hcopy
        exact (hsound.held hr' hcopy).mono hle
      · rw [hself] at hcopy
        exact (hheld copy hcopy).mono hle
    absent := by
      rintro r' t' (hr' | ⟨rfl, rfl⟩) hnone
      · rw [hhold hr'] at hnone
        exact hsound.absent hr' hnone
      · rw [hself] at hnone
        exact habsent hnone }

/-- Memory may come to hold the page of a reference strongly. -/
theorem modifyCell {f : Cell → Cell} {copy : PageCopy} (hsound : g.Sound sure)
    (hr : g.shows r t) (hself : (f (g.store.cell r.id)).hold = .strong copy)
    (hsees : g.Sees r t copy.page) :
    Sound sure ⟨g.store.modifyCell r.id f, g.shows⟩ := by
  have hlt := hsound.allocated hr
  have hhold : (g.store.modifyCell r.id f).hold r = .strong copy := by
    rw [g.store.hold_modifyCell_of_eq f rfl hlt, hself]
  have hother : ∀ {r' t'}, g.shows r' t' → r' ≠ r →
      (g.store.modifyCell r.id f).hold r' = g.store.hold r' := fun hr' hne =>
    g.store.hold_modifyCell_of_ne f fun heq => hne (hsound.unique hr' hr heq).1
  exact { hsound with
    allocated := by
      intro r' t' hr'
      simpa using hsound.allocated hr'
    strong := by
      intro r' t' hr' huncommitted
      by_cases heq : r' = r
      · exact ⟨copy, heq ▸ hhold⟩
      · exact (hother hr' heq) ▸ hsound.strong hr' huncommitted
    held := by
      intro r' t' copy' hr' hcopy
      by_cases heq : r' = r
      · subst heq
        obtain ⟨-, rfl⟩ := hsound.unique hr hr' rfl
        have hcopy' : ((g.store.modifyCell r'.id f).hold r').copy? = some copy' := hcopy
        rw [hhold] at hcopy'
        cases hcopy'
        exact ⟨hsees.draws, hsees.measures⟩
      · have hcopy' : ((g.store.modifyCell r.id f).hold r').copy? = some copy' := hcopy
        rw [hother hr' heq] at hcopy'
        exact ⟨(hsound.held hr' hcopy').draws, (hsound.held hr' hcopy').measures⟩
    absent := by
      intro r' t' hr' hnone
      have hnone' : ((g.store.modifyCell r.id f).hold r').copy? = none := hnone
      by_cases heq : r' = r
      · rw [heq, hhold] at hnone'
        cases hnone'
      · rw [hother hr' heq] at hnone'
        exact hsound.absent hr' hnone' }

/-- A page that memory does not hold is committed. -/
theorem committed_of_absent (hsound : g.Sound sure) (hr : g.shows r t)
    (habsent : (g.store.hold r).copy? = none) : r.isCommitted = true := by
  obtain ⟨committed⟩ := hsound.absent hr habsent
  exact committed

end Sound
end Gallery
end PageTree
