import PageTree.Proofs.Loading
import PageTree.Ref.Rebuild

/-!
# Rebuilding keeps what a tree holds

Evacuating, reducing and taking back commits rebuild pages over rebuilt children and change
nothing else.  Two sites are `Alike` if their trees differ only so: page by page the same keys
and entries.  Whatever a tree holds can be read off any tree alike, and so can the folds of its
values: a rebuilt page keeps its fold, and reducing gives every page one.
-/

namespace PageTree

open StoreM

/-! ## Trees alike -/

/-- The trees of two sites have the same pages, up to where the pages lie and when they were
written. -/
inductive Chart.Alike (c : Chart) : Site → Site → Prop
  | refl (n : Site) : Alike c n n
  | rebuilt {n n' : Site} {p p' : Page Site} (page : c.page n = some p)
      (page' : c.page n' = some p') (shape : p'.body.shape = p.body.shape)
      (length : p.children.length = p'.children.length)
      (children : ∀ i h h', Alike c (p.children.get ⟨i, h⟩) (p'.children.get ⟨i, h'⟩)) :
      Alike c n n'

namespace Chart.Alike

variable {c c' : Chart} {n n' n'' : Site} {p p' : Page Site}

theorem of_forall₂ (hpage : c.page n = some p) (hpage' : c.page n' = some p')
    (hshape : p'.body.shape = p.body.shape)
    (hchildren : List.Forall₂ c.Alike p.children p'.children) : c.Alike n n' := by
  obtain ⟨hlength, hget⟩ := List.forall₂_iff_get.1 hchildren
  exact rebuilt hpage hpage' hshape hlength hget

theorem forall₂_refl (ns : List Site) : List.Forall₂ c.Alike ns ns := by
  induction ns with
  | nil => exact List.Forall₂.nil
  | cons n ns ih => exact List.Forall₂.cons (refl n) ih

/-- What two sites alike have in common. -/
theorem page_of (halike : c.Alike n n') (hpage : c.page n = some p) :
    ∃ p', c.page n' = some p' ∧ p'.body.shape = p.body.shape ∧
      List.Forall₂ c.Alike p.children p'.children := by
  cases halike with
  | refl => exact ⟨p, hpage, rfl, forall₂_refl p.children⟩
  | rebuilt hp hp' hshape hlength hchildren =>
      rw [hp] at hpage
      cases hpage
      exact ⟨_, hp', hshape, List.forall₂_iff_get.2 ⟨hlength, hchildren⟩⟩

theorem mono (hle : c ≤ c') (halike : c.Alike n n') : c'.Alike n n' := by
  induction halike with
  | refl n => exact refl n
  | rebuilt hp hp' hshape hlength _ ih =>
      exact rebuilt (Chart.page_mono hle hp) (Chart.page_mono hle hp') hshape hlength ih

end Chart.Alike

/-! ## Leaves of trees alike -/

/-- A page with as good children gathers the same leaves. -/
theorem Page.Gathers.join {p p' : Page Site} {R S : Site → List (PageBody Unit) → Prop}
    {T : Site → Site → Prop} {shapes : List (PageBody Unit)} (hgathers : p.Gathers R shapes)
    (hshape : p'.body.shape = p.body.shape) (hchildren : List.Forall₂ T p.children p'.children)
    (hjoin : ∀ m m' shapes, T m m' → R m shapes → S m' shapes) : p'.Gathers S shapes := by
  have hnode := Page.isNode_of_shape hshape
  rcases hgathers with ⟨hleaf, rfl⟩ | ⟨hisNode, parts, hparts, rfl⟩
  · exact Or.inl ⟨hnode.trans hleaf, by rw [hshape]⟩
  · exact Or.inr ⟨hnode.trans hisNode, parts, forall₂_join hchildren hparts hjoin, rfl⟩

namespace Chart.Reads

variable {c c' : Chart} {depth depth' : Nat} {n n' : Site} {shapes shapes' : List (PageBody Unit)}

/-- The leaves beneath a site are determined. -/
theorem unique (hreads : c.Reads depth n shapes) (hreads' : c.Reads depth' n shapes') :
    shapes = shapes' := by
  induction depth generalizing depth' n shapes shapes' with
  | zero => exact absurd hreads id
  | succ depth ih =>
      cases depth' with
      | zero => exact absurd hreads' id
      | succ depth' =>
          obtain ⟨p, hp, hshapes⟩ := hreads
          obtain ⟨p', hp', hshapes'⟩ := hreads'
          rw [hp] at hp'
          cases hp'
          -- the page decides whether it is read as a leaf or as a node
          rcases hshapes with ⟨hleaf, rfl⟩ | ⟨hnode, parts, hparts, rfl⟩
          · rcases hshapes' with ⟨-, rfl⟩ | ⟨hnode', -⟩
            · rfl
            · rw [hleaf] at hnode'
              cases hnode'
          · rcases hshapes' with ⟨hleaf', -⟩ | ⟨-, parts', hparts', rfl⟩
            · rw [hnode] at hleaf'
              cases hleaf'
            · have hsame : List.Forall₂ Eq parts parts' :=
                forall₂_join hparts hparts' fun _ _ _ hm hm' => ih hm hm'
              rw [List.forall₂_eq_eq_eq] at hsame
              rw [hsame]

/-- A tree has leaves. -/
theorem exists_of_sound (hsound : c.Sound n) (hdepth : n.header.area < depth) :
    ∃ shapes, c.Reads depth n shapes := by
  induction depth generalizing n with
  | zero => exact absurd hdepth (Nat.not_lt_zero _)
  | succ depth ih =>
      obtain ⟨p, hp⟩ := hsound.page
      cases hnode : p.isNode with
      | false => exact ⟨_, p, hp, Or.inl ⟨hnode, rfl⟩⟩
      | true =>
          have hchild : ∀ m ∈ p.children, ∃ shapes, c.Reads depth m shapes := by
            intro m hm
            have hlt := hsound.area_lt hp hm
            exact ih (hsound.child hp hm) (by omega)
          obtain ⟨parts, hparts⟩ := exists_forall₂ hchild
          exact ⟨_, p, hp, Or.inr ⟨hnode, parts, hparts, rfl⟩⟩

/-- Trees alike have the same leaves. -/
theorem alike (halike : c.Alike n n') (hreads : c.Reads depth n shapes) :
    c.Reads depth n' shapes := by
  induction depth generalizing n n' shapes with
  | zero => exact hreads
  | succ depth ih =>
      obtain ⟨p, hp, hgathers⟩ := hreads
      obtain ⟨p', hp', hshape, hchildren⟩ := halike.page_of hp
      exact ⟨p', hp', hgathers.join hshape hchildren fun _ _ _ => ih⟩

end Chart.Reads

/-- A page with children alike has the same folds. -/
theorem Chart.FoldsTo.alike {c : Chart} {p p' : Page Site} {fold : Value}
    (hfolds : c.FoldsTo p fold) (hshape : p'.body.shape = p.body.shape)
    (hchildren : List.Forall₂ c.Alike p.children p'.children) : c.FoldsTo p' fold := by
  obtain ⟨depth, shapes, hgathers, hfolded⟩ := hfolds
  exact ⟨depth, shapes,
    hgathers.join hshape hchildren fun _ _ _ halike hreads => hreads.alike halike, hfolded⟩

/-- A reference of some kind, stem and version that stands for a tree like that of a site. -/
structure Chart.Likeness (c : Chart) (kind : TreeKind) (stem version : Nat) (n : Site)
    (r : PageRef) : Prop where
  fit : c.Fit kind stem version r
  alike : c.Alike n r.site

namespace Chart.Likeness

variable {c c' : Chart} {kind : TreeKind} {stem version version' : Nat} {n : Site} {r : PageRef}

theorem mono (hle : c ≤ c') (hlike : c.Likeness kind stem version n r) :
    c'.Likeness kind stem version n r :=
  ⟨hlike.fit.mono hle, hlike.alike.mono hle⟩

theorem raise (hlike : c.Likeness kind stem version n r) (hle : version ≤ version') :
    c.Likeness kind stem version' n r :=
  ⟨hlike.fit.raise hle, hlike.alike⟩

theorem refl (hfit : c.Fit kind stem version r) : c.Likeness kind stem version r.site r :=
  ⟨hfit, Chart.Alike.refl _⟩

end Chart.Likeness

namespace PageRef

variable {s : Store} {c : Chart} {kind : TreeKind} {stem version version' : Nat} {r : PageRef}
  {p p' : LivePage}

/-- The page of a reference that fits. -/
theorem fit_of_page (hfit : c.Fit kind stem version r)
    (hpage : c.page r.site = some (p.map site)) :
    p.treeKind = kind ∧ p.stem = stem ∧ p.version ≤ version := by
  obtain ⟨q, hq, hkind, hstem, hversion⟩ := hfit.page
  rw [hpage] at hq
  cases hq
  exact ⟨by simpa using hkind, by simpa using hstem, by simpa using hversion⟩

/-- The children of a page, each rebuilt, where what else holds of them goes on to hold. -/
theorem mapChildren_runs (hrep : Represents s c) (hfit : c.Fit kind stem version r)
    (hpage : c.page r.site = some (p.map site)) (hrefs : ∀ m ∈ p.children, c.refs m)
    (hle : p.version ≤ version') {f : PageRef → StoreM PageRef} {P : PageRef → Chart → Prop}
    (hP : ∀ m c c', c ≤ c' → P m c → P m c')
    (hf : ∀ m ∈ p.children, ∀ s' c', Grows s c s' c' → c'.Fit kind stem version' m →
      m.treeSize < r.treeSize → Runs (f m) s' c' fun m' _ c'' =>
        c''.Likeness kind stem version' m.site m' ∧ P m' c'') :
    Runs (p.mapChildren version' f) s c fun p' _ c' =>
      p.Rebuilt (fun m m' => c'.Likeness kind stem version' m.site m' ∧ P m' c') version' p' := by
  obtain ⟨rfl, rfl, -⟩ := fit_of_page hfit hpage
  refine Runs.mapChildren hrep p version' ?_ ?_
  · exact fun m m' s' c' s'' c'' hgrows h => ⟨h.1.mono hgrows.le, hP _ _ _ hgrows.le h.2⟩
  · intro m hm s' c' hgrows
    refine hf m hm s' c' hgrows ?_ (hrep.treeSize_lt hfit.refs hpage hm)
    exact ((hrep.child_fit hfit.refs hpage hm (hrefs m hm)).mono hgrows.le).raise hle

/-- The children of a page, each rebuilt. -/
theorem rebuildChildren_runs (hrep : Represents s c) (hfit : c.Fit kind stem version r)
    (hpage : c.page r.site = some (p.map site)) (hrefs : ∀ m ∈ p.children, c.refs m)
    (hle : p.version ≤ version') {f : PageRef → StoreM PageRef}
    (hf : ∀ m s' c', Grows s c s' c' → c'.Fit kind stem version' m → m.treeSize < r.treeSize →
      Runs (f m) s' c' fun m' _ c'' => c''.Likeness kind stem version' m.site m') :
    Runs (p.mapChildren version' f) s c fun p' _ c' =>
      p.Rebuilt (fun m m' => c'.Likeness kind stem version' m.site m') version' p' := by
  refine (mapChildren_runs (P := fun _ _ => True) hrep hfit hpage hrefs hle
    (fun _ _ _ _ _ => trivial) ?_).mono fun _ _ _ _ hrebuilt => hrebuilt.imp fun _ _ h => h.1
  intro m _ s' c' hgrows hm hlt
  exact (hf m s' c' hgrows hm hlt).mono fun _ _ _ _ hlike => ⟨hlike, trivial⟩

/-- A page is rebuilt over children alike. -/
theorem alike_of_rebuilt
    (hrebuilt : p.Rebuilt (fun m m' => c.Likeness kind stem version' m.site m') version' p') :
    List.Forall₂ c.Alike (p.map site).children (p'.map site).children := by
  rw [Page.map_children, Page.map_children, List.forall₂_map_left_iff, List.forall₂_map_right_iff]
  exact hrebuilt.children.imp fun m m' hlike => hlike.alike

/-- A rebuilt page may keep its fold. -/
theorem folds_of_rebuilt (hrep : Mirrors s c) (hr : c.refs r)
    (hpage : c.page r.site = some (p.map site))
    (hrebuilt : p.Rebuilt (fun m m' => c.Likeness kind stem version' m.site m') version' p') :
    c.Folds (p'.map site) r.fold := by
  intro hdefined
  exact (hrep.folds hr hpage hdefined).alike (by simpa using hrebuilt.shape)
    (alike_of_rebuilt hrebuilt)

/-- A new page over rebuilt children, which memory holds. -/
theorem ofRebuilt_holds (hrep : Represents s c) (hfit : c.Fit kind stem version r)
    (hpage : c.page r.site = some (p.map site))
    (hrebuilt : p.Rebuilt (fun m m' => c.Likeness kind stem version' m.site m') version' p')
    {fold : Value} (hfolds : c.Folds (p'.map site) fold) :
    Runs (ofPage p' fold) s c fun r' s' c' => c'.Likeness kind stem version' r.site r' ∧
      Made s c' p' fold r' ∧ ∃ serial, s'.hold r' = .strong ⟨serial, p'⟩ := by
  obtain ⟨rfl, rfl, -⟩ := fit_of_page hfit hpage
  refine (ofPage_holds hrep p' fold ?_ hfolds).mono ?_
  · intro m' hm'
    obtain ⟨m, -, hlike⟩ := exists_of_forall₂_right hrebuilt.children hm'
    rw [hrebuilt.treeKind, hrebuilt.stem, hrebuilt.version]
    exact hlike.fit
  · rintro r' s' c' hgrows ⟨hmade, hhold⟩
    refine ⟨⟨?_, ?_⟩, hmade, hhold⟩
    · have hfit' := hmade.fit
      rwa [hrebuilt.treeKind, hrebuilt.stem, hrebuilt.version] at hfit'
    · exact Chart.Alike.of_forall₂ (Chart.page_mono hgrows.le hpage) hmade.page
        (by simpa using hrebuilt.shape)
        (alike_of_rebuilt (hrebuilt.imp fun m m' hlike => hlike.mono hgrows.le))

/-- A page rebuilt over rebuilt children, with the fold that it had. -/
theorem ofRebuilt_runs (hrep : Represents s c) (hfit : c.Fit kind stem version r)
    (hpage : c.page r.site = some (p.map site))
    (hrebuilt : p.Rebuilt (fun m m' => c.Likeness kind stem version' m.site m') version' p') :
    Runs (ofPage p' r.fold) s c fun r' _ c' => c'.Likeness kind stem version' r.site r' :=
  (ofRebuilt_holds hrep hfit hpage hrebuilt
    (folds_of_rebuilt hrep.toMirrors hfit.refs hpage hrebuilt)).mono fun _ _ _ _ hpost => hpost.1

/-! ## What rebuilt subtrees inherit -/

/-- A property of subtrees that goes down to what lies beneath them, and up to every page that is
made of them at a version.  A fold makes no difference to it. -/
structure Inherited (version : Nat) (Q : PageRef → Chart → Prop) : Prop where
  mono : ∀ {c c' : Chart} {r : PageRef}, c ≤ c' → Q r c → Q r c'
  child : ∀ {s : Store} {c : Chart} {r : PageRef} {p : LivePage}, Mirrors s c → c.refs r →
    c.page r.site = some (p.map site) → Q r c → ∀ m ∈ p.children, Q m c
  made : ∀ {s : Store} {c : Chart} {r : PageRef} {p : LivePage} {fold : Value},
    Made s c p fold r → p.version = version → (∀ m ∈ p.children, Q m c) → Q r c
  refolded : ∀ {c : Chart} {r r' : PageRef} {fold : Value}, c.page r'.site = c.page r.site →
    r'.header = { r.header with fold } → Q r c → Q r' c

/-- Nothing may be asked of subtrees. -/
theorem inherited_true (version : Nat) : Inherited version fun _ _ => True :=
  ⟨fun _ _ => trivial, fun _ _ _ _ _ _ => trivial, fun _ _ _ => trivial, fun _ _ _ => trivial⟩

/-! ## Evacuation -/

/-- Moving pages out of old zones keeps the tree, with all that it inherits. -/
theorem evacuatedWithin_keeps {Q : PageRef → Chart → Prop} (hQ : Inherited version Q)
    (hrep : Represents s c) (post depth : Nat) (hdepth : r.treeSize < depth)
    (hfit : c.Fit kind stem version r) (hr : Q r c) :
    Runs (evacuatedWithin post version depth r) s c fun r' _ c' =>
      c'.Likeness kind stem version r.site r' ∧ Q r' c' := by
  induction depth generalizing s c r with
  | zero => exact absurd hdepth (Nat.not_lt_zero _)
  | succ depth ih =>
      unfold evacuatedWithin
      refine Runs.ite ?_ ?_
      · intro _
        exact Runs.pure hrep ⟨.refl hfit, hr⟩
      · intro _
        refine Runs.naming r (Runs.bind (page_runs hrep hfit.refs) ?_)
        rintro p s' c' hgrows ⟨hpage, hrefs⟩
        have hfit' := hfit.mono hgrows.le
        have hchildren :=
          hQ.child hgrows.represents.toMirrors hfit'.refs hpage (hQ.mono hgrows.le hr)
        refine Runs.bind (mapChildren_runs (P := Q) hgrows.represents hfit' hpage hrefs
          (fit_of_page hfit' hpage).2.2 (fun _ _ _ => hQ.mono) ?_) ?_
        · intro m hm s'' c'' hgrows' hfitm hlt
          exact ih hgrows'.represents (by omega) hfitm (hQ.mono hgrows'.le (hchildren m hm))
        · intro p' s'' c'' hgrows' hrebuilt
          refine (ofRebuilt_holds hgrows'.represents (hfit'.mono hgrows'.le)
            (Chart.page_mono hgrows'.le hpage) (hrebuilt.imp fun _ _ h => h.1)
            (folds_of_rebuilt hgrows'.represents.toMirrors (hgrows'.le.refs r hfit'.refs)
              (Chart.page_mono hgrows'.le hpage) (hrebuilt.imp fun _ _ h => h.1))).mono ?_
          rintro r' s₃ c₃ hgrows'' ⟨hlike, hmade, -⟩
          -- a page that is made again has what all its children have
          refine ⟨hlike, hQ.made hmade hrebuilt.version fun m' hm' => ?_⟩
          obtain ⟨_, -, -, hm''⟩ := exists_of_forall₂_right hrebuilt.children hm'
          exact hQ.mono hgrows''.le hm''

theorem evacuated_keeps {Q : PageRef → Chart → Prop} (hQ : Inherited version Q)
    (hrep : Represents s c) (post : Nat) (hfit : c.Fit kind stem version r) (hr : Q r c) :
    Runs (r.evacuated post version) s c fun r' _ c' =>
      c'.Likeness kind stem version r.site r' ∧ Q r' c' := by
  refine Runs.get (evacuatedWithin_keeps hQ hrep post _ ?_ hfit hr)
  exact Store.treeSize_lt_depthBound _ _

/-- Moving pages out of old zones keeps the tree. -/
theorem evacuated_runs (hrep : Represents s c) (post : Nat) (hfit : c.Fit kind stem version r) :
    Runs (r.evacuated post version) s c fun r' _ c' =>
      c'.Likeness kind stem version r.site r' :=
  (evacuated_keeps (inherited_true version) hrep post hfit trivial).mono
    fun _ _ _ _ hpost => hpost.1

/-! ## Taking back commits -/

/-- Taking back commits keeps the tree. -/
theorem uncommittedWithin_runs (hrep : Represents s c) (since depth : Nat)
    (hdepth : r.treeSize < depth) (hfit : c.Fit kind stem version r) :
    Runs (uncommittedWithin since depth r) s c fun r' _ c' =>
      c'.Likeness kind stem version r.site r' := by
  induction depth generalizing s c kind stem version r with
  | zero => exact absurd hdepth (Nat.not_lt_zero _)
  | succ depth ih =>
      unfold uncommittedWithin
      refine Runs.hardPage ?_
      cases hhold : s.hold r with
      | strong copy =>
          obtain ⟨hpage, hrefs⟩ := hrep.held r copy hfit.refs (by rw [hhold]; rfl)
          refine Runs.ite (fun _ => Runs.pure hrep (.refl hfit)) fun _ => ?_
          -- a rebuilt page keeps its version, and so do those beneath it
          refine Runs.bind (rebuildChildren_runs hrep hfit hpage hrefs (Nat.le_refl _) ?_) ?_
          · intro m s' c' hgrows hm hlt
            exact ih hgrows.represents (by omega) hm
          · intro page' s' c' hgrows hrebuilt
            have hfit' := hfit.mono hgrows.le
            refine Runs.ite (fun _ => ?_) fun _ => Runs.pure hgrows.represents (.refl hfit')
            exact (ofRebuilt_runs hgrows.represents hfit' (Chart.page_mono hgrows.le hpage)
              hrebuilt).mono fun _ _ _ _ hlike => hlike.raise (fit_of_page hfit hpage).2.2
      | _ => exact Runs.pure hrep (.refl hfit)

theorem uncommitted_runs (hrep : Represents s c) (since : Nat) (hfit : c.Fit kind stem version r) :
    Runs (r.uncommitted since) s c fun r' _ c' => c'.Likeness kind stem version r.site r' := by
  refine Runs.get (uncommittedWithin_runs hrep since _ ?_ hfit)
  exact Store.treeSize_lt_depthBound _ _

/-! ## Folds -/

end PageRef

/-- The fold of a reference is one of the values beneath it. -/
def Chart.HasFold (c : Chart) (r : PageRef) : Prop :=
  ∃ p, c.page r.site = some p ∧ c.FoldsTo p r.fold

namespace Chart.HasFold

variable {c c' : Chart} {r : PageRef}

theorem mono (hle : c ≤ c') (hfold : c.HasFold r) : c'.HasFold r := by
  obtain ⟨p, hp, hfolds⟩ := hfold
  exact ⟨p, page_mono hle hp, hfolds.mono hle⟩

/-- The values are those of the leaves that are read within any depth that is great enough. -/
theorem reads (hfold : c.HasFold r) (hsound : c.Sound r.site) {depth : Nat}
    (hdepth : r.treeSize < depth) :
    ∃ shapes, c.Reads depth r.site shapes ∧
      Folded c.foldings r.fold (shapes.flatMap PageBody.values) := by
  obtain ⟨p, hp, depth', shapes', hgathers, hfolded⟩ := hfold
  have hreads' : c.Reads (depth' + 1) r.site shapes' := ⟨p, hp, hgathers⟩
  obtain ⟨shapes, hreads⟩ := Reads.exists_of_sound hsound (by rwa [PageRef.header_site])
  obtain rfl := hreads'.unique hreads
  exact ⟨shapes', hreads, hfolded⟩

end Chart.HasFold

namespace PageRef

variable {s : Store} {c : Chart} {kind : TreeKind} {stem version version' : Nat} {r : PageRef}
  {p p' : LivePage} {f : Folding}

/-- A leaf is folded value by value. -/
theorem foldsTo_of_leaf (hleaf : p.isNode = false) (hf : c.foldings f) :
    c.FoldsTo (p.map site) (p.values.foldl f.combine f.identity) := by
  refine ⟨0, _, Or.inl ⟨by simpa using hleaf, rfl⟩, ?_⟩
  have hvalues : [(p.map site).body.shape].flatMap PageBody.values = p.values := by
    simp [Page.values_eq]
  rw [hvalues]
  exact .leaf hf _

/-- A node is folded child by child. -/
theorem foldsTo_of_node (hnode : p.isNode = true) (hf : c.foldings f)
    (hsound : ∀ m ∈ p.children, c.Sound m.site) (hfolds : ∀ m ∈ p.children, c.HasFold m) :
    c.FoldsTo (p.map site) ((p.children.map fold).foldl f.merge f.identity) := by
  let depth := (p.children.map treeSize).sum + 1
  have hreads : ∀ m ∈ p.children, ∃ shapes, c.Reads depth m.site shapes ∧
      Folded c.foldings m.fold (shapes.flatMap PageBody.values) := by
    intro m hm
    have hle := le_sum_of_mem (List.mem_map_of_mem (f := treeSize) hm)
    exact (hfolds m hm).reads (hsound m hm) (Nat.lt_succ_of_le hle)
  obtain ⟨parts, hparts⟩ := exists_forall₂ hreads
  refine ⟨depth, parts.flatten, Or.inr ⟨by simpa using hnode, parts, ?_, rfl⟩, ?_⟩
  · rw [Page.map_children, List.forall₂_map_left_iff]
    exact hparts.imp fun _ _ h => h.1
  · have hvalues : parts.flatten.flatMap PageBody.values =
        (parts.map fun shapes => shapes.flatMap PageBody.values).flatten := by
      simp only [List.flatMap_def, List.map_flatten, List.flatten_flatten, List.map_map,
        Function.comp_def]
    rw [hvalues]
    refine .of_forall₂ hf ?_
    rw [List.forall₂_map_left_iff, List.forall₂_map_right_iff]
    exact hparts.imp fun _ _ h => h.2

/-- The same page under another fold is the root of a tree alike. -/
theorem refolded_runs (hrep : Represents s c) (hfit : c.Fit kind stem version r)
    (hpage : c.page r.site = some (p.map site)) {fold : Value}
    (hfolds : c.FoldsTo (p.map site) fold) :
    Runs (r.withFold fold) s c fun r' _ c' =>
      (c'.Likeness kind stem version r.site r' ∧ c'.HasFold r') ∧
        c'.page r'.site = c'.page r.site ∧ r'.header = { r.header with fold } := by
  refine (withFold_runs hrep hfit.refs ?_).mono ?_
  · intro q hq _
    rw [hpage] at hq
    cases hq
    exact hfolds
  rintro r' s' c' hgrows ⟨hr', -, hheader, hsame⟩
  obtain ⟨q, hq, hrest⟩ := hfit.page
  have hsame' := hsame.trans hpage
  rw [hpage] at hq
  cases hq
  refine ⟨⟨⟨⟨hr', _, hsame', hrest⟩, ?_⟩, _, hsame', ?_⟩,
    hsame'.trans (Chart.page_mono hgrows.le hpage).symm, hheader⟩
  · exact Chart.Alike.of_forall₂ (Chart.page_mono hgrows.le hpage) hsame' rfl
      (Chart.Alike.forall₂_refl _)
  · have hfold : r'.fold = fold := congrArg Header.fold hheader
    rw [hfold]
    exact hfolds.mono hgrows.le

/-- A node over children whose folds are known. -/
theorem ofReduced_runs (hrep : Represents s c) (hf : c.foldings f)
    (hfit : c.Fit kind stem version r) (hpage : c.page r.site = some (p.map site))
    (hnode : p.isNode = true) (hrebuilt : p.Rebuilt (fun m m' =>
      c.Likeness kind stem version' m.site m' ∧ c.HasFold m') version' p') :
    Runs (ofPage p' ((p'.children.map fold).foldl f.merge f.identity)) s c fun r' _ c' =>
      (c'.Likeness kind stem version' r.site r' ∧ c'.HasFold r') ∧
        Made s c' p' ((p'.children.map fold).foldl f.merge f.identity) r' := by
  have hchild : ∀ m' ∈ p'.children, c.refs m' ∧ c.HasFold m' := by
    intro m' hm'
    obtain ⟨m, -, hlike, hfold⟩ := exists_of_forall₂_right hrebuilt.children hm'
    exact ⟨hlike.fit.refs, hfold⟩
  have hnode' : p'.isNode = true := (Page.isNode_of_shape hrebuilt.shape).trans hnode
  have hfolds := foldsTo_of_node hnode' hf (fun m hm => hrep.sound m (hchild m hm).1)
    fun m hm => (hchild m hm).2
  refine (ofRebuilt_holds hrep hfit hpage (hrebuilt.imp fun _ _ h => h.1)
    fun _ => hfolds).mono ?_
  rintro r' s' c' hgrows ⟨hlike, hmade, -⟩
  refine ⟨⟨hlike, _, hmade.page, ?_⟩, hmade⟩
  have hfold : r'.fold = (p'.children.map fold).foldl f.merge f.identity := by
    rw [fold, hmade.header]
    rfl
  rw [hfold]
  exact hfolds.mono hgrows.le

/-- Folding the values keeps the tree, with all that it inherits, and then the fold is known. -/
theorem reducedWithin_keeps {Q : PageRef → Chart → Prop} (hQ : Inherited version Q)
    (hrep : Represents s c) (hf : c.foldings f) (depth : Nat) (hdepth : r.treeSize < depth)
    (hfit : c.Fit kind stem version r) (hr : Q r c) :
    Runs (reducedWithin f version depth r) s c fun r' _ c' =>
      (c'.Likeness kind stem version r.site r' ∧ c'.HasFold r') ∧ Q r' c' := by
  induction depth generalizing s c r with
  | zero => exact absurd hdepth (Nat.not_lt_zero _)
  | succ depth ih =>
      unfold reducedWithin
      refine Runs.ite ?_ ?_
      · -- a subtree that has been folded already is not entered
        intro hdefined
        obtain ⟨q, hq⟩ := hrep.page hfit.refs
        exact Runs.pure hrep ⟨⟨.refl hfit, q, hq, hrep.folds hfit.refs hq hdefined⟩, hr⟩
      · intro _
        refine Runs.bind (page_runs hrep hfit.refs) ?_
        rintro p s' c' hgrows ⟨hpage, hrefs⟩
        have hrep' := hgrows.represents
        have hfit' := hfit.mono hgrows.le
        have hf' := hgrows.le.foldings f hf
        have hr' := hQ.mono hgrows.le hr
        have hchildren := hQ.child hrep'.toMirrors hfit'.refs hpage hr'
        refine Runs.ite ?_ ?_
        · intro hnode
          refine Runs.bind (mapChildren_runs (P := fun m c => c.HasFold m ∧ Q m c) hrep' hfit'
            hpage hrefs (fit_of_page hfit' hpage).2.2
            (fun _ _ _ hle h => ⟨h.1.mono hle, hQ.mono hle h.2⟩) ?_) ?_
          · intro m hm s'' c'' hgrows' hfitm hlt
            exact (ih hgrows'.represents (hgrows'.le.foldings f hf') (by omega) hfitm
              (hQ.mono hgrows'.le (hchildren m hm))).mono
              fun _ _ _ _ hpost => ⟨hpost.1.1, hpost.1.2, hpost.2⟩
          · intro p' s'' c'' hgrows' hrebuilt
            refine (ofReduced_runs hgrows'.represents (hgrows'.le.foldings f hf')
              (hfit'.mono hgrows'.le) (Chart.page_mono hgrows'.le hpage) hnode
              (hrebuilt.imp fun _ _ h => ⟨h.1, h.2.1⟩)).mono ?_
            rintro r' s₃ c₃ hgrows'' ⟨hpost, hmade⟩
            refine ⟨hpost, hQ.made hmade hrebuilt.version fun m' hm' => ?_⟩
            obtain ⟨_, -, -, -, hm''⟩ := exists_of_forall₂_right hrebuilt.children hm'
            exact hQ.mono hgrows''.le hm''
        · intro hleaf
          refine (refolded_runs hrep' hfit' hpage
            (foldsTo_of_leaf (by simpa using hleaf) hf')).mono ?_
          rintro r' s'' c'' hgrows' ⟨hpost, hsame, hheader⟩
          exact ⟨hpost, hQ.refolded hsame hheader (hQ.mono hgrows'.le hr')⟩

theorem reduced_keeps {Q : PageRef → Chart → Prop} (hQ : Inherited version Q)
    (hrep : Represents s c) (hf : c.foldings f) (hfit : c.Fit kind stem version r) (hr : Q r c) :
    Runs (r.reduced f version) s c fun r' _ c' =>
      (c'.Likeness kind stem version r.site r' ∧ c'.HasFold r') ∧ Q r' c' := by
  refine Runs.get (reducedWithin_keeps hQ hrep hf _ ?_ hfit hr)
  exact Store.treeSize_lt_depthBound _ _

/-- Folding the values keeps the tree, and then the fold is known. -/
theorem reduced_runs (hrep : Represents s c) (hf : c.foldings f)
    (hfit : c.Fit kind stem version r) :
    Runs (r.reduced f version) s c fun r' _ c' =>
      c'.Likeness kind stem version r.site r' ∧ c'.HasFold r' :=
  (reduced_keeps (inherited_true version) hrep hf hfit trivial).mono fun _ _ _ _ hpost => hpost.1

end PageRef
end PageTree
