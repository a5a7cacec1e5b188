import PageTree.Proofs.Pictures.Basic

/-!
# Operations on galleries

`Yields sure act g post` says that an operation on the store of a sound gallery leaves a sound
gallery with all the pictures that there were, and gives a result with a property; unless loads
are `sure` to succeed, it may fail instead.  Pages are found, loaded and made in this way: a page
that is found is as its picture shows it (`PageRef.page_yields`), and a reference to a new page has
the picture of what was put together (`PageRef.ofPage_yields`).
-/

namespace PageTree

open StoreM

/-! ## The judgment -/

/-- Operations on a gallery, and what holds of their results. -/
class Yielding (m : Type → Type) [Monad m] where
  /-- The operation keeps all pictures and gives a result with a property; unless `sure`, it may
  fail. -/
  Yields {α : Type} (sure : Prop) (act : m α) (g : Gallery) (post : α → Gallery → Prop) : Prop
  pure {α : Type} {sure : Prop} {a : α} {g : Gallery} {P : α → Gallery → Prop} :
    g.Sound sure → P a g → Yields sure (pure a : m α) g P
  bind {α β : Type} {sure : Prop} {act : m α} {f : α → m β} {g : Gallery}
    {P : α → Gallery → Prop} {Q : β → Gallery → Prop} : Yields sure act g P →
    (∀ a g', g ≤ g' → g'.Sound sure → P a g' → Yields sure (f a) g' Q) →
    Yields sure (act >>= f) g Q
  mono {α : Type} {sure : Prop} {act : m α} {g : Gallery} {P Q : α → Gallery → Prop} :
    Yields sure act g P → (∀ a g', g ≤ g' → g'.Sound sure → P a g' → Q a g') →
    Yields sure act g Q

export Yielding (Yields)

instance : Yielding StoreM where
  Yields sure act g post :=
    (∃ a g', exec act g.store = (.ok a, g'.store) ∧ g ≤ g' ∧ g'.Sound sure ∧ post a g') ∨
      ¬ sure ∧ ∃ e s, exec act g.store = (.error e, s)
  pure hsound hpost := Or.inl ⟨_, _, rfl, Gallery.le_refl _, hsound, hpost⟩
  bind := by
    rintro α β sure act f g P Q (⟨a, g', hexec, hle, hsound, hpost⟩ | ⟨hunsure, e, s, hexec⟩) hf
    · rcases hf a g' hle hsound hpost with
        ⟨b, g'', hexec', hle', hsound', hpost'⟩ | ⟨hunsure, e, s, hexec'⟩
      · exact Or.inl ⟨b, g'', by rw [exec_bind, hexec]; exact hexec', Gallery.le_trans hle hle',
          hsound', hpost'⟩
      · exact Or.inr ⟨hunsure, e, s, by rw [exec_bind, hexec]; exact hexec'⟩
    · exact Or.inr ⟨hunsure, e, s, by rw [exec_bind, hexec]⟩
  mono := by
    rintro α sure act g P Q (⟨a, g', hexec, hle, hsound, hpost⟩ | herror) himp
    · exact Or.inl ⟨a, g', hexec, hle, hsound, himp a g' hle hsound hpost⟩
    · exact Or.inr herror

instance {σ : Type} : Yielding (StateT σ StoreM) where
  Yields sure act g post := ∀ x, Yields sure (act.run x) g fun result g' => post result.1 g'
  pure hsound hpost _ := Yielding.pure (m := StoreM) hsound hpost
  bind := by
    intro α β sure act f g P Q hact hf x
    rw [StateT.run_bind]
    exact Yielding.bind (hact x) fun result g' hle hsound hpost =>
      hf result.1 g' hle hsound hpost result.2
  mono hact himp x := Yielding.mono (hact x) fun result g' hle hsound hpost =>
    himp result.1 g' hle hsound hpost

namespace Yielding

variable {α β σ : Type} {sure : Prop} {g : Gallery} {P : α → Gallery → Prop}
  {Q : β → Gallery → Prop}

/-- The state may be looked at. -/
theorem get {f : Store → StoreM β} (hf : Yields sure (f g.store) g Q) :
    Yields sure (get >>= f : StoreM β) g Q :=
  hf

/-- Memory may be looked at. -/
theorem hold {r : PageRef} {f : Hold → StoreM β}
    (hf : Yields sure (f (g.store.hold r)) g Q) : Yields sure (r.hold >>= f) g Q :=
  hf

theorem hardPage {r : PageRef} {f : Option LivePage → StoreM β}
    (hf : Yields sure (f ((g.store.hold r).strong?.map PageCopy.page)) g Q) :
    Yields sure (r.hardPage? >>= f) g Q :=
  hf

/-- A failure may be given a name. -/
theorem naming {act : StoreM α} (r : PageRef) (hact : Yields sure act g P) :
    Yields sure (r.naming act) g P := by
  rcases hact with ⟨a, g', hexec, hrest⟩ | ⟨hunsure, e, s, hexec⟩
  · exact Or.inl ⟨a, g', by rw [PageRef.exec_naming, hexec], hrest⟩
  · exact Or.inr ⟨hunsure, _, s, by rw [PageRef.exec_naming, hexec]⟩

/-- What is done on the store is done so while there is some other state. -/
theorem lift {act : StoreM α} (hact : Yields sure act g P) :
    Yields sure (liftM act : StateT σ StoreM α) g P := by
  intro x
  change Yields sure (act >>= fun a => Pure.pure (a, x)) g _
  exact Yielding.bind hact fun a g' _ hsound hpost => Yielding.pure (m := StoreM) hsound hpost

/-- The other state may be looked at. -/
theorem getState {f : σ → StateT σ StoreM β} (hf : ∀ x, Yields sure (f x) g Q) :
    Yields sure (MonadState.get >>= f : StateT σ StoreM β) g Q :=
  fun x => hf x x

/-- The other state may be changed. -/
theorem modifyState (change : σ → σ) {f : Unit → StateT σ StoreM β}
    (hf : Yields sure (f ()) g Q) : Yields sure (modify change >>= f : StateT σ StoreM β) g Q :=
  fun x => hf (change x)

section Children

variable {m : Type → Type} [Monad m] [LawfulMonad m] [Yielding m] {γ δ ε : Type} {f : γ → m δ}

/-- An action on every item of a list.  Along with the items goes a list of what to expect of the
results, which go along with both. -/
theorem listMapM {R : γ → ε → Gallery → Prop} {S : γ → δ → Prop} {T : δ → ε → Gallery → Prop}
    {l : List γ} {es : List ε} (hsound : g.Sound sure)
    (hl : List.Forall₂ (fun a e => R a e g) l es)
    (hR : ∀ a e g g', g ≤ g' → R a e g → R a e g')
    (hT : ∀ b e g g', g ≤ g' → T b e g → T b e g')
    (hf : ∀ a ∈ l, ∀ e g', g ≤ g' → g'.Sound sure → R a e g' →
      Yields sure (f a) g' fun b g'' => S a b ∧ T b e g'') :
    Yields sure (l.mapM f) g fun bs g' =>
      List.Forall₂ S l bs ∧ List.Forall₂ (fun b e => T b e g') bs es := by
  induction l generalizing g es with
  | nil =>
      cases hl
      exact Yielding.pure hsound ⟨List.Forall₂.nil, List.Forall₂.nil⟩
  | cons a l ih =>
      obtain ⟨e, es, ha, hrest, rfl⟩ := List.forall₂_cons_left_iff.1 hl
      rw [List.mapM_cons]
      refine Yielding.bind (hf a List.mem_cons_self e g (Gallery.le_refl g) hsound ha) ?_
      rintro b g' hle hsound' ⟨hSb, hTb⟩
      refine Yielding.bind (ih hsound' (hrest.imp fun a e h => hR a e g g' hle h) ?_) ?_
      · intro a' ha' e' g'' hle'
        exact hf a' (List.mem_cons_of_mem a ha') e' g'' (Gallery.le_trans hle hle')
      · rintro bs g'' hle' hsound'' ⟨hSbs, hTbs⟩
        exact Yielding.pure hsound''
          ⟨List.Forall₂.cons hSb hSbs, List.Forall₂.cons (hT b e g' g'' hle' hTb) hTbs⟩

/-- An action on the children of a page. -/
theorem mapChildren {R : γ → ε → Gallery → Prop} {S : γ → δ → Prop} {T : δ → ε → Gallery → Prop}
    {p : Page γ} {es : List ε} (version : Nat) (hsound : g.Sound sure)
    (hp : List.Forall₂ (fun a e => R a e g) p.children es)
    (hR : ∀ a e g g', g ≤ g' → R a e g → R a e g')
    (hT : ∀ b e g g', g ≤ g' → T b e g → T b e g')
    (hf : ∀ a ∈ p.children, ∀ e g', g ≤ g' → g'.Sound sure → R a e g' →
      Yields sure (f a) g' fun b g'' => S a b ∧ T b e g'') :
    Yields sure (p.mapChildren version f) g fun p' g' =>
      p.Rebuilt S version p' ∧ List.Forall₂ (fun b e => T b e g') p'.children es := by
  rw [Page.mapChildren_eq]
  refine Yielding.bind (listMapM hsound hp hR hT hf) ?_
  rintro children g' hle hsound' ⟨hS, hT⟩
  refine Yielding.pure hsound' ⟨Page.rebuilt_withChildren version hS, ?_⟩
  rwa [Page.children_withChildren hS.length_eq]

end Children

/-- An action on one item of a list after another. -/
theorem forM {γ : Type} {f : γ → StoreM Unit} (l : List γ) (hsound : g.Sound sure)
    (hf : ∀ a ∈ l, ∀ g', g ≤ g' → g'.Sound sure → Yields sure (f a) g' fun _ _ => True) :
    Yields sure (l.forM f) g fun _ _ => True := by
  induction l generalizing g with
  | nil => exact Yielding.pure hsound trivial
  | cons a l ih =>
      rw [List.forM]
      refine Yielding.bind (hf a List.mem_cons_self g (Gallery.le_refl g) hsound) ?_
      intro _ g' hle hsound' _
      exact ih hsound' fun a' ha' g'' hle' =>
        hf a' (List.mem_cons_of_mem a ha') g'' (Gallery.le_trans hle hle')

end Yielding

/-! ## Other folds -/

/-- The picture of the same pages, with another fold for the first. -/
def Picture.withFold (fold : Value) : Picture → Picture
  | of stem shape extent _ beneath => of stem shape extent fold beneath

@[simp] theorem Picture.kind_withFold (fold : Value) (t : Picture) :
    (t.withFold fold).kind = t.kind := by
  cases t
  rfl

theorem Page.Draws.withFold {p : LivePage} {shows : PageRef → Picture → Prop} {t : Picture}
    (fold : Value) (hdraws : p.Draws shows t) : p.Draws shows (t.withFold fold) := by
  cases t
  exact ⟨hdraws.stem, hdraws.shape, hdraws.children⟩

/-- The text of a page does not have its own fold. -/
theorem Zones.Files.withFold {z : Zones} {sure : Prop} {h : Header} {t : Picture} (fold : Value)
    (hfiles : z.Files sure h t) : z.Files sure { h with fold } (t.withFold fold) := by
  obtain ⟨committed, found, ⟨hextent, hsize, harea⟩, alike, children⟩ := hfiles
  exact .of (h := { h with fold }) committed found ⟨hextent, hsize, harea⟩ alike children

namespace PageRef

variable {sure : Prop} {g : Gallery} {r : PageRef} {t : Picture} {p : LivePage}

/-! ### Making references -/

theorem create_yields {tree : TreeKind} {stem : Nat} {header : Header} {hold : Hold}
    (hsound : g.Sound sure) (diffSize : Nat) (version : Option Nat) (htree : tree = t.kind)
    (hstem : stem = t.stem) (hextent : header.extent = t.extent) (hfold : header.fold = t.fold)
    (hstrong : header.isCommitted = false → ∃ copy, hold = .strong copy)
    (hheld : ∀ copy, hold.copy? = some copy →
      copy.page.Draws g.shows t ∧ header.Measures copy.page.stored)
    (habsent : hold.copy? = none → g.store.zones.Files sure header t) :
    Yields sure (create tree stem header diffSize hold version) g fun r' g' =>
      r'.header = header ∧ g'.shows r' t :=
  Or.inl ⟨_, g.add ⟨hold, version⟩ ⟨g.store.cells.size, tree, stem, header, diffSize⟩ t, rfl,
    g.le_add _ _ _, hsound.add rfl ⟨htree, hstem, hextent, hfold⟩ hstrong
      (fun copy hcopy => ⟨(hheld copy hcopy).1, (hheld copy hcopy).2⟩) habsent, rfl,
    Gallery.shows_add⟩

/-- A reference to a page that has been written. -/
theorem ofHeader_yields {tree : TreeKind} {stem : Nat} {h : Header} (hsound : g.Sound sure)
    (htree : t.kind = tree) (hstem : t.stem = stem) (hfiles : g.store.zones.Files sure h t) :
    Yields sure (ofHeader tree stem h) g fun r' g' => r'.header = h ∧ g'.shows r' t := by
  refine create_yields hsound _ _ htree.symm hstem.symm ?_ ?_ ?_ (fun _ h => nomatch h)
    fun _ => hfiles
  · cases hfiles
    rfl
  · cases hfiles
    rfl
  · intro huncommitted
    obtain ⟨hcommitted⟩ := hfiles
    rw [huncommitted] at hcommitted
    cases hcommitted

/-- A reference to a page in memory. -/
theorem holding_yields {tree : TreeKind} {stem : Nat} {header : Header} {copy : PageCopy}
    (hsound : g.Sound sure) (htree : tree = t.kind) (hstem : stem = t.stem)
    (hextent : header.extent = t.extent) (hfold : header.fold = t.fold)
    (hdraws : copy.page.Draws g.shows t) (hmeasures : header.Measures copy.page.stored) :
    Yields sure (holding tree stem header copy) g fun r' g' => g'.shows r' t := by
  unfold holding
  refine Yielding.mono (create_yields hsound _ _ htree hstem hextent hfold
    (fun _ => ⟨copy, rfl⟩) ?_ fun h => nomatch h) fun _ _ _ _ hpost => hpost.2
  intro copy' hcopy
  cases hcopy
  exact ⟨hdraws, hmeasures⟩

/-- A copy of a page changes nothing that there is to see. -/
theorem copyOf_yields (hsound : g.Sound sure) (p : LivePage) :
    Yields sure (copyOf p) g fun copy g' => copy.page = p ∧ g'.shows = g.shows :=
  Or.inl ⟨_, ⟨_, g.shows⟩, exec_copyOf p g.store, ⟨fun _ _ h => h, rfl⟩,
    hsound.of_cells_eq rfl rfl (Nat.le_refl _), rfl, rfl⟩

/-- A reference to a new page. -/
theorem ofPage_yields (hsound : g.Sound sure) (hdraws : p.Draws g.shows t)
    (hextent : p.stored.extent = t.extent) :
    Yields sure (ofPage p t.fold) g fun r' g' => g'.shows r' t := by
  refine Yielding.bind (copyOf_yields hsound p) ?_
  rintro copy g' hle hsound' ⟨rfl, hshows⟩
  exact holding_yields hsound' (Page.treeKind_of_shape_eq hdraws.shape) hdraws.stem hextent rfl
    (hshows ▸ hdraws) (Header.measures_ofPage _ _)

/-- The same page under another fold. -/
theorem withFold_yields (hsound : g.Sound sure) (hr : g.shows r t) (fold : Value) :
    Yields sure (r.withFold fold) g fun r' g' => g'.shows r' (t.withFold fold) := by
  have htells := hsound.tells hr
  have hfields : (t.withFold fold).stem = t.stem ∧ (t.withFold fold).extent = t.extent ∧
      (t.withFold fold).fold = fold := by
    cases t
    exact ⟨rfl, rfl, rfl⟩
  refine Yielding.get (Yielding.mono (create_yields hsound r.diffSize
    (g.store.cell r.id).version ?_ ?_ ?_ ?_ (hsound.strong hr) ?_ ?_)
    fun _ _ _ _ hpost => hpost.2)
  · rw [Picture.kind_withFold, htells.tree]
  · rw [hfields.1, htells.stem]
  · rw [hfields.2.1]
    exact htells.extent
  · exact hfields.2.2.symm
  · intro copy hcopy
    obtain ⟨hdraws, hextent, hsize, harea⟩ := hsound.held hr hcopy
    exact ⟨hdraws.withFold fold, hextent, hsize, harea⟩
  · intro hnone
    exact (hsound.absent hr hnone).withFold fold

/-! ### Loading -/

/-- Memory comes to hold a page. -/
theorem keep_yields (hsound : g.Sound sure) (hr : g.shows r t) (hsees : g.Sees r t p) :
    Yields sure (r.keep p) g fun copy g' => copy.page = p ∧ g'.shows = g.shows := by
  refine Yielding.bind (copyOf_yields hsound p) ?_
  rintro copy g' hle hsound' ⟨rfl, hshows⟩
  exact Or.inl ⟨copy, ⟨_, g'.shows⟩, rfl, ⟨fun _ _ h => h, rfl⟩,
    hsound'.modifyCell (hle.shows _ _ hr) rfl (hsees.mono hle),
    rfl, hshows⟩

/-- Loads that are sure to succeed do not fail on purpose. -/
theorem takeFault_yields (hsound : g.Sound sure) :
    Yields sure takeFault g fun strikes g' =>
      (sure → strikes = false) ∧ g'.shows = g.shows := by
  refine Or.inl ⟨_, ⟨_, g.shows⟩, rfl, ⟨fun _ _ h => h, rfl⟩,
    hsound.of_cells_eq rfl rfl g.store.faults.pending_passed_le, fun hsure => ?_, rfl⟩
  by_contra hstrikes
  have hpos := Faults.pending_pos (Bool.of_not_eq_false hstrikes)
  have hzero := hsound.faultless hsure
  omega

/-- Where loads are sure to succeed, the zones are open. -/
theorem checkOpen_yields (hsound : g.Sound sure) :
    Yields sure (StoreM.ofZones Zones.checkOpen) g fun _ g' => g' = g := by
  cases hclosed : g.store.zones.isClosed with
  | false =>
      refine Or.inl ⟨(), g, ?_, Gallery.le_refl g, hsound, rfl⟩
      rw [exec_ofZones, Zones.checkOpen, hclosed]
      rfl
  | true =>
      refine Or.inr ⟨fun hsure => ?_, .closed, g.store, ?_⟩
      · rw [hsound.opened hsure] at hclosed
        cases hclosed
      · rw [exec_ofZones, Zones.checkOpen, hclosed]
        rfl

/-- The counters of the cache are not seen. -/
theorem countHit_yields (hsound : g.Sound sure) : Yields sure countHit g fun _ _ => True :=
  Or.inl ⟨(), ⟨_, g.shows⟩, rfl, ⟨fun _ _ h => h, rfl⟩,
    hsound.of_cells_eq rfl rfl (Nat.le_refl _), trivial⟩

theorem countLoad_yields (hsound : g.Sound sure) : Yields sure countLoad g fun _ _ => True :=
  Or.inl ⟨(), ⟨_, g.shows⟩, rfl, ⟨fun _ _ h => h, rfl⟩,
    hsound.of_cells_eq rfl rfl (Nat.le_refl _), trivial⟩

/-- The children of a page that has been read get references with their pictures. -/
theorem takeIn_yields {q : Page Header} {ts : List Picture} (hsound : g.Sound sure)
    (hmeasures : r.header.Measures q)
    (halike : ∀ t ∈ ts, t.kind = q.treeKind ∧ t.stem = q.stem)
    (hchildren : List.Forall₂ (g.store.zones.Files sure) q.children ts) :
    Yields sure (q.mapChildren q.version (ofHeader q.treeKind q.stem)) g fun p g' =>
      g'.Sees r (.of q.stem q.body.shape r.header.extent r.fold ts) p := by
  have hp : List.Forall₂ (fun k t => (t.kind = q.treeKind ∧ t.stem = q.stem) ∧
      g.store.zones.Files sure k t) q.children ts :=
    ((List.forall₂_and_left ts q.children).2 ⟨halike, hchildren.flip⟩).flip
  refine Yielding.mono (Yielding.mapChildren (S := fun k m => m.header = k)
    (R := fun k t g => (t.kind = q.treeKind ∧ t.stem = q.stem) ∧ g.store.zones.Files sure k t)
    (T := fun m t g => g.shows m t) q.version hsound hp ?_ ?_ ?_) ?_
  · rintro k t g g' hle ⟨halike, hfiles⟩
    exact ⟨halike, hle.zones ▸ hfiles⟩
  · exact fun m t g g' hle hm => hle.shows m t hm
  · rintro k - t g' - hsound' ⟨⟨hkind, hstem⟩, hfiles⟩
    exact ofHeader_yields hsound' hkind hstem hfiles
  · rintro p g' - - ⟨hrebuilt, hshows⟩
    have hstored : p.stored = q := by
      rw [← Page.map_id q]
      exact hrebuilt.map_eq fun k m hm => hm
    refine ⟨⟨hrebuilt.stem, hrebuilt.shape, hshows⟩, ?_⟩
    rwa [hstored]

/-- What is read of a page that has been written is as its picture shows it. -/
theorem readPage_yields (hsound : g.Sound sure) (hr : r.Tells t)
    (hfiles : g.store.zones.Files sure r.header t) :
    Yields sure r.readPage g fun p g' => g'.Sees r t p := by
  unfold readPage
  refine Yielding.bind (takeFault_yields hsound) ?_
  rintro strikes g' hle hsound' ⟨hstrikes, -⟩
  split
  · next hstruck =>
      refine Or.inr ⟨fun hsure => ?_, _, _, rfl⟩
      rw [hstrikes hsure] at hstruck
      cases hstruck
  · refine Yielding.get ?_
    rw [hle.zones]
    obtain ⟨-, found, measures, alike, children⟩ := hfiles
    rcases found with hfound | ⟨hunsure, e, herror⟩
    · simp only [hfound]
      refine Yielding.bind (countLoad_yields hsound') ?_
      intro _ g'' hle' hsound'' _
      refine takeIn_yields hsound'' measures alike ?_
      rwa [hle'.zones, hle.zones]
    · simp only [herror]
      exact Or.inr ⟨hunsure, _, _, rfl⟩

/-- The page of a reference in use is loaded. -/
theorem load_yields (hsound : g.Sound sure) (hr : g.shows r t)
    (habsent : (g.store.hold r).copy? = none) :
    Yields sure r.load g fun copy g' => g'.Sees r t copy.page := by
  have hfiles := hsound.absent hr habsent
  unfold load
  simp only [hsound.committed_of_absent hr habsent, Bool.not_true, Bool.false_eq_true, if_false]
  refine Yielding.bind (readPage_yields hsound (hsound.tells hr) hfiles) ?_
  intro p g' hle hsound' hsees
  have hkind : p.treeKind = r.tree := by
    rw [Page.treeKind_of_shape_eq hsees.draws.shape, (hsound.tells hr).tree]
  simp only [hkind, ne_eq, not_true_eq_false, if_false]
  refine Yielding.mono (keep_yields hsound' (hle.shows r t hr) hsees) ?_
  rintro copy g'' hle' - ⟨rfl, -⟩
  exact hsees.mono hle'

/-- The copy of the page of a reference in use is as the picture shows it. -/
theorem pageCopy_yields (hsound : g.Sound sure) (hr : g.shows r t) :
    Yields sure r.pageCopy g fun copy g' => g'.Sees r t copy.page := by
  unfold pageCopy
  refine Yielding.hold ?_
  cases hcopy : (g.store.hold r).copy? with
  | some copy =>
      refine Yielding.bind (countHit_yields hsound) ?_
      intro _ g' hle hsound' _
      exact Yielding.pure hsound' ((hsound.held hr hcopy).mono hle)
  | none =>
      refine Yielding.naming r (Yielding.bind (checkOpen_yields hsound) ?_)
      rintro _ g' - - rfl
      exact load_yields hsound hr hcopy

/-- The page of a reference in use is as the picture shows it. -/
theorem page_yields (hsound : g.Sound sure) (hr : g.shows r t) :
    Yields sure r.page g fun p g' => g'.Sees r t p :=
  Yielding.bind (pageCopy_yields hsound hr) fun _ _ _ hsound' hsees =>
    Yielding.pure hsound' hsees

/-- Memory comes to hold all pages of a subtree strongly. -/
theorem loadTreeWithin_yields (hsound : g.Sound sure) (hr : g.shows r t) (depth : Nat)
    (hdepth : r.treeSize < depth) :
    Yields sure (loadTreeWithin depth r) g fun _ _ => True := by
  induction depth generalizing g r t with
  | zero => exact absurd hdepth (Nat.not_lt_zero _)
  | succ depth ih =>
      -- whichever way the page is come by, its children are loaded next
      have hbeneath : ∀ copy : PageCopy, ∀ g', g ≤ g' → g'.Sound sure → g'.Sees r t copy.page →
          Yields sure (copy.page.children.forM (loadTreeWithin depth)) g' fun _ _ => True := by
        intro copy g' hle hsound' hsees
        refine Yielding.forM _ hsound' ?_
        intro m hm g'' hle' hsound''
        obtain ⟨t', -, hm'⟩ := exists_of_forall₂_right hsees.draws.children.flip hm
        have hlt := hsees.treeSize_lt hm
        exact ih hsound'' (hle'.shows _ _ hm') (by omega)
      unfold loadTreeWithin
      refine Yielding.hold ?_
      cases hcopy : (g.store.hold r).copy? with
      | some copy =>
          have hsees := hsound.held hr hcopy
          have hkept : Gallery.Sound sure ⟨g.store.modifyCell r.id fun cell =>
              { cell with hold := .strong copy }, g.shows⟩ :=
            hsound.modifyCell hr rfl hsees
          exact Yielding.bind (P := fun _ g' => g'.Sees r t copy.page)
            (Or.inl ⟨(), ⟨_, g.shows⟩, rfl, ⟨fun _ _ h => h, rfl⟩, hkept, hsees.draws,
              hsees.measures⟩)
            fun _ => hbeneath copy
      | none => exact Yielding.bind (Yielding.naming r (load_yields hsound hr hcopy)) hbeneath

/-- To load a subtree changes nothing that there is to see. -/
theorem loadTree_yields (hsound : g.Sound sure) (hr : g.shows r t) :
    Yields sure r.loadTree g fun _ _ => True := by
  refine Yielding.bind (checkOpen_yields hsound) ?_
  rintro _ g' - - rfl
  exact Yielding.get (loadTreeWithin_yields hsound hr _ (Store.treeSize_lt_depthBound _ _))

end PageRef
end PageTree
