import PageTree.Proofs.BTree.Derived
import PageTree.Proofs.Pictures.Charts
import PageTree.Proofs.Pictures.Trees

/-!
# Trees that are reworked again and again

A `Bench` has trees that share a store, and remembers which tree was committed to which.  Each step
reworks one of the trees; the tree that it gives is on the bench too, beside the old one.  However
many steps are made, on a tree itself and on the others beside it, what becomes of the tree has its
picture: the same entries in the same order, pages of the same structure with the same keys and
tiles, the same span, and the folds that were known (`Bench.reworks_keep_pictures`).  So no read
sees that it has been reworked.
-/

namespace PageTree

open StoreM

/-! ## The bench -/

/-- Trees that share a store. -/
structure Bench where
  store : Store
  trees : List Tree
  /-- The trees that have been committed, each with what it was committed to. -/
  commits : List (Tree × Tree)

namespace Rework

/-- What a rework adds to the commits. -/
def commits (t t' : Tree) : Rework → List (Tree × Tree)
  | commit _ _ _ | build _ _ _ => [(t, t')]
  | _ => []

/-- A tree can be rebased on what has been committed. -/
def Ready (b : Bench) : Rework → Prop
  | rebase snapshot committed => (snapshot, committed) ∈ b.commits
  | _ => True

end Rework

namespace Bench

/-- One tree is reworked into another. -/
structure Does (b : Bench) (t : Tree) (work : Rework) (t' : Tree) (b' : Bench) : Prop where
  tree : t ∈ b.trees
  ready : work.Ready b
  computed : exec (work.run t) b.store = (.ok t', b'.store)
  trees : b'.trees = t' :: b.trees
  commits : b'.commits = work.commits t t' ++ b.commits

/-- A tree is reworked again and again, while others are. -/
inductive Reworks (b : Bench) (t : Tree) : List Rework → Bench → Tree → Prop where
  | refl (tree : t ∈ b.trees) : Reworks b t [] b t
  | step {works b' u work b'' u'} (rest : Reworks b t works b' u) (does : b'.Does u work u' b'') :
      Reworks b t (works ++ [work]) b'' u'
  | aside {works b' u v work b'' v'} (rest : Reworks b t works b' u)
      (does : b'.Does v work v' b'') : Reworks b t works b'' u

/-- All trees of the bench have pictures, and what a tree was committed to has its picture. -/
structure Shown (b : Bench) (g : Gallery) : Prop where
  store : g.store = b.store
  trees : ∀ t ∈ b.trees, ∃ T, g.shows t.root T
  commits : ∀ pair ∈ b.commits, ∃ T, g.shows pair.1.root T ∧ g.shows pair.2.root T

variable {sure : Prop} {b b' : Bench} {g : Gallery} {t t' : Tree} {T : Picture} {work : Rework}
  {works : List Rework}

theorem Shown.fits (hshown : b.Shown g) (hready : work.Ready b) : work.Fits g := by
  cases work with
  | rebase snapshot committed => exact hshown.commits _ hready
  | _ => trivial

/-- A step keeps the picture of the tree, and all others. -/
theorem Does.shown (hdoes : b.Does t work t' b') (hsound : g.Sound sure) (hshown : b.Shown g)
    (ht : g.shows t.root T) : ∃ g' T', g ≤ g' ∧ g'.Sound sure ∧ b'.Shown g' ∧ T.Refines T' ∧
      (¬ work.Folds → T' = T) ∧ t.Reworked T' t' g' := by
  have hexec := hdoes.computed
  rw [← hshown.store] at hexec
  rcases work.run_yields hsound ht (hshown.fits hdoes.ready) with
    ⟨u, g', hexec', hle, hsound', T', hrefines, hsame, hreworked⟩ | ⟨-, e, s, hexec'⟩
  · rw [hexec] at hexec'
    obtain ⟨⟨⟩, hstore⟩ := Prod.mk.inj hexec'
    refine ⟨g', T', hle, hsound', ⟨hstore.symm, ?_, ?_⟩, hrefines, hsame, hreworked⟩
    · rw [hdoes.trees]
      intro u hu
      rcases List.mem_cons.1 hu with rfl | hu
      · exact ⟨T', hreworked.shown⟩
      · obtain ⟨U, hU⟩ := hshown.trees u hu
        exact ⟨U, hle.shows _ _ hU⟩
    · rw [hdoes.commits]
      intro pair hpair
      rcases List.mem_append.1 hpair with hnew | hpair
      · -- a commit folds nothing, so both trees have one picture
        have hcommitted : ¬ work.Folds ∧ pair = (t, t') := by
          cases work <;> simp_all [Rework.commits, Rework.Folds]
        obtain ⟨hfolds, rfl⟩ := hcommitted
        obtain rfl := hsame hfolds
        exact ⟨_, hle.shows _ _ ht, hreworked.shown⟩
      · obtain ⟨U, hU, hU'⟩ := hshown.commits pair hpair
        exact ⟨U, hle.shows _ _ hU, hle.shows _ _ hU'⟩
  · rw [hexec] at hexec'
    cases hexec'

/-- Steps one after another keep it. -/
theorem Reworks.shown (hrun : b.Reworks t works b' t') (hsound : g.Sound sure)
    (hshown : b.Shown g) (ht : g.shows t.root T) : ∃ g' T', g ≤ g' ∧ g'.Sound sure ∧
      b'.Shown g' ∧ T.Refines T' ∧ ((∀ work ∈ works, ¬ work.Folds) → T' = T) ∧
      t.Reworked T' t' g' := by
  -- by induction on the run; what is done to other trees keeps the picture that has been reached
  induction hrun with
  | refl _ =>
      exact ⟨g, T, Gallery.le_refl g, hsound, hshown, .refl T, fun _ => rfl, rfl, rfl, rfl, ht⟩
  | @step works b' u work b'' u' _ does ih =>
      obtain ⟨g', U, hle, hsound', hshown', hrefines, hsame, hreworked⟩ := ih
      obtain ⟨g'', U', hle', hsound'', hshown'', hrefines', hsame', hreworked'⟩ :=
        does.shown hsound' hshown' hreworked.shown
      refine ⟨g'', U', Gallery.le_trans hle hle', hsound'', hshown'', hrefines.trans hrefines',
        fun hfolds => ?_, hreworked'.kind.trans hreworked.kind,
        hreworked'.stem.trans hreworked.stem, hreworked'.created.trans hreworked.created,
        hreworked'.shown⟩
      rw [hsame' (hfolds work (by simp)),
        hsame fun work' hwork => hfolds work' (List.mem_append_left _ hwork)]
  | @aside works b' u v work b'' v' _ does ih =>
      obtain ⟨g', U, hle, hsound', hshown', hrefines, hsame, hreworked⟩ := ih
      obtain ⟨V, hv⟩ := hshown'.trees v does.tree
      obtain ⟨g'', -, hle', hsound'', hshown'', -⟩ := does.shown hsound' hshown' hv
      exact ⟨g'', U, Gallery.le_trans hle hle', hsound'', hshown'', hrefines, hsame,
        hreworked.kind, hreworked.stem, hreworked.created, hle'.shows _ _ hreworked.shown⟩

theorem Reworks.mem (hrun : b.Reworks t works b' t') : t ∈ b.trees := by
  induction hrun with
  | refl tree => exact tree
  | step _ _ ih => exact ih
  | aside _ _ ih => exact ih

end Bench

/-! ## What is kept -/

/-- There is to see of a tree what there was to see of another, by its root and by all reads. -/
structure Tree.Resembles (t' : Tree) (s' : Store) (t : Tree) (s : Store) : Prop where
  kind : t'.kind = t.kind
  stem : t'.seed.stem = t.seed.stem
  /-- The span and the tiles. -/
  extent : t'.root.header.extent = t.root.header.extent
  fold : t.fold.isDefined = true → t'.fold = t.fold
  reads : ∀ query : Query, (exec (query.run t') s').1 = (exec (query.run t) s).1
  /-- Walks in both directions. -/
  walks : ∀ {ι : Type} {policy : Policy ι} {keeps : Nat × Tile × Tile → Bool}
    {slot : PageBody Unit → Nat → Option ι}, policy.Sifts (fun h => keeps h.extent) slot →
      (exec ((Cursor.start t'.root policy).items .forward) s').1 =
          (exec ((Cursor.start t.root policy).items .forward) s).1 ∧
        (exec ((Cursor.start t'.root policy).toEnd.items .backward) s').1 =
          (exec ((Cursor.start t.root policy).toEnd.items .backward) s).1

/-- Operations that are told the same give the same, if loads are sure to succeed. -/
theorem Gallery.Tells.outcome_eq {α : Type} {g g' : Gallery} {act act' : StoreM α}
    {told : Except StoreError α} (htells' : g'.Tells True act' told)
    (htells : g.Tells True act told) : (exec act' g'.store).1 = (exec act g.store).1 := by
  rcases htells' with heq' | ⟨hunsure, -⟩
  · rcases htells with heq | ⟨hunsure, -⟩
    · rw [heq', heq]
    · exact absurd trivial hunsure
  · exact absurd trivial hunsure

/-- A tree that has been reworked resembles what it was. -/
theorem Tree.Reworked.resembles {g g' : Gallery} {t t' : Tree} {T T' : Picture}
    (hreworked : t.Reworked T' t' g') (hrefines : T.Refines T') (hsound : g.Sound True)
    (ht : g.shows t.root T) (hsound' : g'.Sound True) : t'.Resembles g'.store t g.store := by
  have htells := hsound.tells ht
  have htells' := hsound'.tells hreworked.shown
  refine ⟨hreworked.kind, hreworked.stem, ?_, fun hdefined => ?_, fun query => ?_, ?_⟩
  · rw [htells'.extent, hrefines.extent, htells.extent]
  · change t'.root.fold = t.root.fold
    rw [htells'.fold, hrefines.fold (htells.fold ▸ hdefined), htells.fold]
  · have htold' := query.run_told hsound' hreworked.shown
    rw [hrefines.told] at htold'
    exact htold'.outcome_eq (query.run_told hsound ht)
  · intro ι policy keeps slot hsifts
    have hforth' := Cursor.start_items_yields hsifts hsound' hreworked.shown
    have hback' := Cursor.end_items_yields hsifts hsound' hreworked.shown
    rw [hrefines.items] at hforth' hback'
    -- forwards and backwards
    constructor
    · exact (Yielding.tells hforth').outcome_eq
        (Yielding.tells (Cursor.start_items_yields hsifts hsound ht))
    · exact (Yielding.tells hback').outcome_eq
        (Yielding.tells (Cursor.end_items_yields hsifts hsound ht))

namespace Bench

variable {b b' : Bench} {g : Gallery} {t t' : Tree} {works : List Rework}

/-- Where loads are sure to succeed, trees can be reworked again and again: what becomes of a tree
has a picture that refines that of the tree, and the same picture unless values have been folded.
It resembles the tree, so no read tells them apart, and each further rework succeeds too. -/
theorem reworks_keep_pictures (hsound : g.Sound True) (hshown : b.Shown g)
    (hrun : b.Reworks t works b' t') :
    ∃ g' T T', g.shows t.root T ∧ g ≤ g' ∧ g'.Sound True ∧ b'.Shown g' ∧ g'.shows t'.root T' ∧
      T.Refines T' ∧ T'.leaves = T.leaves ∧ ((∀ work ∈ works, ¬ work.Folds) → T' = T) ∧
      t'.Resembles b'.store t b.store ∧
      ∀ u ∈ b'.trees, ∀ work : Rework, work.Ready b' →
        ∃ u' s, exec (work.run u) b'.store = (.ok u', s) := by
  obtain ⟨T, ht⟩ := hshown.trees t hrun.mem
  obtain ⟨g', T', hle, hsound', hshown', hrefines, hsame, hreworked⟩ :=
    hrun.shown hsound hshown ht
  refine ⟨g', T, T', ht, hle, hsound', hshown', hreworked.shown, hrefines, hrefines.leaves, hsame,
    ?_, ?_⟩
  · rw [← hshown.store, ← hshown'.store]
    exact hreworked.resembles hrefines hsound ht hsound'
  · intro u hu work hready
    obtain ⟨U, hU⟩ := hshown'.trees u hu
    rcases work.run_yields hsound' hU (hshown'.fits hready) with
      ⟨u', g'', hexec, -⟩ | ⟨hunsure, -⟩
    · exact ⟨u', g''.store, hshown'.store ▸ hexec⟩
    · exact absurd trivial hunsure

theorem Does.of_exec (work : Rework) {s : Store} (ht : t ∈ b.trees) (hready : work.Ready b)
    (hexec : exec (work.run t) b.store = (.ok t', s)) :
    b.Does t work t' ⟨s, t' :: b.trees, work.commits t t' ++ b.commits⟩ :=
  ⟨ht, hready, hexec, rfl, rfl⟩

/-- A map of four leaves is folded; what has been folded is committed beside it and rebased on the
commit, and then it is evacuated from the zone of the commit. -/
theorem reworks_keep_pictures_of_map :
    ∃ t s t₁ t₂ t' b', exec (do BTree.derive (← Tree.empty ⟨.btree, 1, ⟨0⟩, ⟨0⟩⟩) BTree.fourPuts)
        (.create { Settings.forTrials with pageSplitSize := 0 } false ⟨0⟩) = (.ok t, s) ∧
      Reworks ⟨s, [t], []⟩ t [.reduce (NamedFolding.sum.folding (.int 0)) 2, .rebase t₁ t₂,
        .evacuate 5 3] b' t' ∧
      t'.Resembles b'.store t s ∧ t'.fold = .int 100 ∧ t'.root.isCommitted = false ∧
      (exec (Query.entries.run t') b'.store).1 =
        .ok [(.int 1, .int 10), (.int 2, .int 20), (.int 3, .int 30), (.int 4, .int 40)] := by
  obtain ⟨t, s, c, hexec, hproceeds, hall, hcontains⟩ := BTree.exists_derived (s := .create
    { Settings.forTrials with pageSplitSize := 0 } false ⟨0⟩) Zones.sound_start rfl
    ⟨.btree, 1, ⟨0⟩, ⟨0⟩⟩ rfl BTree.fourPuts (by decide)
  have hfaults : (exec (do BTree.derive (← Tree.empty ⟨.btree, 1, ⟨0⟩, ⟨0⟩⟩) BTree.fourPuts)
      (.create { Settings.forTrials with pageSplitSize := 0 } false ⟨0⟩)).2.faults.pending = 0 := by
    decide +kernel
  rw [hexec] at hfaults
  have hsound : (c.gallery s).Sound True := hproceeds.represents.gallery_sound fun _ =>
    ⟨hproceeds.isClosed, hfaults, Or.inl hall⟩
  have hshown : Shown ⟨s, [t], []⟩ (c.gallery s) := by
    refine ⟨rfl, fun u hu => ?_, fun pair hpair => nomatch hpair⟩
    rw [List.mem_singleton.1 hu]
    exact hproceeds.represents.exists_shown hcontains.root.fit.refs
  -- each step can be done, and goes on from the bench of those before
  have hnext : ∀ {works b' u}, Reworks ⟨s, [t], []⟩ t works b' u → ∀ v ∈ b'.trees,
      ∀ work : Rework, work.Ready b' → ∃ v' s, exec (work.run v) b'.store = (.ok v', s) := by
    intro works b' u hrun
    obtain ⟨-, -, -, -, -, -, -, -, -, -, -, -, hready⟩ := reworks_keep_pictures hsound hshown hrun
    exact hready
  have hrun₀ : Reworks ⟨s, [t], []⟩ t [] ⟨s, [t], []⟩ t := .refl List.mem_cons_self
  obtain ⟨t₁, s₁, hexec₁⟩ :=
    hnext hrun₀ t List.mem_cons_self (.reduce (NamedFolding.sum.folding (.int 0)) 2) trivial
  have hrun₁ := hrun₀.step (.of_exec (.reduce _ 2) List.mem_cons_self trivial hexec₁)
  obtain ⟨t₂, s₂, hexec₂⟩ := hnext hrun₁ t₁ List.mem_cons_self (.commit 1 0 2) trivial
  have hrun₂ := hrun₁.aside (.of_exec (.commit 1 0 2) List.mem_cons_self trivial hexec₂)
  obtain ⟨t₃, s₃, hexec₃⟩ := hnext hrun₂ t₁ (List.mem_cons_of_mem _ List.mem_cons_self)
    (.rebase t₁ t₂) List.mem_cons_self
  have hrun₃ := hrun₂.step (.of_exec (.rebase t₁ t₂) (List.mem_cons_of_mem _ List.mem_cons_self)
    List.mem_cons_self hexec₃)
  obtain ⟨t₄, s₄, hexec₄⟩ := hnext hrun₃ t₃ List.mem_cons_self (.evacuate 5 3) trivial
  have hrun₄ := hrun₃.step (.of_exec (.evacuate 5 3) List.mem_cons_self trivial hexec₄)
  obtain ⟨-, -, -, -, -, -, -, -, -, -, -, hresembles, -⟩ :=
    reworks_keep_pictures hsound hshown hrun₄
  have hlast : (exec ((do BTree.derive (← Tree.empty ⟨.btree, 1, ⟨0⟩, ⟨0⟩⟩) BTree.fourPuts) >>=
      fun t => (Rework.reduce (NamedFolding.sum.folding (.int 0)) 2).run t >>= fun t₁ =>
        (Rework.commit 1 0 2).run t₁ >>= fun t₂ => (Rework.rebase t₁ t₂).run t₁ >>= fun t₃ =>
          (Rework.evacuate 5 3).run t₃ >>= fun t' => pure (t'.fold, t'.root.isCommitted))
      (.create { Settings.forTrials with pageSplitSize := 0 } false ⟨0⟩)).1 =
        .ok (.int 100, false) := by
    decide +kernel
  have hentries : (exec ((do BTree.derive (← Tree.empty ⟨.btree, 1, ⟨0⟩, ⟨0⟩⟩) BTree.fourPuts) >>=
      fun t => (Cursor.start t.root Policy.entries).items .forward)
      (.create { Settings.forTrials with pageSplitSize := 0 } false ⟨0⟩)).1 =
        .ok [(.int 1, .int 10), (.int 2, .int 20), (.int 3, .int 30), (.int 4, .int 40)] := by
    decide +kernel
  rw [exec_bind, hexec] at hlast hentries
  dsimp only at hlast hentries hexec₁ hexec₂ hexec₃ hexec₄
  rw [exec_bind, hexec₁] at hlast
  dsimp only at hlast
  rw [exec_bind, hexec₂] at hlast
  dsimp only at hlast
  rw [exec_bind, hexec₃] at hlast
  dsimp only at hlast
  rw [exec_bind, hexec₄] at hlast
  obtain ⟨hfold, hcommitted⟩ := Prod.mk.inj (Except.ok.inj hlast)
  exact ⟨t, s, t₁, t₂, t₄, _, hexec, hrun₄, hresembles, hfold, hcommitted,
    (hresembles.reads .entries).trans hentries⟩

end Bench
end PageTree
