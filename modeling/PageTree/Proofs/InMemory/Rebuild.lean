import PageTree.Proofs.Commit.Counterpart
import PageTree.Proofs.InMemory.Pages
import PageTree.Tree.Basic

/-!
# Rebuilding trees in memory

Evacuating, folding, committing and taking commits back succeed on every tree that is all in
memory, at any version and for any place in any zone, and give a tree alike that is all in
memory: page by page the same keys and entries, and every reference covers what it covered.
-/

namespace PageTree

open StoreM

/-! ## Trees alike -/

/-- A reference stands for a tree in memory like that of another. -/
structure Store.Likeness (s : Store) (kind : TreeKind) (stem : Nat) (r r' : PageRef) : Prop where
  upright : s.Upright kind stem r'
  alike : s.pinned.Alike (.live r) (.live r')
  extent : r'.header.extent = r.header.extent

namespace Store.Likeness

variable {s s' : Store} {kind : TreeKind} {stem version : Nat} {r r' : PageRef} {p p' : LivePage}

theorem keep (hkeeps : s.Keeps s') (hlike : s.Likeness kind stem r r') :
    s'.Likeness kind stem r r' :=
  ⟨hlike.upright.keep hkeeps, hlike.alike.mono hkeeps.pinned_le, hlike.extent⟩

theorem refl (hup : s.Upright kind stem r) : s.Likeness kind stem r r :=
  ⟨hup, .refl _, rfl⟩

/-- A reference to a page with rebuilt children stands for a tree alike. -/
theorem of_rebuilt (hup : s.Upright kind stem r) (hp : s.Pins r p)
    (hrebuilt : p.Rebuilt (s.Likeness kind stem) version p') (hp' : s.Pins r' p')
    (hmeasures : r'.header.Measures p'.stored) (htree : r'.tree = kind) (hstem : r'.stem = stem) :
    s.Likeness kind stem r r' := by
  have hextent : p'.stored.extent = p.stored.extent :=
    hrebuilt.extent_eq fun _ _ hlike => hlike.extent
  refine ⟨.intro hp' hmeasures ⟨htree, ?_⟩ ⟨hstem, ?_⟩ ?_, ?_, ?_⟩
  · rw [hrebuilt.treeKind, (hup.treeKind hp).2]
  · rw [hrebuilt.stem, (hup.stems hp).2]
  · intro m' hm'
    obtain ⟨m, -, hlike⟩ := exists_of_forall₂_right hrebuilt.children hm'
    exact hlike.upright
  · apply Chart.Alike.of_forall₂ hp.page hp'.page
    · simpa using hrebuilt.shape
    · rw [Page.map_children, Page.map_children, List.forall₂_map_left_iff,
        List.forall₂_map_right_iff]
      exact hrebuilt.children.imp fun m m' hlike => hlike.alike
  · rw [hmeasures.extent, hextent, (hup.measures hp).extent]

end Store.Likeness

namespace PageRef

variable {s : Store} {kind : TreeKind} {stem version : Nat} {r : PageRef} {p : LivePage}

/-- The children of a page in memory, each rebuilt. -/
theorem rebuild_succeeds {m : Type → Type} [Monad m] [LawfulMonad m] [Succeeding m]
    (hup : s.Upright kind stem r) (hp : s.Pins r p) (version : Nat) {f : PageRef → m PageRef}
    (hf : ∀ k s', s.Keeps s' → s'.Upright kind stem k → k.treeSize < r.treeSize →
      Succeeds (f k) s' fun k' s'' => s''.Likeness kind stem k k') :
    Succeeds (p.mapChildren version f) s fun p' s' =>
      p.Rebuilt (s'.Likeness kind stem) version p' := by
  apply Succeeding.mapChildren (R := fun k k' s' => s'.Likeness kind stem k k')
  · exact fun _ _ _ _ hkeeps hlike => hlike.keep hkeeps
  · intro k hk s' hkeeps
    exact hf k s' hkeeps ((hup.child hp hk).keep hkeeps) (hup.treeSize_lt hp hk)

/-- A new page over rebuilt children. -/
theorem ofRebuilt_succeeds {p' : LivePage} (hup : s.Upright kind stem r) (hp : s.Pins r p)
    (hrebuilt : p.Rebuilt (s.Likeness kind stem) version p') (fold : Value) :
    Succeeds (ofPage p' fold) s fun r' s' => s'.Likeness kind stem r r' := by
  have hkind : p'.treeKind = kind := by rw [hrebuilt.treeKind, (hup.treeKind hp).2]
  have hstem : p'.stem = stem := by rw [hrebuilt.stem, (hup.stems hp).2]
  have hchildren : ∀ m' ∈ p'.children, s.Upright p'.treeKind p'.stem m' := by
    intro m' hm'
    obtain ⟨m, -, hlike⟩ := exists_of_forall₂_right hrebuilt.children hm'
    rw [hkind, hstem]
    exact hlike.upright
  apply Succeeding.mono (ofPage_succeeds p' fold hchildren)
  rintro r' s' hkeeps ⟨hup', hp', hheader⟩
  rw [hkind, hstem] at hup'
  refine .of_rebuilt (hup.keep hkeeps) (hp.keep hkeeps)
    (hrebuilt.imp fun _ _ hlike => hlike.keep hkeeps) hp' ?_ (hup'.treeKind hp').1
    (hup'.stems hp').1
  rw [hheader]
  exact Header.measures_ofPage _ _

/-! ## Evacuation -/

theorem evacuatedWithin_succeeds (post version depth : Nat) (hdepth : r.treeSize < depth)
    (hup : s.Upright kind stem r) :
    Succeeds (evacuatedWithin post version depth r) s fun r' s' =>
      s'.Likeness kind stem r r' := by
  induction depth generalizing s r with
  | zero => exact absurd hdepth (Nat.not_lt_zero _)
  | succ depth ih =>
      obtain ⟨p, hp⟩ := hup.pins
      unfold evacuatedWithin
      split
      · -- no older zone is needed, so the subtree stays as it is
        exact Succeeding.pure (.refl hup)
      · apply Succeeding.naming
        apply Succeeding.bind (page_succeeds hp)
        rintro found s' hkeeps ⟨rfl, hp'⟩
        apply Succeeding.bind (rebuild_succeeds (hup.keep hkeeps) hp' version ?_)
        · intro p' s'' hkeeps' hrebuilt
          exact ofRebuilt_succeeds ((hup.keep hkeeps).keep hkeeps') (hp'.keep hkeeps') hrebuilt _
        · intro k s'' hkeeps' hk hlt
          exact ih (by omega) hk

/-- Moving pages out of old zones gives a tree alike. -/
theorem evacuated_succeeds (post version : Nat) (hup : s.Upright kind stem r) :
    Succeeds (r.evacuated post version) s fun r' s' => s'.Likeness kind stem r r' := by
  apply Succeeding.get
  apply evacuatedWithin_succeeds post version _ _ hup
  exact Store.treeSize_lt_depthBound _ _

/-! ## Taking back commits -/

theorem uncommittedWithin_succeeds (version depth : Nat) (hdepth : r.treeSize < depth)
    (hup : s.Upright kind stem r) :
    Succeeds (uncommittedWithin version depth r) s fun r' s' => s'.Likeness kind stem r r' := by
  induction depth generalizing s r with
  | zero => exact absurd hdepth (Nat.not_lt_zero _)
  | succ depth ih =>
      obtain ⟨p, hp⟩ := hup.pins
      unfold uncommittedWithin
      apply Succeeding.bind (hardPage_succeeds hp)
      rintro found s' hkeeps ⟨rfl, rfl⟩
      dsimp only
      split
      · exact Succeeding.pure (.refl hup)
      · apply Succeeding.bind (rebuild_succeeds hup hp p.version ?_)
        · intro p' s' hkeeps hrebuilt
          split
          · exact ofRebuilt_succeeds (hup.keep hkeeps) (hp.keep hkeeps) hrebuilt _
          · -- neither the page nor anything beneath it has been taken back
            exact Succeeding.pure (.refl (hup.keep hkeeps))
        · intro k s' hkeeps hk hlt
          exact ih (by omega) hk

/-- Taking pages back from being committed gives a tree alike. -/
theorem uncommitted_succeeds (version : Nat) (hup : s.Upright kind stem r) :
    Succeeds (r.uncommitted version) s fun r' s' => s'.Likeness kind stem r r' := by
  apply Succeeding.get
  apply uncommittedWithin_succeeds version _ _ hup
  exact Store.treeSize_lt_depthBound _ _

/-! ## Folds -/

/-- The same page under another fold. -/
theorem withFold_succeeds (hup : s.Upright kind stem r) (fold : Value) :
    Succeeds (r.withFold fold) s fun r' s' => s'.Likeness kind stem r r' := by
  obtain ⟨p, hp⟩ := hup.pins
  have hkeeps : s.Keeps (s.pushCell (s.cell r.id)) := .pushCell s _
  have hp' : (s.pushCell (s.cell r.id)).Pins
      ⟨s.cells.size, r.tree, r.stem, { r.header with fold }, r.diffSize⟩ p := by
    obtain ⟨serial, hhold⟩ := hp
    exact ⟨serial, (congrArg Cell.hold (Store.cell_pushCell_self _ _)).trans hhold⟩
  have hmeasures := hup.measures hp
  have hself : p.Rebuilt ((s.pushCell (s.cell r.id)).Likeness kind stem) p.version p :=
    ⟨rfl, rfl, rfl, List.forall₂_same.2 fun m hm => .refl ((hup.child hp hm).keep hkeeps)⟩
  refine ⟨_, _, exec_withFold r fold s, hkeeps, ?_⟩
  exact .of_rebuilt (hup.keep hkeeps) (hp.keep hkeeps) hself hp'
    ⟨hmeasures.extent, hmeasures.size, hmeasures.area⟩ (hup.treeKind hp).1 (hup.stems hp).1

theorem reducedWithin_succeeds (f : Folding) (version depth : Nat) (hdepth : r.treeSize < depth)
    (hup : s.Upright kind stem r) :
    Succeeds (reducedWithin f version depth r) s fun r' s' => s'.Likeness kind stem r r' := by
  induction depth generalizing s r with
  | zero => exact absurd hdepth (Nat.not_lt_zero _)
  | succ depth ih =>
      obtain ⟨p, hp⟩ := hup.pins
      unfold reducedWithin
      split
      · exact Succeeding.pure (.refl hup)
      · apply Succeeding.bind (page_succeeds hp)
        rintro found s' hkeeps ⟨rfl, hp'⟩
        have hup' := hup.keep hkeeps
        split
        · apply Succeeding.bind (rebuild_succeeds hup' hp' version ?_)
          · intro p' s'' hkeeps' hrebuilt
            exact ofRebuilt_succeeds (hup'.keep hkeeps') (hp'.keep hkeeps') hrebuilt _
          · intro k s'' hkeeps' hk hlt
            exact ih (by omega) hk
        · -- a leaf keeps its page, under another reference
          exact withFold_succeeds hup' _

/-- Folding the values gives a tree alike. -/
theorem reduced_succeeds (f : Folding) (version : Nat) (hup : s.Upright kind stem r) :
    Succeeds (r.reduced f version) s fun r' s' => s'.Likeness kind stem r r' := by
  apply Succeeding.get
  apply reducedWithin_succeeds f version _ _ hup
  exact Store.treeSize_lt_depthBound _ _

/-! ## Commits -/

section Commits

variable {ω : Type} [Sink ω]

/-- A page whose children have been written is written itself. -/
theorem layOut_succeeds {copy : PageCopy} (hup : s.Upright kind stem r) (hp : s.Pins r p)
    (hrebuilt : p.Rebuilt (s.Likeness kind stem) version copy.page) :
    Succeeds (r.layOut copy : StateT (DiffWriter ω) StoreM PageRef) s
      fun r' s' => s'.Likeness kind stem r r' := by
  have hextent : copy.page.stored.extent = p.stored.extent :=
    hrebuilt.extent_eq fun _ _ hlike => hlike.extent
  unfold layOut
  apply Succeeding.modifyDiff
  apply Succeeding.getDiff
  intro diff
  apply Succeeding.lift
  apply Succeeding.mono (holding_succeeds _ _ _ copy)
  rintro r' s' hkeeps ⟨hp', hheader, htree, hstem⟩
  refine .of_rebuilt (hup.keep hkeeps) (hp.keep hkeeps)
    (hrebuilt.imp fun _ _ hlike => hlike.keep hkeeps) hp' ?_ (htree.trans (hup.treeKind hp).1)
    (hstem.trans (hup.stems hp).1)
  rw [hheader]
  exact Header.measures_located ((hup.measures hp).extent.trans hextent.symm) _ _

theorem commitWithin_succeeds (depth : Nat) (hdepth : r.treeSize < depth)
    (hup : s.Upright kind stem r) :
    Succeeds (commitWithin depth r : StateT (DiffWriter ω) StoreM PageRef) s
      fun r' s' => s'.Likeness kind stem r r' := by
  induction depth generalizing s r with
  | zero => exact absurd hdepth (Nat.not_lt_zero _)
  | succ depth ih =>
      obtain ⟨p, serial, hhold⟩ := hup.pins
      have hp : s.Pins r p := ⟨serial, hhold⟩
      unfold commitWithin
      split
      · exact Succeeding.pure (.refl hup)
      · -- memory holds the page, so the commit can write it
        have hlook : Succeeds r.hold s fun hold s' => hold = .strong ⟨serial, p⟩ ∧ s' = s :=
          ⟨_, s, exec_hold r s, .refl s, hhold, rfl⟩
        apply Succeeding.bind (Succeeding.lift hlook)
        rintro hold s' - ⟨rfl, rfl⟩
        apply Succeeding.getDiff
        intro diff
        split
        · -- pages newer than the diff are left for the next commit
          exact Succeeding.pure (.refl hup)
        · split
          · apply Succeeding.bind (rebuild_succeeds hup hp p.version
              fun k s' _ hk hlt => ih (by omega) hk)
            intro p' s' hkeeps hrebuilt
            apply Succeeding.bind (Succeeding.lift (copyOf_succeeds p'))
            rintro copy s'' hkeeps' rfl
            exact layOut_succeeds ((hup.keep hkeeps).keep hkeeps') ((hp.keep hkeeps).keep hkeeps')
              (hrebuilt.imp fun _ _ hlike => hlike.keep hkeeps')
          · rw [pure_bind]
            exact layOut_succeeds hup hp
              ⟨rfl, rfl, rfl, List.forall₂_same.2 fun m hm => .refl (hup.child hp hm)⟩

/-- Giving the pages of a tree their places gives a tree alike. -/
theorem commitInto_succeeds (diff : DiffWriter ω) (hup : s.Upright kind stem r) :
    Succeeds (r.commitInto diff) s fun result s' => s'.Likeness kind stem r result.1 := by
  apply Succeeding.get
  have hdepth := s.treeSize_lt_depthBound r
  obtain ⟨r', diff', s', hexec, hkeeps, hlike⟩ := commitWithin_succeeds _ hdepth hup diff
  exact ⟨(r', diff'), s', hexec, hkeeps, hlike⟩

end Commits
end PageRef

/-! ## Upkeep of trees -/

/-- Work on a tree that changes none of its entries. -/
inductive Tree.Upkeep where
  /-- Folds the values. -/
  | reduce (f : PageRef.Folding) (version : Nat)
  /-- Moves pages out of zones older than `post`. -/
  | evacuate (post version : Nat)
  /-- Gives pages their places, as if their diff were written to a zone from an offset on. -/
  | build (zone base version : Nat)
  /-- Takes pages back from being committed. -/
  | uncommit (version : Nat)

/-- Does the work. -/
def Tree.Upkeep.apply (t : Tree) : Upkeep → StoreM Tree
  | reduce f version => t.reduced f version
  | evacuate post version => t.evacuated post version
  | build zone base version => t.committed zone base version
  | uncommit version => t.uncommitted version

/-- A tree is of the kind and stem of another and has a root alike. -/
structure Store.Maintains (s : Store) (t t' : Tree) : Prop where
  kind : t'.seed.kind = t.seed.kind
  stem : t'.seed.stem = t.seed.stem
  root : s.Likeness t.seed.kind t.seed.stem t.root t'.root

namespace Tree

variable {s s' : Store} {t : Tree} {r : PageRef}

theorem maintains_withRoot (hup : s.Upright t.seed.kind t.seed.stem t.root)
    (hlike : s.Likeness t.seed.kind t.seed.stem t.root r) : s.Maintains t (t.withRoot r) := by
  unfold withRoot
  split
  · exact ⟨rfl, rfl, .refl hup⟩
  · exact ⟨rfl, rfl, hlike⟩

/-- A tree known to be empty is not cleared again; any other gets an empty page for its root. -/
theorem cleared_succeeds {P : PageRef → Store → Prop} (version : Nat)
    (hempty : Succeeds (PageRef.ofPage (.empty t.kind t.seed.stem version) .absent) s P) :
    Succeeds (t.cleared version) s fun t' s' =>
      t' = t ∧ t.root.span = 0 ∨ ∃ r, t' = t.withRoot r ∧ P r s' := by
  have hlook : Succeeds t.root.softPage? s fun _ s' => s' = s := ⟨_, s, rfl, .refl s, rfl⟩
  unfold cleared
  apply Succeeding.bind hlook
  rintro found s' - rfl
  split
  · next hspan =>
      rw [Bool.and_eq_true] at hspan
      exact Succeeding.pure (Or.inl ⟨rfl, of_decide_eq_true hspan.1⟩)
  · apply Succeeding.bind hempty
    intro r s'' _ hr
    exact Succeeding.pure (Or.inr ⟨r, rfl, hr⟩)

/-- A commit may also give the seed another date. -/
theorem committed_succeeds (hup : s.Upright t.seed.kind t.seed.stem t.root)
    (zone base version : Nat) :
    Succeeds (t.committed zone base version) s fun t' s' => s'.Maintains t t' := by
  have hroot : Succeeds (t.root.committed zone base version) s fun r s' =>
      s'.Likeness t.seed.kind t.seed.stem t.root r := by
    apply Succeeding.bind (PageRef.commitInto_succeeds _ hup)
    intro written s' _ hlike
    exact Succeeding.pure hlike
  unfold committed
  apply Succeeding.bind hroot
  intro root s' hkeeps hlike
  unfold withCommittedRoot
  split
  · exact Succeeding.pure ⟨rfl, rfl, .refl (hup.keep hkeeps)⟩
  · apply Succeeding.get
    exact Succeeding.pure ⟨rfl, rfl, hlike⟩

/-- Upkeep of a tree that is all in memory succeeds and gives a tree alike. -/
theorem Upkeep.apply_succeeds (upkeep : Upkeep)
    (hup : s.Upright t.seed.kind t.seed.stem t.root) :
    Succeeds (upkeep.apply t) s fun t' s' => s'.Maintains t t' := by
  cases upkeep with
  | build zone base version => exact committed_succeeds hup zone base version
  | reduce f version =>
      apply Succeeding.bind (PageRef.reduced_succeeds f version hup)
      intro r s' hkeeps hlike
      exact Succeeding.pure (maintains_withRoot (hup.keep hkeeps) hlike)
  | evacuate post version =>
      apply Succeeding.bind (PageRef.evacuated_succeeds post version hup)
      intro r s' hkeeps hlike
      exact Succeeding.pure (maintains_withRoot (hup.keep hkeeps) hlike)
  | uncommit version =>
      apply Succeeding.bind (PageRef.uncommitted_succeeds version hup)
      intro r s' hkeeps hlike
      exact Succeeding.pure (maintains_withRoot (hup.keep hkeeps) hlike)

end Tree
end PageTree
