import PageTree.Proofs.Commit.Rebase
import PageTree.Proofs.Pictures.Loading

/-!
# Rebuilding keeps pictures

Evacuating, committing, taking commits back and rebasing rebuild pages, each over children that it
has rebuilt itself, and stop at different ones.  A page over children with the pictures that there
were has the picture that there was (`Gallery.Sees.ofPage_yields`), so whatever they stop at, what
they make of a reference has its picture.  Folding values rebuilds pages too, and what it makes of a
reference has a picture in which more folds may be known (`PageRef.reduced_yields`).
-/

namespace PageTree

open StoreM

/-- What goes along with a list by way of a list between goes along with a list between. -/
theorem exists_forall₂_between {α β γ : Type} {R : α → β → Prop} {S : β → γ → Prop} {as : List α}
    {cs : List γ} (hall : List.Forall₂ (fun a c => ∃ b, R a b ∧ S b c) as cs) :
    ∃ bs, List.Forall₂ R as bs ∧ List.Forall₂ S bs cs := by
  induction hall with
  | nil => exact ⟨[], List.Forall₂.nil, List.Forall₂.nil⟩
  | cons hac _ ih =>
      obtain ⟨b, hab, hbc⟩ := hac
      obtain ⟨bs, hR, hS⟩ := ih
      exact ⟨b :: bs, List.Forall₂.cons hab hR, List.Forall₂.cons hbc hS⟩

variable {sure : Prop} {g : Gallery} {r : PageRef} {t : Picture} {p p' : LivePage}

/-! ## Children -/

/-- The page is as the picture would show it if its children had other pictures, which still cover
the same. -/
structure Gallery.Redraws (g : Gallery) (t : Picture) (ts : List Picture) (p : LivePage) :
    Prop where
  stem : p.stem = t.stem
  shape : p.body.shape = t.shape
  children : List.Forall₂ g.shows p.children ts
  extent : p.stored.extent = t.extent

theorem Gallery.Redraws.draws {ts : List Picture} (hredraws : g.Redraws t ts p) (fold : Value) :
    p.Draws g.shows (.of t.stem t.shape t.extent fold ts) :=
  ⟨hredraws.stem, hredraws.shape, hredraws.children⟩

theorem Gallery.Redraws.mono {g' : Gallery} {ts : List Picture} (hle : g ≤ g')
    (hredraws : g.Redraws t ts p) : g'.Redraws t ts p :=
  ⟨hredraws.stem, hredraws.shape, hredraws.children.imp hle.shows, hredraws.extent⟩

namespace Gallery.Sees

/-- The children of a page are rebuilt.  What the pictures of the rebuilt children are to those of
the children is up to how they are rebuilt, as long as the same pages are shown. -/
theorem mapChildren_yields {m : Type → Type} [Monad m] [LawfulMonad m] [Yielding m]
    {Q : Picture → Picture → Prop} (hQ : ∀ t t', Q t t' → t.Refines t') (hsound : g.Sound sure)
    (hr : g.shows r t) (hsees : g.Sees r t p) (version : Nat) {f : PageRef → m PageRef}
    (hf : ∀ k t g', g ≤ g' → g'.Sound sure → g'.shows k t → k.treeSize < r.treeSize →
      Yields sure (f k) g' fun k' g'' => ∃ t', Q t t' ∧ g''.shows k' t') :
    Yields sure (p.mapChildren version f) g fun p' g' =>
      ∃ ts, List.Forall₂ Q t.beneath ts ∧ g'.Redraws t ts p' := by
  refine Yielding.mono (Yielding.mapChildren (R := fun k t g => g.shows k t)
    (S := fun k k' => k'.header.extent = k.header.extent)
    (T := fun k' t g => ∃ t', g.shows k' t' ∧ Q t t')
    version hsound hsees.draws.children ?_ ?_ ?_) ?_
  · exact fun k t g g' hle hk => hle.shows k t hk
  · rintro k' t g g' hle ⟨t', hk', hrest⟩
    exact ⟨t', hle.shows k' t' hk', hrest⟩
  · intro k hk t' g' hle hsound' hshows
    refine Yielding.mono (hf k t' g' hle hsound' hshows (hsees.treeSize_lt hk)) ?_
    rintro k' g'' hle' hsound'' ⟨t'', hQ', hk'⟩
    refine ⟨?_, t'', hk', hQ'⟩
    rw [(hsound''.tells hk').extent, (hQ _ _ hQ').extent, (hsound'.tells hshows).extent]
  · rintro p' g' hle hsound' ⟨hrebuilt, hshows⟩
    obtain ⟨ts, hchildren, hts⟩ := exists_forall₂_between hshows
    refine ⟨ts, hts.flip, hrebuilt.stem.trans hsees.draws.stem,
      hrebuilt.shape.trans hsees.draws.shape, hchildren, ?_⟩
    rw [hrebuilt.extent_eq fun _ _ hsame => hsame, ← hsees.measures.extent,
      (hsound.tells hr).extent]

/-- The children of a page are rebuilt, with the pictures that there were. -/
theorem remake_yields {m : Type → Type} [Monad m] [LawfulMonad m] [Yielding m]
    (hsound : g.Sound sure) (hr : g.shows r t) (hsees : g.Sees r t p) (version : Nat)
    {f : PageRef → m PageRef}
    (hf : ∀ k t g', g ≤ g' → g'.Sound sure → g'.shows k t → k.treeSize < r.treeSize →
      Yields sure (f k) g' fun k' g'' => g''.shows k' t) :
    Yields sure (p.mapChildren version f) g fun p' g' => g'.Redraws t t.beneath p' := by
  refine Yielding.mono (hsees.mapChildren_yields (Q := Eq) ?_ hsound hr version ?_) ?_
  · rintro t _ rfl
    exact .refl t
  · intro k t g' hle hsound' hk hlt
    exact Yielding.mono (hf k t g' hle hsound' hk hlt) fun k' g'' _ _ hk' => ⟨t, rfl, hk'⟩
  · rintro p' g' - - ⟨ts, hts, hredraws⟩
    rw [List.forall₂_eq_eq_eq] at hts
    rwa [hts]

end Gallery.Sees

namespace PageRef

/-- A new page over rebuilt children has the picture that there was. -/
theorem remade_yields (hsound : g.Sound sure) (hr : g.shows r t)
    (hredraws : g.Redraws t t.beneath p) :
    Yields sure (ofPage p r.fold) g fun r' g' => g'.shows r' t := by
  rw [(hsound.tells hr).fold]
  cases t
  exact ofPage_yields hsound (hredraws.draws _) hredraws.extent

/-! ## Evacuation -/

theorem evacuatedWithin_yields (hsound : g.Sound sure) (hr : g.shows r t) (post version depth : Nat)
    (hdepth : r.treeSize < depth) :
    Yields sure (evacuatedWithin post version depth r) g fun r' g' => g'.shows r' t := by
  induction depth generalizing g r t with
  | zero => exact absurd hdepth (Nat.not_lt_zero _)
  | succ depth ih =>
      unfold evacuatedWithin
      split
      · exact Yielding.pure hsound hr
      · refine Yielding.naming r (Yielding.bind (page_yields hsound hr) ?_)
        intro p g' hle hsound' hsees
        have hr' := hle.shows r t hr
        refine Yielding.bind (hsees.remake_yields hsound' hr' version ?_) ?_
        · intro k t' g'' _ hsound'' hk hlt
          exact ih hsound'' hk (by omega)
        · intro p' g'' hle' hsound'' hredraws
          exact remade_yields hsound'' (hle'.shows r t hr') hredraws

/-- Moving pages out of old zones keeps the picture. -/
theorem evacuated_yields (hsound : g.Sound sure) (hr : g.shows r t) (post version : Nat) :
    Yields sure (r.evacuated post version) g fun r' g' => g'.shows r' t :=
  Yielding.get (evacuatedWithin_yields hsound hr post version _ (Store.treeSize_lt_depthBound _ _))

/-! ## Taking back commits -/

theorem uncommittedWithin_yields (hsound : g.Sound sure) (hr : g.shows r t) (version depth : Nat)
    (hdepth : r.treeSize < depth) :
    Yields sure (uncommittedWithin version depth r) g fun r' g' => g'.shows r' t := by
  induction depth generalizing g r t with
  | zero => exact absurd hdepth (Nat.not_lt_zero _)
  | succ depth ih =>
      unfold uncommittedWithin
      refine Yielding.hardPage ?_
      cases hhold : g.store.hold r with
      | strong copy =>
          have hsees : g.Sees r t copy.page := hsound.held hr (by rw [hhold]; rfl)
          dsimp only [Hold.strong?, Option.map_some]
          split
          · exact Yielding.pure hsound hr
          · refine Yielding.bind (hsees.remake_yields hsound hr copy.page.version ?_) ?_
            · intro k t' g' _ hsound' hk hlt
              exact ih hsound' hk (by omega)
            · intro p' g' hle hsound' hredraws
              split
              · exact remade_yields hsound' (hle.shows r t hr) hredraws
              · -- neither the page nor any beneath it has been taken back
                exact Yielding.pure hsound' (hle.shows r t hr)
      | _ => exact Yielding.pure hsound hr

/-- Taking pages back from being committed keeps the picture. -/
theorem uncommitted_yields (hsound : g.Sound sure) (hr : g.shows r t) (version : Nat) :
    Yields sure (r.uncommitted version) g fun r' g' => g'.shows r' t :=
  Yielding.get (uncommittedWithin_yields hsound hr version _ (Store.treeSize_lt_depthBound _ _))

/-! ## Folds -/

theorem reducedWithin_yields (hsound : g.Sound sure) (hr : g.shows r t) (f : Folding)
    (version depth : Nat) (hdepth : r.treeSize < depth) :
    Yields sure (reducedWithin f version depth r) g fun r' g' =>
      ∃ t', t.Refines t' ∧ g'.shows r' t' := by
  induction depth generalizing g r t with
  | zero => exact absurd hdepth (Nat.not_lt_zero _)
  | succ depth ih =>
      unfold reducedWithin
      split
      · exact Yielding.pure hsound ⟨t, .refl t, hr⟩
      · next hunknown =>
          rw [(hsound.tells hr).fold] at hunknown
          refine Yielding.bind (page_yields hsound hr) ?_
          intro p g' hle hsound' hsees
          have hr' := hle.shows r t hr
          split
          · refine Yielding.bind (hsees.mapChildren_yields (Q := Picture.Refines)
              (fun _ _ h => h) hsound' hr' version ?_) ?_
            · intro k t' g'' _ hsound'' hk hlt
              exact ih hsound'' hk (by omega)
            · rintro p' g'' hle' hsound'' ⟨ts, hts, hredraws⟩
              refine Yielding.mono (ofPage_yields hsound'' (hredraws.draws _) hredraws.extent) ?_
              intro r' g''' _ _ hshows
              refine ⟨_, ?_, hshows⟩
              cases t
              exact .of (fun hdefined => absurd hdefined hunknown) hts
          · -- the page of a leaf stays, under another reference
            refine Yielding.mono (withFold_yields hsound' hr' _) ?_
            intro r' g'' _ _ hshows
            refine ⟨_, ?_, hshows⟩
            cases t
            exact .of (fun hdefined => absurd hdefined hunknown)
              (List.forall₂_same.2 fun _ _ => .refl _)

/-- Folding values keeps the picture, and the folds that are known in it. -/
theorem reduced_yields (hsound : g.Sound sure) (hr : g.shows r t) (f : Folding) (version : Nat) :
    Yields sure (r.reduced f version) g fun r' g' => ∃ t', t.Refines t' ∧ g'.shows r' t' :=
  Yielding.get (reducedWithin_yields hsound hr f version _ (Store.treeSize_lt_depthBound _ _))

/-! ## Commits -/

section Commits

variable {ω : Type} [Sink ω]

/-- A page whose children have been written is written itself. -/
theorem layOut_yields {copy : PageCopy} (hsound : g.Sound sure) (hr : g.shows r t)
    (hredraws : g.Redraws t t.beneath copy.page) :
    Yields sure (r.layOut copy : StateT (DiffWriter ω) StoreM PageRef) g fun r' g' =>
      g'.shows r' t := by
  have htells := hsound.tells hr
  unfold layOut
  refine Yielding.modifyState _ (Yielding.getState fun diff => Yielding.lift ?_)
  refine holding_yields hsound htells.tree htells.stem htells.extent htells.fold ?_ ?_
  · cases t
    exact hredraws.draws _
  · exact Header.measures_located (htells.extent.trans hredraws.extent.symm) _ _

theorem commitWithin_yields (hsound : g.Sound sure) (hr : g.shows r t) (depth : Nat)
    (hdepth : r.treeSize < depth) :
    Yields sure (commitWithin depth r : StateT (DiffWriter ω) StoreM PageRef) g fun r' g' =>
      g'.shows r' t := by
  induction depth generalizing g r t with
  | zero => exact absurd hdepth (Nat.not_lt_zero _)
  | succ depth ih =>
      unfold commitWithin
      split
      · exact Yielding.pure hsound hr
      · next huncommitted =>
          obtain ⟨copy, hhold⟩ := hsound.strong hr (by simpa using huncommitted)
          have hsees : g.Sees r t copy.page := hsound.held hr (by rw [hhold]; rfl)
          have hlook : Yields sure r.hold g fun hold g' => hold = .strong copy ∧ g' = g :=
            Or.inl ⟨_, g, exec_hold r g.store, Gallery.le_refl g, hsound, hhold, rfl⟩
          refine Yielding.bind (Yielding.lift hlook) ?_
          rintro hold g' - - ⟨rfl, rfl⟩
          refine Yielding.getState fun diff => ?_
          split
          · -- pages newer than the diff are left for the next commit
            exact Yielding.pure hsound hr
          · split
            · refine Yielding.bind (hsees.remake_yields hsound hr copy.page.version
                fun k t' g'' _ hsound'' hk hlt => ih hsound'' hk (by omega)) ?_
              intro p' g'' hle hsound'' hredraws
              refine Yielding.bind (Yielding.lift (copyOf_yields hsound'' p')) ?_
              rintro copy' g''' hle' hsound''' ⟨rfl, -⟩
              exact layOut_yields hsound''' (hle'.shows r t (hle.shows r t hr)) (hredraws.mono hle')
            · rw [pure_bind]
              obtain ⟨hstem, hshape, hchildren⟩ := hsees.draws
              refine layOut_yields hsound hr ⟨hstem, hshape, hchildren, ?_⟩
              rw [← hsees.measures.extent, (hsound.tells hr).extent]

/-- Giving pages their places keeps the picture. -/
theorem commitInto_yields (hsound : g.Sound sure) (hr : g.shows r t) (diff : DiffWriter ω) :
    Yields sure (r.commitInto diff) g fun result g' => g'.shows result.1 t :=
  Yielding.get (commitWithin_yields hsound hr _ (Store.treeSize_lt_depthBound _ _) diff)

end Commits

theorem committed_yields (hsound : g.Sound sure) (hr : g.shows r t) (zone base version : Nat) :
    Yields sure (r.committed zone base version) g fun r' g' => g'.shows r' t :=
  Yielding.bind (commitInto_yields hsound hr _) fun _ _ _ hsound' hshows =>
    Yielding.pure hsound' hshows

/-! ## Rebasing -/

end PageRef

/-- The pairs are of references in use that have the same picture. -/
def Gallery.Pairs (g : Gallery) (pairs : PageRef.CommitPairs) : Prop :=
  ∀ pair ∈ pairs, ∃ m t, m.id = pair.1 ∧ g.shows m t ∧ g.shows pair.2 t

theorem Gallery.Pairs.mono {g' : Gallery} {pairs : PageRef.CommitPairs} (hle : g ≤ g')
    (hpairs : g.Pairs pairs) : g'.Pairs pairs := by
  intro pair hmem
  obtain ⟨m, t, hid, hm, hk⟩ := hpairs pair hmem
  exact ⟨m, t, hid, hle.shows m t hm, hle.shows _ t hk⟩

namespace PageRef

theorem forM_pairs (depth : Nat) (l : List (PageRef × PageRef))
    (hf : ∀ a ∈ l, ∀ pairs, g.Pairs pairs → ∃ pairs',
      exec ((pairWithin depth a.1 a.2).run pairs) g.store = (.ok ((), pairs'), g.store) ∧
        g.Pairs pairs') {pairs : CommitPairs} (hpairs : g.Pairs pairs) :
    ∃ pairs', exec ((l.forM fun (a, b) => pairWithin depth a b).run pairs) g.store =
      (.ok ((), pairs'), g.store) ∧ g.Pairs pairs' := by
  induction l generalizing pairs with
  | nil => exact ⟨pairs, rfl, hpairs⟩
  | cons a l ih =>
      obtain ⟨pairs', hexec, hpairs'⟩ := hf a List.mem_cons_self pairs hpairs
      obtain ⟨pairs'', hexec', hpairs''⟩ :=
        ih (fun b hb => hf b (List.mem_cons_of_mem a hb)) hpairs'
      refine ⟨pairs'', ?_, hpairs''⟩
      rw [List.forM, StateT.run_bind, exec_bind, hexec]
      exact hexec'

/-- Pairing the trees of two references with the same picture changes nothing in the store. -/
theorem pairWithin_pairs {k : PageRef} (hsound : g.Sound sure) (hr : g.shows r t)
    (hk : g.shows k t) (depth : Nat) (hdepth : r.treeSize < depth) {pairs : CommitPairs}
    (hpairs : g.Pairs pairs) :
    ∃ pairs', exec ((pairWithin depth r k).run pairs) g.store = (.ok ((), pairs'), g.store) ∧
      g.Pairs pairs' := by
  induction depth generalizing r k t pairs with
  | zero => exact absurd hdepth (Nat.not_lt_zero _)
  | succ depth ih =>
      cases hsame : r.same k with
      | true =>
          refine ⟨pairs, ?_, hpairs⟩
          rw [pairWithin, hsame]
          rfl
      | false =>
          have hpair : ∀ pairs', g.Pairs pairs' → g.Pairs ((r.id, k) :: pairs') := by
            intro pairs' hpairs' pair hmem
            rcases List.mem_cons.1 hmem with rfl | hmem
            · exact ⟨r, t, rfl, hr, hk⟩
            · exact hpairs' pair hmem
          by_cases hboth : ∃ copy copy', g.store.hold r = .strong copy ∧
              g.store.hold k = .strong copy'
          · obtain ⟨copy, copy', hhold, hhold'⟩ := hboth
            have hsees : g.Sees r t copy.page := hsound.held hr (by rw [hhold]; rfl)
            have hsees' : g.Sees k t copy'.page := hsound.held hk (by rw [hhold']; rfl)
            -- children at the same place have the same picture
            have hchildren : List.Forall₂ (fun a b => ∃ t, g.shows a t ∧ g.shows b t)
                copy.page.children copy'.page.children :=
              forall₂_comp hsees.draws.children hsees'.draws.children.flip
                fun _ _ t' _ ha hb => ⟨t', ha, hb⟩
            obtain ⟨pairs', hexec, hpairs'⟩ := forM_pairs depth
              (copy.page.children.zip copy'.page.children) (by
                rintro ⟨a, b⟩ hzip pairs hpairs
                obtain ⟨t', ha, hb⟩ := List.forall₂_zip hchildren hzip
                have hlt := hsees.treeSize_lt (List.of_mem_zip hzip).1
                exact ih ha hb (by omega) hpairs) hpairs
            exact ⟨_, exec_pairWithin_pages depth hsame hhold hhold' hexec, hpair pairs' hpairs'⟩
          · have hnot : ∀ copy copy', g.store.hold r = .strong copy →
                g.store.hold k ≠ .strong copy' := fun copy copy' h h' => hboth ⟨copy, copy', h, h'⟩
            exact ⟨_, exec_pairWithin_apart depth hsame hnot, hpair pairs hpairs⟩

/-- The pairs of two trees with the same picture. -/
theorem pairCommitted_yields {k : PageRef} (hsound : g.Sound sure) (hr : g.shows r t)
    (hk : g.shows k t) : Yields sure (r.pairCommitted k) g fun pairs g' => g'.Pairs pairs := by
  have hnil : g.Pairs [] := fun pair hmem => nomatch hmem
  obtain ⟨pairs, hexec, hpairs⟩ :=
    pairWithin_pairs hsound hr hk _ (g.store.treeSize_lt_depthBound r) hnil
  refine Or.inl ⟨pairs, g, ?_, Gallery.le_refl g, hsound, hpairs⟩
  rw [pairCommitted, exec_bind, exec_get]
  dsimp only
  rw [exec_bind]
  have hrun : exec (pairWithin (g.store.depthBound r) r k []) g.store =
      (.ok ((), pairs), g.store) := hexec
  rw [hrun]
  rfl

theorem rebasedWithin_yields {pairs : CommitPairs} (hsound : g.Sound sure) (hr : g.shows r t)
    (hpairs : g.Pairs pairs) (depth : Nat) (hdepth : r.treeSize < depth) :
    Yields sure (rebasedWithin pairs depth r) g fun r' g' => g'.shows r' t := by
  induction depth generalizing g r t with
  | zero => exact absurd hdepth (Nat.not_lt_zero _)
  | succ depth ih =>
      unfold rebasedWithin
      -- a page with a counterpart gives way to it, and others are made again or stay
      cases hfind : pairs.find? r with
      | some k =>
          obtain ⟨m, t', hid, hm, hk⟩ := hpairs _ (CommitPairs.mem_of_find? hfind)
          obtain ⟨-, rfl⟩ := hsound.unique hm hr hid
          exact Yielding.pure hsound hk
      | none =>
          dsimp only
          split
          · exact Yielding.pure hsound hr
          · refine Yielding.hardPage ?_
            cases hhold : g.store.hold r with
            | strong copy =>
                have hsees : g.Sees r t copy.page := hsound.held hr (by rw [hhold]; rfl)
                dsimp only [Hold.strong?, Option.map_some]
                split
                · exact Yielding.pure hsound hr
                · refine Yielding.bind (hsees.remake_yields hsound hr copy.page.version
                    fun k t' g' hle hsound' hk hlt =>
                      ih hsound' hk (hpairs.mono hle) (by omega)) ?_
                  intro p' g' hle hsound' hredraws
                  split
                  · exact remade_yields hsound' (hle.shows r t hr) hredraws
                  · exact Yielding.pure hsound' (hle.shows r t hr)
            | _ => exact Yielding.pure hsound hr

/-- Rebasing keeps the picture: a page gives way to a counterpart with the same picture. -/
theorem rebased_yields {pairs : CommitPairs} (hsound : g.Sound sure) (hr : g.shows r t)
    (hpairs : g.Pairs pairs) :
    Yields sure (r.rebased pairs) g fun r' g' => g'.shows r' t :=
  Yielding.get
    (rebasedWithin_yields hsound hr hpairs _ (Store.treeSize_lt_depthBound _ _))

end PageRef
end PageTree
