import PageTree.Proofs.BTree.Provenance
import PageTree.Proofs.Commit.Write
import PageTree.Proofs.Contents

/-!
# Trees derived from a B-tree

From a tree others are derived by one treatment after another: changes, folds of its values,
evacuations and commits, which write the pages of the tree to the active zone.  A treatment that
does not fail leaves a tree with the entries that it should have, by a chart of the new store
(`derive_cases`), and it leaves what holds throughout a tree and of all shapes at its version
(`derive_vetted`).
-/

namespace PageTree

open StoreM

section Derived

variable {P : Nat → PageBody Unit → Prop} {F G : PageRef.Folding → Prop} {s s' s'' : Store}
  {c c' c'' : Chart} {version : Nat}

/-- A tree has what its counterpart has throughout. -/
theorem Counterpart.throughout {zone start : Nat} {text : List Char} {r r' : PageRef}
    (hrep : Mirrors s c) (hcp : Counterpart s zone start text r r') (hr : c.refs r)
    (hr' : c.refs r') (hall : c.Throughout P r.site) : c.Throughout P r'.site := by
  induction hcp with
  | kept => exact hall
  | @written r r' copy copy' _ _ hold hold' _ _ version _ shape length _ ih =>
      obtain ⟨hpage, hrefs⟩ := hrep.held _ _ hr (by rw [hold]; rfl)
      obtain ⟨hpage', hrefs'⟩ := hrep.held _ _ hr' (by rw [hold']; rfl)
      refine .intro hpage' ?_ fun n hn => ?_
      · have hhere := hall.here hpage
        simpa [version, shape] using hhere
      · rw [Page.map_children] at hn
        obtain ⟨m, hm, rfl⟩ := List.mem_map.1 hn
        obtain ⟨⟨i, h'⟩, rfl⟩ := List.mem_iff_get.1 hm
        have h : i < copy.page.children.length := by omega
        refine ih i h h' (hrefs _ (List.get_mem _ _)) (hrefs' _ hm) (hall.child hpage ?_)
        rw [Page.map_children]
        exact List.mem_map_of_mem (List.get_mem _ _)

/-- What treatments make of a store and its chart, which gets no foldings but some. -/
structure Store.Proceeds (F : PageRef.Folding → Prop) (s : Store) (c : Chart) (s' : Store)
    (c' : Chart) : Prop where
  represents : Represents s' c'
  zones : s'.zones.Sound
  isClosed : s'.zones.isClosed = s.zones.isClosed
  resident : Resident s c → Resident s' c'
  foldings : ∀ f, c'.foldings f → c.foldings f ∨ F f

namespace Store.Proceeds

theorem refl (hrep : Represents s c) (hzones : s.zones.Sound) : Proceeds F s c s c :=
  ⟨hrep, hzones, rfl, id, fun _ => Or.inl⟩

theorem imp (himp : ∀ f, F f → G f) (hproceeds : Proceeds F s c s' c') : Proceeds G s c s' c' :=
  ⟨hproceeds.represents, hproceeds.zones, hproceeds.isClosed, hproceeds.resident,
    fun f hf => (hproceeds.foldings f hf).imp_right (himp f)⟩

theorem trans (hproceeds : Proceeds F s c s' c') (hproceeds' : Proceeds F s' c' s'' c'') :
    Proceeds F s c s'' c'' where
  represents := hproceeds'.represents
  zones := hproceeds'.zones
  isClosed := hproceeds'.isClosed.trans hproceeds.isClosed
  resident hall := hproceeds'.resident (hproceeds.resident hall)
  foldings f hf := (hproceeds'.foldings f hf).elim (hproceeds.foldings f) Or.inr

theorem of_grows (hgrows : Grows s c s' c') (hzones : s.zones.Sound) : Proceeds F s c s' c' where
  represents := hgrows.represents
  zones := hgrows.zones ▸ hzones
  isClosed := by rw [hgrows.zones]
  resident := hgrows.resident
  foldings f hf := Or.inl (hgrows.foldings ▸ hf)

end Store.Proceeds

theorem Commit.isClosed_zones (commit : Commit) (z : Zones) :
    (commit.zones z).isClosed = z.isClosed := by
  unfold Commit.zones
  split <;> rfl

namespace BTree

/-- What is done to a tree to derive another from it. -/
inductive Treatment where
  | change (made : Change) (post : Nat)
  /-- Folds the values. -/
  | reduce (f : PageRef.Folding)
  /-- Moves pages out of zones older than `post`. -/
  | evacuate (post : Nat)
  /-- Writes the diff of the tree to the active zone, as a commit does. -/
  | write (commit : Commit)

namespace Treatment

/-- The tree that is derived at a version. -/
def apply (t : Tree) (version : Nat) : Treatment → StoreM Tree
  | change made post => made.apply t version post
  | reduce f => t.reduced f version
  | evacuate post => t.evacuated post version
  | write commit => do
    return (← writeZone commit fun zone base => t.buildDiff zone base version).2

/-- What becomes of the entries. -/
def onListing (es : List Entry) : Treatment → List Entry
  | change made _ => made.onListing es
  | reduce _ | evacuate _ | write _ => es

variable {t t' : Tree} {es : List Entry}

/-- To derive a tree fails if a page cannot be had or the store is closed.  Otherwise the tree has
the entries that it should have. -/
theorem apply_cases (hrep : Represents s c) (hzones : s.zones.Sound)
    (hcontains : Contains c version t es) (step : Treatment) :
    (∃ e s', exec (step.apply t version) s = (.error e, s') ∧ e.IsLoadFailure ∧
        ¬ (Resident s c ∧ s.zones.isClosed = false)) ∨
      ∃ t' s' c', exec (step.apply t version) s = (.ok t', s') ∧
        Store.Proceeds (fun f => step = .reduce f) s c s' c' ∧
        Contains c' version t' (step.onListing es) := by
  have hhas : c.Has version t (.listing es) := hcontains
  have hgrown : ∀ {m : StoreM Tree} {es' : List Entry},
      (Runs m s c fun t' _ c' => Contains c' version t' es') →
      (∃ e s', exec m s = (.error e, s') ∧ e.IsLoadFailure ∧
          ¬ (Resident s c ∧ s.zones.isClosed = false)) ∨
        ∃ t' s' c', exec m s = (.ok t', s') ∧
          Store.Proceeds (fun f => step = .reduce f) s c s' c' ∧ Contains c' version t' es' := by
    intro m es' hruns
    rcases hruns.cases with
      ⟨t', s', c', hexec, hgrows, hpost⟩ | ⟨e, s', c', hexec, -, hfail, hlacks⟩
    · exact Or.inr ⟨t', s', c', hexec, .of_grows hgrows hzones, hpost⟩
    · exact Or.inl ⟨e, s', hexec, hfail, fun hall => hlacks.unserved (Or.inl hall.1)⟩
  cases step with
  | change made post => exact hgrown (made.apply_runs hrep hcontains post)
  | evacuate post =>
      exact hgrown ((Tree.evacuated_runs hrep hhas post).mono fun _ _ _ _ hpost => hpost.2)
  | reduce f =>
      -- the treatment may be the first that folds with `f`
      have hallowed := hrep.allow fun g => g = f
      have hruns := Tree.reduced_runs hallowed (hhas.mono (c.le_allow fun g => g = f))
        (Or.inr (rfl : f = f))
      rcases hruns.cases with
        ⟨t', s', c', hexec, hgrows, -, hhas', -⟩ | ⟨e, s', c', hexec, -, hfail, hlacks⟩
      · refine Or.inr ⟨t', s', c', hexec, ⟨hgrows.represents, hgrows.zones ▸ hzones,
          by rw [hgrows.zones], hgrows.resident, fun g hg => ?_⟩, hhas'⟩
        rw [hgrows.foldings] at hg
        rcases hg with hold | rfl
        · exact Or.inl hold
        · exact Or.inr rfl
      · exact Or.inl ⟨e, s', hexec, hfail, fun hall => hlacks.unserved (Or.inl hall.1)⟩
  | write commit =>
      cases hclosed : s.zones.isClosed with
      | true =>
          refine Or.inl ⟨.closed, s, ?_, .closed, by simp⟩
          rw [apply, exec_bind, exec_writeZone_of_closed commit _ hclosed]
      | false =>
          obtain ⟨text, start, t', s', c', -, -, hexec, hlaid, hrep', hsound⟩ :=
            Tree.writeZone_lays hrep hzones hhas.fit commit hclosed rfl
          refine Or.inr ⟨t', _, c', ?_, ⟨hrep', hsound, ?_, hlaid.resident, ?_⟩, ?_⟩
          · rw [apply, exec_bind, hexec]
            rfl
          · exact commit.isClosed_zones s.zones
          · exact fun f hf => Or.inl (hlaid.foldings ▸ hf)
          · have hroot := hlaid.le.refs _ hhas.fit.refs
            have hlike : c'.Likeness t.seed.kind t.seed.stem version t.root.site t'.root :=
              ⟨hlaid.fit, hlaid.counterpart.alike hlaid.mirrors hroot hlaid.fit.refs⟩
            have hhas' : c'.Has version t' (.listing es) :=
              ((hhas.mono hlaid.le).likeness hlike).congr rfl hlaid.kind hlaid.stem
            exact hhas'

/-- A treatment keeps what holds throughout a tree, if that holds of all shapes at its version. -/
theorem apply_vetted (hP : ∀ shape, P version shape) (hrep : Represents s c)
    (hzones : s.zones.Sound) (ht : Vetted P c version t) (step : Treatment)
    (hexec : exec (step.apply t version) s = (.ok t', s')) :
    ∃ c', Represents s' c' ∧ s'.zones.Sound ∧ Vetted P c' version t' := by
  cases step with
  | change made post =>
      obtain ⟨c', hgrows, ht'⟩ := (made.apply_vetted hP hrep ht post).of_ok hexec
      exact ⟨c', hgrows.represents, hgrows.zones ▸ hzones, ht'⟩
  | evacuate post =>
      obtain ⟨c', hgrows, ht'⟩ := (ht.evacuated_runs hP hrep post).of_ok hexec
      exact ⟨c', hgrows.represents, hgrows.zones ▸ hzones, ht'⟩
  | reduce f =>
      have hle := c.le_allow fun g => g = f
      obtain ⟨c', hgrows, ht'⟩ := ((ht.mono hle).reduced_runs hP (hrep.allow _)
        (Or.inr (rfl : f = f))).of_ok hexec
      exact ⟨c', hgrows.represents, hgrows.zones ▸ hzones, ht'⟩
  | write commit =>
      cases hclosed : s.zones.isClosed with
      | true =>
          rw [apply, exec_bind, exec_writeZone_of_closed commit _ hclosed] at hexec
          cases hexec
      | false =>
          have hfit : c.Fit t.kind t.seed.stem version t.root := by
            rw [Tree.kind, ht.kind]
            exact ht.root.fit
          obtain ⟨text, start, t₁, s₁, c', -, -, hwritten, hlaid, hrep', hsound⟩ :=
            Tree.writeZone_lays hrep hzones hfit commit hclosed rfl
          rw [apply, exec_bind, hwritten] at hexec
          cases hexec
          have hkind : t₁.seed.kind = .btree := hlaid.kind.trans ht.kind
          have hfit' := hlaid.fit
          rw [Tree.kind, ht.kind, ← hlaid.stem] at hfit'
          -- what is written has the versions and shapes of the tree that it is written of
          refine ⟨c', hrep', hsound, hkind, hfit', ?_⟩
          exact hlaid.counterpart.throughout hlaid.mirrors (hlaid.le.refs _ hfit.refs) hfit'.refs
            (ht.root.throughout.mono hlaid.le)

end Treatment

/-- The tree that is derived by treatments, each at a version. -/
def derive (t : Tree) (steps : List (Nat × Treatment)) : StoreM Tree :=
  steps.foldlM (fun t step => step.2.apply t step.1) t

variable {t t' : Tree} {es : List Entry}

/-- What becomes of a tree by treatments at versions that do not go back. -/
theorem derive_cases (hrep : Represents s c) (hzones : s.zones.Sound)
    (hcontains : Contains c version t es) (steps : List (Nat × Treatment))
    (hversions : (steps.map Prod.fst).Pairwise (· ≤ ·))
    (hstart : ∀ step ∈ steps, version ≤ step.1) :
    (∃ e s', exec (derive t steps) s = (.error e, s') ∧ e.IsLoadFailure ∧
        ¬ (Resident s c ∧ s.zones.isClosed = false)) ∨
      ∃ t' s' c', exec (derive t steps) s = (.ok t', s') ∧
        Store.Proceeds (fun f => ∃ step ∈ steps, step.2 = .reduce f) s c s' c' ∧
        Contains c' ((steps.map Prod.fst).getLastD version) t'
          ((steps.map Prod.snd).foldl Treatment.onListing es) := by
  induction steps generalizing s c version t es with
  | nil => exact Or.inr ⟨t, s, c, rfl, .refl hrep hzones, hcontains⟩
  | cons step steps ih =>
      obtain ⟨v, step⟩ := step
      rw [List.map_cons, List.pairwise_cons] at hversions
      have hle : version ≤ v := hstart _ List.mem_cons_self
      simp only [derive, List.foldlM_cons]
      rw [exec_bind]
      rcases step.apply_cases hrep hzones (hcontains.raise hle) with
        ⟨e, s', hexec, hfail, hlacks⟩ | ⟨t', s', c', hexec, hproceeds, hcontains'⟩
      · rw [hexec]
        exact Or.inl ⟨e, s', rfl, hfail, hlacks⟩
      · rw [hexec]
        dsimp only
        rcases ih hproceeds.represents hproceeds.zones hcontains' hversions.2 (fun step' hmem =>
            hversions.1 _ (List.mem_map_of_mem hmem)) with
          ⟨e, s'', hexec', hfail, hlacks⟩ | ⟨t'', s'', c'', hexec', hproceeds', hcontains''⟩
        · -- a store that serves at first still serves after a treatment
          refine Or.inl ⟨e, s'', hexec', hfail, fun hall => hlacks ?_⟩
          exact ⟨hproceeds.resident hall.1, hproceeds.isClosed.trans hall.2⟩
        · rw [List.map_cons, List.map_cons, List.getLastD_cons, List.foldl_cons]
          refine Or.inr ⟨t'', s'', c'', hexec', ?_, hcontains''⟩
          refine (hproceeds.imp ?_).trans (hproceeds'.imp ?_)
          · exact fun f hf => ⟨_, List.mem_cons_self, hf⟩
          · rintro f ⟨step', hmem, hf⟩
            exact ⟨step', List.mem_cons_of_mem _ hmem, hf⟩

/-- Treatments do not fail in an open store of which memory holds all pages. -/
theorem derive_succeeds (hrep : Represents s c) (hzones : s.zones.Sound)
    (hcontains : Contains c version t es) (steps : List (Nat × Treatment))
    (hversions : (steps.map Prod.fst).Pairwise (· ≤ ·))
    (hstart : ∀ step ∈ steps, version ≤ step.1) (hall : Resident s c)
    (hopen : s.zones.isClosed = false) : ∃ t' s', exec (derive t steps) s = (.ok t', s') := by
  rcases derive_cases hrep hzones hcontains steps hversions hstart with
    ⟨e, s', -, -, hlacks⟩ | ⟨t', s', c', hexec, -⟩
  · exact absurd ⟨hall, hopen⟩ hlacks
  · exact ⟨t', s', hexec⟩

/-- What there is after treatments that have not failed. -/
theorem derive_of_ok (hrep : Represents s c) (hzones : s.zones.Sound)
    (hcontains : Contains c version t es) (steps : List (Nat × Treatment))
    (hversions : (steps.map Prod.fst).Pairwise (· ≤ ·))
    (hstart : ∀ step ∈ steps, version ≤ step.1)
    (hexec : exec (derive t steps) s = (.ok t', s')) :
    ∃ c', Store.Proceeds (fun f => ∃ step ∈ steps, step.2 = .reduce f) s c s' c' ∧
      Contains c' ((steps.map Prod.fst).getLastD version) t'
        ((steps.map Prod.snd).foldl Treatment.onListing es) := by
  rcases derive_cases hrep hzones hcontains steps hversions hstart with
    ⟨e, s₁, hexec', -⟩ | ⟨t₁, s₁, c', hexec', hpost⟩
  · rw [hexec] at hexec'
    cases hexec'
  · rw [hexec] at hexec'
    cases hexec'
    exact ⟨c', hpost⟩

/-- From a new tree in an open store others can be derived, and memory holds all of them. -/
theorem exists_derived (hzones : s.zones.Sound) (hopen : s.zones.isClosed = false) (seed : Seed)
    (hkind : seed.kind = .btree) (steps : List (Nat × Treatment))
    (hversions : (steps.map Prod.fst).Pairwise (· ≤ ·)) :
    ∃ t s' c, exec (do derive (← Tree.empty seed) steps) s = (.ok t, s') ∧
      Store.Proceeds (fun f => ∃ step ∈ steps, step.2 = .reduce f) s .blank s' c ∧
      Resident s' c ∧
      Contains c ((steps.map Prod.fst).getLastD 0) t
        ((steps.map Prod.snd).foldl Treatment.onListing []) := by
  have hblank : Resident s .blank := fun r hr => absurd hr id
  obtain ⟨t₀, s₀, c₀, hempty, hgrows, -, hcontains⟩ :=
    (empty_runs (represents_blank s) seed hkind).succeeds (Or.inl hblank)
  have hzones₀ : s₀.zones.Sound := hgrows.zones ▸ hzones
  rcases derive_cases hgrows.represents hzones₀ hcontains steps hversions
    (fun _ _ => Nat.zero_le _) with ⟨e, s', -, -, hlacks⟩ | ⟨t, s', c, hexec, hproceeds, hcontains'⟩
  · exact absurd ⟨hgrows.resident hblank, by rw [hgrows.zones, hopen]⟩ hlacks
  · refine ⟨t, s', c, ?_, (Store.Proceeds.of_grows hgrows hzones).trans hproceeds,
      hproceeds.resident (hgrows.resident hblank), hcontains'⟩
    rw [exec_bind, hempty]
    exact hexec

/-- Treatments from which a new tree gets four entries. -/
def fourPuts : List (Nat × Treatment) :=
  [(1, .change (.update (.int 1) (.int 10)) 0), (1, .change (.update (.int 2) (.int 20)) 0),
    (1, .change (.update (.int 3) (.int 30)) 0), (1, .change (.update (.int 4) (.int 40)) 0)]

/-- Treatments keep what holds throughout a tree, if that holds of all shapes at their versions. -/
theorem derive_vetted (hrep : Represents s c) (hzones : s.zones.Sound)
    (ht : Vetted P c version t) (steps : List (Nat × Treatment))
    (hP : ∀ step ∈ steps, ∀ shape, P step.1 shape)
    (hversions : (steps.map Prod.fst).Pairwise (· ≤ ·))
    (hstart : ∀ step ∈ steps, version ≤ step.1)
    (hexec : exec (derive t steps) s = (.ok t', s')) :
    ∃ c' version', Represents s' c' ∧ Vetted P c' version' t' := by
  induction steps generalizing s c version t with
  | nil =>
      cases hexec
      exact ⟨c, version, hrep, ht⟩
  | cons step steps ih =>
      obtain ⟨v, step⟩ := step
      rw [List.map_cons, List.pairwise_cons] at hversions
      have hle : version ≤ v := hstart _ List.mem_cons_self
      simp only [derive, List.foldlM_cons] at hexec
      rw [exec_bind] at hexec
      split at hexec
      · next t₁ s₁ hfirst =>
          obtain ⟨c₁, hrep₁, hzones₁, ht₁⟩ := step.apply_vetted (hP _ List.mem_cons_self) hrep
            hzones (ht.raise hle) hfirst
          exact ih hrep₁ hzones₁ ht₁ (fun step' hmem => hP step' (List.mem_cons_of_mem _ hmem))
            hversions.2 (fun step' hmem => hversions.1 _ (List.mem_map_of_mem hmem)) hexec
      · cases hexec

end BTree
end Derived
end PageTree
