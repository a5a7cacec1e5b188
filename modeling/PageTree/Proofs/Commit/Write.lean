import PageTree.Proofs.Commit.Counterpart
import PageTree.Proofs.Commit.Zones
import PageTree.Trunk

/-!
# Writing the diff of a tree

A commit lays out a diff of the tree of a trunk and appends it to the active zone
(`Trunk.writeDiff_cases`).  It only fails if the store is closed, and then it has changed nothing
but, at most, the active zone.
-/

namespace PageTree

open StoreM

variable {s s' : Store} {c c' : Chart} {zone start version : Nat} {text : List Char}
  {t t' : Tree}

/-! ## Laying out a tree -/

/-- A tree has been laid out in a diff of some text that starts at an offset of a zone. -/
structure Laid (zone start version : Nat) (t : Tree) (s : Store) (c : Chart) (text : List Char)
    (t' : Tree) (s' : Store) (c' : Chart) : Prop where
  mirrors : Mirrors s' c'
  le : c ≤ c'
  foldings : c'.foldings = c.foldings
  memory : s.Extends s'
  resident : Resident s c → Resident s' c'
  printed : ∀ z b p, c'.filed z b = some p →
    c.filed z b = some p ∨ z = zone ∧ Diff.Prints start text b p
  counterpart : Counterpart s' zone start text t.root t'.root
  fit : c'.Fit t.kind t.seed.stem version t'.root
  credits : ∀ z b p, c'.filed z b = some p → c.filed z b = some p ∨ Filing t'.root s' z b p
  kind : t'.kind = t.kind
  stem : t'.seed.stem = t.seed.stem
  isTransient : t'.isTransient = t.isTransient

theorem exec_commitInto {ω : Type} [Sink ω] (r : PageRef) (diff : DiffWriter ω) (s : Store) :
    exec (r.commitInto diff) s =
      exec ((PageRef.commitWithin (s.depthBound r) r).run diff) s := by
  rw [PageRef.commitInto, exec_bind, exec_get]
  rfl

/-- A tree whose pages are not newer than a version can be laid out. -/
theorem Tree.buildDiff_lays (hrep : Mirrors s c) (hfit : c.Fit t.kind t.seed.stem version t.root)
    (hzone : 0 < zone) (holder : ∀ b p, c.filed zone b = some p → b ≤ start) :
    ∃ text t' s' c', exec (t.buildDiff zone start version) s = (.ok (String.ofList text, t'), s') ∧
      Laid zone start version t s c text t' s' c' := by
  have hdraft : Draft c start s c (.start zone start version) :=
    ⟨hrep, Chart.le_refl c, hzone, rfl, holder, fun _ _ _ h => Or.inl h⟩
  obtain ⟨r, s', c', diff, hexec, hleads, ⟨hcp, hfit'⟩, hcredits⟩ :=
    PageRef.commitWithin_lays hdraft (s.depthBound t.root) (Store.treeSize_lt_depthBound _ _)
      hfit (Nat.le_refl _)
  have hzoneEq : diff.zone = zone := hleads.zone
  have hmirrors := hleads.draft.mirrors
  have hbuild : exec (t.buildDiff zone start version) s =
      match exec (t.withCommittedRoot r) s' with
      | (.ok t', s'') => (.ok (diff.toText, t'), s'')
      | (.error e, s'') => (.error e, s'') := by
    rw [Tree.buildDiff, exec_bind, exec_commitInto, hexec]
    dsimp only
    rw [exec_bind]
    generalize exec (t.withCommittedRoot r) s' = outcome
    obtain ⟨_ | _, _⟩ := outcome <;> rfl
  -- the tree is as before if its root stays, and is touched if it does not
  have hroot : ∃ t', exec (t.withCommittedRoot r) s' = (.ok t', s') ∧ t'.root = r ∧
      t'.kind = t.kind ∧ t'.seed.stem = t.seed.stem ∧ t'.isTransient = t.isTransient := by
    unfold Tree.withCommittedRoot
    split
    · next hsame =>
        have heq := hmirrors.eq_of_same hfit'.refs (hleads.le.refs _ hfit.refs) hsame
        exact ⟨t, rfl, heq.symm, rfl, rfl, rfl⟩
    · exact ⟨{ t with root := r, seed := t.seed.touched s'.now }, rfl, rfl, rfl, rfl, rfl⟩
  obtain ⟨t', hexec', rfl, hkind, hstem, htransient⟩ := hroot
  refine ⟨diff.chars, t', s', c', ?_, ?_⟩
  · rw [hbuild, hexec']
    rfl
  · refine ⟨hmirrors, hleads.le, hleads.foldings, hleads.memory, hleads.resident, ?_,
      hzoneEq ▸ hcp, hfit', ?_, hkind, hstem, htransient⟩
    · rw [← hzoneEq]
      exact hleads.draft.printed
    · intro z b p hfiled
      rcases hcredits z b p hfiled with hold | ⟨m, hm, hfiling⟩
      · exact Or.inl hold
      · rw [List.mem_singleton.1 hm] at hfiling
        exact Or.inr hfiling

/-! ## Appending to the active zone -/

/-- The store with other zones. -/
def Store.withZones (s : Store) (zones : Zones) : Store :=
  { s with zones }

theorem exec_modifyZones (f : Zones → Zones) (s : Store) :
    exec (modifyZones f) s = (.ok (), s.withZones (f s.zones)) := rfl

theorem Store.keeps_withZones (s : Store) (zones : Zones) : s.Keeps (s.withZones zones) :=
  fun _ _ _ => rfl

theorem Mirrors.withZones (hrep : Mirrors s c) (zones : Zones) : Mirrors (s.withZones zones) c :=
  hrep.of_cells_eq rfl

/-- The zones that a commit appends to. -/
def Commit.zones (commit : Commit) (z : Zones) : Zones :=
  if commit.shifted then z.shift else z

theorem Commit.sound_zones {commit : Commit} {z : Zones} (hsound : z.Sound) :
    (commit.zones z).Sound := by
  unfold Commit.zones
  split
  · exact hsound.shift
  · exact hsound

theorem Commit.active_zones (commit : Commit) (z : Zones) : z.active ≤ (commit.zones z).active := by
  unfold Commit.zones
  split
  · exact Nat.le_succ _
  · exact Nat.le_refl _

theorem Commit.backed_zones {commit : Commit} {z : Zones} (hsound : z.Sound)
    (hbacked : Backed z c) : Backed (commit.zones z) c := by
  unfold Commit.zones
  split
  · exact hbacked.shift hsound
  · exact hbacked

/-- The request that a store makes of a commit, unless it is closed. -/
theorem exec_willCommit (commit : Commit) (s : Store) :
    (s.zones.isClosed = true ∧ exec (willCommit commit) s = (.error .closed, s)) ∨
      ∃ commit', exec (willCommit commit) s = (.ok commit', s) := by
  unfold willCommit
  rw [exec_bind, exec_get]
  dsimp only
  split
  · rw [exec_bind, exec_ofZones]
    cases hclosed : s.zones.isClosed with
    | true =>
        refine Or.inl ⟨rfl, ?_⟩
        simp only [Zones.checkOpen, hclosed, if_true]
    | false =>
        simp only [Zones.checkOpen, hclosed, Bool.false_eq_true, if_false]
        exact Or.inr ⟨_, rfl⟩
  · exact Or.inr ⟨commit, rfl⟩

/-- A text is built for the active zone and appended to it. -/
theorem exec_writeZone {α : Type} (commit : Commit) (build : Nat → Nat → StoreM (String × α))
    (s : Store) (hopen : s.zones.isClosed = false) :
    exec (writeZone commit build) s =
      match exec (build (commit.zones s.zones).active
          (((commit.zones s.zones).size? (commit.zones s.zones).active).getD 0))
          (s.withZones (commit.zones s.zones)) with
      | (.ok (text, a), s') =>
          (.ok ((commit.zones s.zones).active, a), s'.withZones (s'.zones.append text))
      | (.error e, s') => (.error e, s') := by
  have hcheck : s.zones.checkOpen = .ok () := by
    simp [Zones.checkOpen, hopen]
  -- what is left to do once the zone is chosen
  have htail : ∀ s₀ : Store, exec (do
      let zones := (← get).zones
      let built ← build zones.active ((zones.size? zones.active).getD 0)
      modifyZones (·.append built.1)
      return (zones.active, built.2)) s₀ =
      match exec (build s₀.zones.active ((s₀.zones.size? s₀.zones.active).getD 0)) s₀ with
      | (.ok (text, a), s') => (.ok (s₀.zones.active, a), s'.withZones (s'.zones.append text))
      | (.error e, s') => (.error e, s') := by
    intro s₀
    rw [exec_bind, exec_get]
    dsimp only
    rw [exec_bind]
    generalize exec (build _ _) _ = outcome
    obtain ⟨_ | _, _⟩ := outcome <;> rfl
  unfold writeZone Commit.zones
  rw [exec_bind, exec_ofZones, hcheck]
  cases hshifted : commit.shifted with
  | true =>
      simp only [if_true]
      rw [exec_bind, exec_modifyZones]
      exact htail (s.withZones s.zones.shift)
  | false =>
      simp only [Bool.false_eq_true, if_false]
      exact htail s

/-- Nothing is written once the store is closed. -/
theorem exec_writeZone_of_closed {α : Type} (commit : Commit)
    (build : Nat → Nat → StoreM (String × α)) (hclosed : s.zones.isClosed = true) :
    exec (writeZone commit build) s = (.error .closed, s) := by
  have hcheck : s.zones.checkOpen = .error .closed := by
    simp [Zones.checkOpen, hclosed]
  rw [writeZone, exec_bind, exec_ofZones, hcheck]

/-- A tree is laid out at the end of the active zone, and its diff is appended there. -/
theorem Tree.writeZone_lays (hrep : Represents s c) (hsound : s.zones.Sound)
    (hfit : c.Fit t.kind t.seed.stem version t.root) (commit : Commit)
    (hopen : s.zones.isClosed = false) {zones : Zones} (hzones : commit.zones s.zones = zones) :
    ∃ text start t' s' c', zones.size? zones.active = some start ∧
      exec (t.buildDiff zones.active start version) (s.withZones zones) =
        (.ok (String.ofList text, t'), s') ∧
      exec (writeZone commit fun zone base => t.buildDiff zone base version) s =
        (.ok (zones.active, t'), s'.withZones (zones.append (String.ofList text))) ∧
      Laid zones.active start version t (s.withZones zones) c text t' s' c' ∧
      Represents (s'.withZones (zones.append (String.ofList text))) c' ∧
      (zones.append (String.ofList text)).Sound := by
  have hsoundZones : zones.Sound := hzones ▸ Commit.sound_zones hsound
  have hbacked : Backed zones c := hzones ▸ Commit.backed_zones hsound hrep.backed
  obtain ⟨before, hbefore⟩ := Option.isSome_iff_exists.1 (Zones.text?_isSome.2 hsoundZones.kept)
  have hsize : zones.size? zones.active = some before.utf8ByteSize := by
    rw [Zones.size?, hbefore]
    rfl
  have holder : ∀ b p, c.filed zones.active b = some p → b ≤ before.utf8ByteSize :=
    fun b p hfiled => (hbacked.kept _ b p _ hfiled hbefore).1
  obtain ⟨text, t', s', c', hbuild, hlaid⟩ := Tree.buildDiff_lays
    (hrep.toMirrors.withZones zones) hfit hsoundZones.positive holder
  have hzonesEq : s'.zones = zones := by
    rw [hlaid.memory.rest]
    rfl
  refine ⟨text, before.utf8ByteSize, t', s', c', hsize, hbuild, ?_, hlaid, ?_,
    hsoundZones.append _⟩
  · rw [exec_writeZone commit _ s hopen, hzones, hsize, Option.getD_some, hbuild]
    simp only [hzonesEq]
  · exact ⟨hlaid.mirrors.withZones _, hbacked.append hsize hlaid.printed⟩

/-! ## Writing the diff of a trunk -/

/-- The diff of a trunk has been written. -/
structure Trunk.Wrote (t : Trunk) (s : Store) (c : Chart) (diff : WrittenDiff)
    (s' : Store) (c' : Chart) : Prop where
  represents : Represents s' c'
  sound : s'.zones.Sound
  le : c ≤ c'
  foldings : c'.foldings = c.foldings
  size : s.cells.size ≤ s'.cells.size
  cells : ∀ id, id < s.cells.size → s'.cell id = s.cell id
  resident : Resident s c → Resident s' c'
  settings : s'.settings = s.settings
  takesPart : s'.takesPart = s.takesPart
  isOpen : s.zones.isClosed = false
  tree : diff.tree = t.tree
  version : diff.version = t.version
  zone : diff.zone = (diff.commit.zones s.zones).active
  /-- The text of a diff has been appended, and the pages of the tree have their places in it. -/
  text : ∃ text start, s'.zones = (diff.commit.zones s.zones).append (String.ofList text) ∧
    (diff.commit.zones s.zones).size? diff.zone = some start ∧
    (∃ s₁, exec (t.tree.buildDiff diff.zone start t.version)
      (s.withZones (diff.commit.zones s.zones)) = (.ok (String.ofList text, diff.committed), s₁)) ∧
    Counterpart s' diff.zone start text t.tree.root diff.committed.root
  fit : c'.Fit t.tree.kind t.tree.seed.stem t.version diff.committed.root
  credits : ∀ z b p, c'.filed z b = some p →
    c.filed z b = some p ∨ Filing diff.committed.root s' z b p
  active : ∀ z b p, c'.filed z b = some p → c.filed z b = some p ∨ z = s'.zones.active
  kind : diff.committed.kind = t.tree.kind
  stem : diff.committed.seed.stem = t.tree.seed.stem
  isTransient : diff.committed.isTransient = t.tree.isTransient

/-- A diff is only written of a trunk that has work, and then it is, unless the store is
closed. -/
theorem Trunk.writeDiff_cases (hrep : Represents s c) (hsound : s.zones.Sound) {t : Trunk}
    (hfit : c.Fit t.tree.kind t.tree.seed.stem t.version t.tree.root) (request : Commit) :
    (t.hasWork request = false ∧ exec (t.writeDiff request) s = (.ok none, s)) ∨
      (s.zones.isClosed = true ∧ exec (t.writeDiff request) s = (.error .closed, s)) ∨
      ∃ diff s' c', exec (t.writeDiff request) s = (.ok (some diff), s') ∧
        t.Wrote s c diff s' c' := by
  unfold writeDiff
  cases hwork : t.hasWork request with
  | false => exact Or.inl ⟨rfl, rfl⟩
  | true =>
      refine Or.inr ?_
      simp only [if_true]
      rw [exec_bind]
      -- a closed store refuses either before the commit begins or when the zone is to be written
      rcases exec_willCommit request s with ⟨hclosed, hexec⟩ | ⟨commit, hexec⟩
      · refine Or.inl ⟨hclosed, ?_⟩
        rw [hexec]
      · rw [hexec]
        dsimp only
        rw [exec_bind]
        cases hclosed : s.zones.isClosed with
        | true =>
            refine Or.inl ⟨rfl, ?_⟩
            rw [exec_writeZone_of_closed commit _ hclosed]
        | false =>
            refine Or.inr ?_
            obtain ⟨text, start, t', s', c', hsize, hbuild, hexec', hlaid, hrep', hsound'⟩ :=
              Tree.writeZone_lays hrep hsound hfit commit hclosed rfl
            set zones := commit.zones s.zones with hzones
            refine ⟨⟨commit, t.tree, t.version, t', zones.active⟩,
              s'.withZones (zones.append (String.ofList text)), c', ?_, ?_⟩
            · rw [hexec']
              rfl
            · exact {
                represents := hrep'
                sound := hsound'
                le := hlaid.le
                foldings := hlaid.foldings
                size := hlaid.memory.size
                cells := hlaid.memory.cells
                resident := hlaid.resident
                settings := by rw [hlaid.memory.rest]; rfl
                takesPart := by rw [hlaid.memory.rest]; rfl
                isOpen := hclosed
                tree := rfl
                version := rfl
                zone := rfl
                text := ⟨text, start, rfl, hsize, ⟨s', hbuild⟩,
                  hlaid.counterpart.keep (s'.keeps_withZones _) (List.prefix_refl _)⟩
                fit := hlaid.fit
                credits := fun z b p hfiled => (hlaid.credits z b p hfiled).imp_right
                  (Filing.keep (s'.keeps_withZones _))
                active := fun z b p hfiled => (hlaid.printed z b p hfiled).imp_right And.left
                kind := hlaid.kind
                stem := hlaid.stem
                isTransient := hlaid.isTransient }

section Written

variable {t : Trunk} {request : Commit} (hrep : Represents s c) (hsound : s.zones.Sound)
  (hfit : c.Fit t.tree.kind t.tree.seed.stem t.version t.tree.root)
include hrep hsound hfit

/-- A diff that is given has been written. -/
theorem Trunk.wrote_of_writeDiff {diff : WrittenDiff}
    (hexec : exec (t.writeDiff request) s = (.ok (some diff), s')) :
    ∃ c', t.Wrote s c diff s' c' := by
  rcases t.writeDiff_cases hrep hsound hfit request with
    ⟨-, hexec'⟩ | ⟨-, hexec'⟩ | ⟨diff', s₁, c', hexec', hwrote⟩
  all_goals
    rw [hexec'] at hexec
    cases hexec
  exact ⟨c', hwrote⟩

/-- Where no diff is given, there is no work, and the store is left alone. -/
theorem Trunk.idle_of_writeDiff (hexec : exec (t.writeDiff request) s = (.ok none, s')) :
    t.hasWork request = false ∧ s' = s := by
  rcases t.writeDiff_cases hrep hsound hfit request with
    ⟨hidle, hexec'⟩ | ⟨-, hexec'⟩ | ⟨diff', s₁, c', hexec', -⟩
  all_goals
    rw [hexec'] at hexec
    cases hexec
  exact ⟨hidle, rfl⟩

/-- Only a closed store refuses a diff, and it is left alone. -/
theorem Trunk.closed_of_writeDiff {e : StoreError}
    (hexec : exec (t.writeDiff request) s = (.error e, s')) : e = .closed ∧ s' = s := by
  rcases t.writeDiff_cases hrep hsound hfit request with
    ⟨-, hexec'⟩ | ⟨-, hexec'⟩ | ⟨diff', s₁, c', hexec', -⟩
  all_goals
    rw [hexec'] at hexec
    cases hexec
  exact ⟨rfl, rfl⟩

end Written

end PageTree
