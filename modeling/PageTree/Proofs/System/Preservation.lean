import PageTree.Proofs.System.Coherence

/-!
# Systems stay coherent

Every step of a call, of the commit or of anyone else takes a coherent system to one that is
coherent by a chart that has grown (`Coherent.step`).  Calls and commits let go of no page in
memory, so they find all pages there (`Coherent.quiet_step`).  If the chart has the foldings of all
calls, it gets no others (`Coherent.step_within`).
-/

namespace PageTree

open StoreM

variable {c c' c'' : Chart} {s s' : Store} {origin : Tree} {version : Nat}

/-! ## Commits -/

/-- What a reference in use leads to is in use. -/
theorem Mirrors.refs_within (hrep : Mirrors s c) {r m : PageRef} (hr : c.refs r)
    (hwithin : s.Within r m) : c.refs m := by
  induction hwithin with
  | self => exact hr
  | beneath held child _ ih => exact ih ((hrep.held _ _ hr held).2 _ child)

/-- A written diff has the content of the tree that it is a diff of. -/
theorem Trunk.Wrote.has {t : Trunk} {diff : WrittenDiff} {content : Content}
    (hwrote : t.Wrote s c diff s' c') (hhas : c.Has t.version t.tree content) :
    c'.Has t.version diff.committed content := by
  obtain ⟨text, start, -, -, -, hcp⟩ := hwrote.text
  have hroot := hwrote.le.refs _ hhas.fit.refs
  have hlike : c'.Likeness t.tree.seed.kind t.tree.seed.stem t.version t.tree.root.site
      diff.committed.root :=
    ⟨hwrote.fit, hcp.alike hwrote.represents.toMirrors hroot hwrote.fit.refs⟩
  exact ((hhas.mono hwrote.le).likeness hlike).congr rfl hwrote.kind hwrote.stem

/-- A page that memory has of a committed reference is filed. -/
theorem Mirrors.filed_of_filing (hrep : Mirrors s c) {r : PageRef} {zone base : Nat}
    {p : Page Header} (hr : c.refs r) (hfiling : Filing r s zone base p) :
    c.filed zone base = some p := by
  obtain ⟨m, copy, hwithin, hcommitted, rfl, rfl, hhold, rfl⟩ := hfiling
  obtain ⟨hpage, -⟩ := hrep.held m copy (hrep.refs_within hr hwithin) (by rw [hhold]; rfl)
  rw [PageRef.site_of_committed hcommitted] at hpage
  obtain ⟨q, hq, hmap⟩ := Chart.exists_filed hpage
  have hstored : copy.page.stored = q := by
    rw [← Page.map_site_header, hmap, Page.map_map]
    exact Page.map_id q
  rw [hstored]
  exact hq

/-- The pages that a diff has written are filed, and no others but those before. -/
theorem Trunk.Wrote.filed_iff {t : Trunk} {diff : WrittenDiff} (hwrote : t.Wrote s c diff s' c')
    (zone base : Nat) (p : Page Header) :
    c.filed zone base = some p ∨ Filing diff.committed.root s' zone base p ↔
      c'.filed zone base = some p := by
  constructor
  · rintro (hfiled | hfiling)
    · exact hwrote.le.filed _ _ _ hfiled
    · exact hwrote.represents.filed_of_filing hwrote.fit.refs hfiling
  · exact hwrote.credits zone base p

/-- A tree that is rebased keeps its content. -/
theorem Tree.rebased_runs {t : Tree} {content : Content} {pairs : PageRef.CommitPairs}
    (hrep : Represents s c) (hhas : c.Has version t content) (hpairs : c.Pairs pairs) :
    Runs (t.rebased pairs) s c fun t' s' c' =>
      t.Rerooted t' ∧ c'.Has version t' content ∧ Rebased s' pairs t.root t'.root := by
  refine Runs.bind (PageRef.rebased_runs hrep hpairs hhas.fit) ?_
  rintro r s' c' hgrows ⟨hlike, hrebased⟩
  have hhas' := hhas.mono hgrows.le
  rw [Tree.withRoot_eq hgrows.represents.toMirrors hlike.fit.refs hhas'.fit.refs]
  exact Runs.pure hgrows.represents ⟨.of_root t r, hhas'.likeness hlike, hrebased⟩

/-- A store that has only been added to agrees with the chart from before. -/
theorem Mirrors.extends (hrep : Mirrors s c) (hext : s.Extends s') : Mirrors s' c := by
  have hcell : ∀ r, c.refs r → s'.cell r.id = s.cell r.id :=
    fun r hr => hext.cells _ (hrep.allocated r hr)
  have hhold : ∀ r, c.refs r → s'.hold r = s.hold r := fun r hr => by
    rw [Store.hold, hcell r hr, Store.hold]
  exact { hrep with
    allocated := fun r hr => Nat.lt_of_lt_of_le (hrep.allocated r hr) hext.size
    charted := fun id p hp => Nat.lt_of_lt_of_le (hrep.charted id p hp) hext.size
    held := by
      intro r copy hr hcopy
      rw [hhold r hr] at hcopy
      exact hrep.held r copy hr hcopy
    strong := by
      intro r hr huncommitted
      rw [hhold r hr]
      exact hrep.strong r hr huncommitted
    dated := by
      intro r v p hr hv hp
      rw [hcell r hr] at hv
      exact hrep.dated r v p hr hv hp }

/-- A store that fails while it writes has at most added to memory and moved on to a new zone. -/
theorem Trunk.spoilDiff_represents (hrep : Represents s c) (hsound : s.zones.Sound) {t : Trunk}
    (hfit : c.Fit t.tree.kind t.tree.seed.stem t.version t.tree.root) (request : Commit) :
    Represents (exec (t.spoilDiff request) s).2 c ∧
      (exec (t.spoilDiff request) s).2.zones.Sound ∧ s.Keeps (exec (t.spoilDiff request) s).2 := by
  have hsame : Represents s c ∧ s.zones.Sound ∧ s.Keeps s := ⟨hrep, hsound, .refl s⟩
  unfold spoilDiff
  rw [exec_bind]
  rcases exec_willCommit request s with ⟨-, hexec⟩ | ⟨commit, hexec⟩
  · rw [hexec]
    exact hsame
  rw [hexec]
  dsimp only
  rw [exec_bind]
  cases hclosed : s.zones.isClosed with
  | true =>
      have hcheck : s.zones.checkOpen = .error .closed := by
        simp [Zones.checkOpen, hclosed]
      rw [writeZone, exec_bind, exec_ofZones, hcheck]
      exact hsame
  | false =>
      have hzones : (commit.zones s.zones).Sound := Commit.sound_zones hsound
      have hbacked : Backed (commit.zones s.zones) c := Commit.backed_zones hsound hrep.backed
      rw [exec_writeZone commit _ s hclosed]
      set zones := commit.zones s.zones
      obtain ⟨before, hbefore⟩ := Option.isSome_iff_exists.1 (Zones.text?_isSome.2 hzones.kept)
      have hsize : zones.size? zones.active = some before.utf8ByteSize := by
        rw [Zones.size?, hbefore]
        rfl
      obtain ⟨text, t', s', c', hbuild, hlaid⟩ := Tree.buildDiff_lays
        (hrep.toMirrors.withZones zones) hfit hzones.positive
        fun b p hfiled => (hbacked.kept _ b p _ hfiled hbefore).1
      have hzonesEq : s'.zones = zones := by
        rw [hlaid.memory.rest]
        rfl
      rw [hsize, Option.getD_some, exec_bind, hbuild]
      -- the pages laid out are in memory, but the chart knows nothing of them
      show Represents s' c ∧ s'.zones.Sound ∧ s.Keeps s'
      refine ⟨⟨(hrep.toMirrors.withZones zones).extends hlaid.memory, ?_⟩, ?_, ?_⟩
      · rw [hzonesEq]
        exact hbacked
      · rw [hzonesEq]
        exact hzones
      · exact hlaid.memory.keeps

/-- The time of a commit is nothing to what memory and the zones hold. -/
theorem Represents.markCommit (hrep : Represents s c) : Represents s.markCommit c :=
  hrep.of_cells_eq rfl rfl

/-- Being told of a commit, a store keeps its time, and may close. -/
theorem exec_didCommit (commit : Commit) (s : Store) :
    ∃ s', exec (didCommit commit) s = (.ok (), s') ∧
      (s' = s.markCommit ∨ s' = s.markCommit.withZones s.zones.close) := by
  have hdid : exec (didCommit commit) s =
      exec (if s.takesPart && commit.closed then close else pure ()) s.markCommit := rfl
  rw [hdid]
  split
  · exact ⟨_, rfl, Or.inr rfl⟩
  · exact ⟨_, rfl, Or.inl rfl⟩

/-- Nothing comes between writing and installing, so a diff that has just been written is of the
tree of the trunk. -/
theorem Trunk.Wrote.installCommit_eq {t : Trunk} {diff : WrittenDiff}
    (hwrote : t.Wrote s c diff s' c') :
    t.installCommit diff.tree diff.committed diff.version =
      (true, { t with tree := diff.committed, version := diff.version + 1 }) := by
  have hat : t.isAt diff.tree diff.version = true := by
    rw [hwrote.tree, hwrote.version]
    simp [isAt, Tree.same, PageRef.same]
  rw [installCommit, if_pos hat]

/-- A commit does nothing, or it installs the tree whose diff it has written. -/
theorem Trunk.commit_cases (hrep : Represents s c) (hsound : s.zones.Sound) {t : Trunk}
    (hfit : c.Fit t.tree.kind t.tree.seed.stem t.version t.tree.root) (request : Commit) :
    t.hasWork request = false ∧ exec (t.commit request) s = (.ok (false, t), s) ∨
      s.zones.isClosed = true ∧ exec (t.commit request) s = (.error .closed, s) ∨
      ∃ diff s₁ s₂ c', t.Wrote s c diff s₁ c' ∧
        (s₂ = s₁.markCommit ∨ s₂ = s₁.markCommit.withZones s₁.zones.close) ∧
        exec (t.commit request) s =
          (.ok (true, { t with tree := diff.committed, version := t.version + 1 }), s₂) := by
  rcases t.writeDiff_cases hrep hsound hfit request with
    ⟨hidle, hexec⟩ | ⟨hclosed, hexec⟩ | ⟨diff, s₁, c', hexec, hwrote⟩
  · refine Or.inl ⟨hidle, ?_⟩
    rw [commit, exec_bind, hexec]
    rfl
  · refine Or.inr (Or.inl ⟨hclosed, ?_⟩)
    rw [commit, exec_bind, hexec]
  · have hinstall : exec (t.install diff) s₁ =
        (.ok { t with tree := diff.committed, version := t.version + 1 }, s₁) := by
      rw [install, hwrote.installCommit_eq, hwrote.version]
      rfl
    obtain ⟨s₂, hdone, hs₂⟩ := exec_didCommit diff.commit s₁
    refine Or.inr (Or.inr ⟨diff, s₁, s₂, c', hwrote, hs₂, ?_⟩)
    rw [commit, exec_bind, hexec]
    dsimp only
    rw [exec_bind, hinstall]
    dsimp only
    rw [exec_bind, hdone]
    rfl

/-- Only a closed store refuses a commit, and it is left alone. -/
theorem Trunk.closed_of_commit (hrep : Represents s c) (hsound : s.zones.Sound) {t : Trunk}
    (hfit : c.Fit t.tree.kind t.tree.seed.stem t.version t.tree.root) {request : Commit}
    {e : StoreError} (hexec : exec (t.commit request) s = (.error e, s')) :
    e = .closed ∧ s' = s := by
  rcases t.commit_cases hrep hsound hfit request with
    ⟨-, hexec'⟩ | ⟨-, hexec'⟩ | ⟨diff, s₁, s₂, c', -, -, hexec'⟩
  all_goals
    rw [hexec'] at hexec
    cases hexec
  exact ⟨rfl, rfl⟩

/-! ## Steps -/

/-- A system has gone on, by a chart that has grown. -/
structure Leads (origin : Tree) (x : System) (c : Chart) (y : System) (c' : Chart) : Prop where
  coherent : Coherent origin y c'
  le : c ≤ c'
  keeps : x.store.Keeps y.store
  resident : Resident x.store c → Resident y.store c'

/-- A system has gone on, and folds come from the foldings that they came from before. -/
structure LeadsWithin (origin : Tree) (x : System) (c : Chart) (y : System) (c' : Chart) : Prop
    extends Leads origin x c y c' where
  foldings : c'.foldings = c.foldings

theorem Leads.trans {x y z : System} (hleads : Leads origin x c y c')
    (hleads' : Leads origin y c' z c'') : Leads origin x c z c'' where
  coherent := hleads'.coherent
  le := Chart.le_trans hleads.le hleads'.le
  keeps := hleads.keeps.trans hleads'.keeps
  resident hall := hleads'.resident (hleads.resident hall)

namespace Coherent

variable {x y : System} {i : Nat} {request : Commit}

/-- A step that leaves the store alone. -/
theorem leads_of_store_eq (hy : Coherent origin y c) (hstore : y.store = x.store) :
    LeadsWithin origin x c y c where
  coherent := hy
  le := Chart.le_refl c
  keeps := by
    rw [hstore]
    exact .refl _
  resident hall := by
    rw [hstore]
    exact hall
  foldings := rfl

/-- A step that changes the store as operations on trees do. -/
theorem leads_of_grows (hy : Coherent origin y c') (hgrows : Grows x.store c y.store c') :
    LeadsWithin origin x c y c' :=
  ⟨⟨hy, hgrows.le, hgrows.keeps, hgrows.resident⟩, hgrows.foldings⟩

/-- What holds of a call goes on to hold at a later version. -/
theorem calls_grow (hx : Coherent origin x c) (hle : c ≤ c')
    (hversion : x.trunk.version ≤ version) (j : Nat) :
    (x.calls j).Sound c' origin x.log version j := by
  have hcall : (x.calls j).Sound c' origin (x.log ++ []) version j :=
    (hx.calls j).grow hle hversion (by simp)
  rwa [List.append_nil] at hcall

section Looking

variable {op : Operation} {a : Attempt} (hx : Coherent origin x c)
  (hfolds : ∀ f, x.Folds f → c.foldings f) (looking : x.calls i = .looking op a)
include hx hfolds looking

/-- What an operation makes of what has been looked at. -/
theorem computes {result : Tree × Option Value}
    (computed : exec (op.run a.snapshot) x.store = (.ok result, s)) :
    ∃ c', Grows x.store c s c' ∧ op.Makes a.snapshot (a.content origin x.log) c' result := by
  have hcall := hx.calls i
  rw [looking] at hcall
  have hsuits : op.Suits (a.content origin x.log).kind := by
    rw [Attempt.content, kind_replay]
    exact hcall.2.1
  exact Operation.makes_of_run hx.represents hcall.2.2.has hsuits
    (fun f hop => hfolds f ⟨i, by rw [looking, hop]; rfl⟩) computed

/-- An operation that fails on what has been looked at has at most brought pages into memory. -/
theorem fails {e : StoreError} (failed : exec (op.run a.snapshot) x.store = (.error e, s)) :
    ∃ c', Grows x.store c s c' := by
  have hcall := hx.calls i
  rw [looking] at hcall
  have hsuits : op.Suits (a.content origin x.log).kind := by
    rw [Attempt.content, kind_replay]
    exact hcall.2.1
  obtain ⟨c', hgrows, -⟩ := Operation.fails_of_run hx.represents hcall.2.2.has hsuits
    (fun f hop => hfolds f ⟨i, by rw [looking, hop]; rfl⟩) failed
  exact ⟨c', hgrows⟩

end Looking

section Committing

variable {snapshot : Trunk} {diff : WrittenDiff} {pairs : PageRef.CommitPairs} {current : Tree}

/-- The tree that a commit has begun with fits its version. -/
theorem fit_of_begun (hx : Coherent origin x c) (begun : x.stage = .begun snapshot request) :
    c.Fit snapshot.tree.kind snapshot.tree.seed.stem snapshot.version snapshot.tree.root := by
  have hstage := hx.stage
  rw [begun] at hstage
  obtain ⟨hversion, -, content, hhas⟩ := hstage
  rw [← hversion] at hhas
  exact hhas.fit

/-- The diff that a commit is given has been written of what it has begun with. -/
theorem wrote (hx : Coherent origin x c) (begun : x.stage = .begun snapshot request)
    (wrote : exec (snapshot.writeDiff request) x.store = (.ok (some diff), s)) :
    ∃ c', snapshot.Wrote x.store c diff s c' :=
  Trunk.wrote_of_writeDiff hx.represents hx.zones (hx.fit_of_begun begun) wrote

/-- A commit that has been overtaken finds the pairs of the two trees of its diff. -/
theorem pairs_up (hx : Coherent origin x c) (overtaken : x.stage = .overtaken diff) :
    ∃ pairs, exec (Trunk.pairsOf diff) x.store = (.ok pairs, x.store) ∧
      Gathers x.store c [(diff.tree.root, diff.committed.root)] [] pairs := by
  have hstage := hx.stage
  rw [overtaken] at hstage
  obtain ⟨content, hhas, hhas'⟩ := hstage.has
  exact PageRef.pairCommitted_gathers hx.represents.toMirrors hhas.fit.refs hhas'.fit.refs
    hstage.twin

/-- What a commit that has been overtaken gathers. -/
theorem gathers (hx : Coherent origin x c) (overtaken : x.stage = .overtaken diff)
    (gathered : exec (Trunk.pairsOf diff) x.store = (.ok pairs, s)) :
    s = x.store ∧ Gathers x.store c [(diff.tree.root, diff.committed.root)] [] pairs := by
  obtain ⟨pairs', hexec, hgathers⟩ := hx.pairs_up overtaken
  rw [hexec] at gathered
  cases gathered
  exact ⟨rfl, hgathers⟩

/-- A commit that has been overtaken rebases a tree without a change to its content. -/
theorem rebases (hx : Coherent origin x c) (rebasing : x.stage = .rebasing diff pairs current) :
    ∃ content, c.Has x.trunk.version current content ∧
      Runs (current.rebased pairs) x.store c fun tree s' c' =>
        current.Rerooted tree ∧ c'.Has x.trunk.version tree content ∧
          Rebased s' pairs current.root tree.root := by
  have hstage := hx.stage
  rw [rebasing] at hstage
  obtain ⟨-, hpairs, -, content, hhas⟩ := hstage
  exact ⟨content, hhas, Tree.rebased_runs hx.represents hhas hpairs⟩

end Committing

/-- The tree of a call is swapped in. -/
theorem swap (hx : Coherent origin x c) {op : Operation} {a : Attempt} {tree : Tree}
    {answer : Option Value} {trunk : Trunk}
    (hcall : Call.Sound c origin x.log x.trunk.version i (.ready op a tree answer))
    (hswapped : x.trunk.updateTree a.snapshot.tree tree a.snapshot.version = (true, trunk)) :
    Coherent origin ({ x with trunk, log := x.log ++ [(i, op)] }.setCall i
      (.done op a tree answer true)) c := by
  obtain ⟨hlog, -, ha, hrerooted, hhas, hanswers⟩ := hcall
  obtain ⟨hat, rfl⟩ := Trunk.eq_of_updateTree hswapped
  obtain ⟨hversion, hcontent⟩ := hx.content_eq hat ha.has
  rw [← hcontent] at hhas hanswers
  rw [← hversion] at hhas
  exact {
    represents := hx.represents
    zones := hx.zones
    kin := ha.kin.trans hrerooted.kin
    has := by
      rw [System.setCall, replay_append]
      exact hhas
    distinct := by
      simp only [System.setCall, List.map_append, List.map_cons, List.map_nil]
      exact List.nodup_append.2 ⟨hx.distinct, List.nodup_singleton i, by
        intro j hj k hk hsame
        rw [hsame, List.mem_singleton.1 hk] at hj
        exact hlog hj⟩
    calls := by
      -- the log has one call more, and only that call answers for it
      intro j
      simp only [System.setCall]
      split
      · next heq =>
          subst heq
          exact ⟨x.log, [], rfl, hanswers⟩
      · next hne => exact (hx.calls j).grow (Chart.le_refl c) (Nat.le_refl _) (by simpa using hne)
    stage := hx.stage
    softeners := hx.softeners
    readers := hx.readers
    filed := hx.filed }

theorem raisePost (hx : Coherent origin x c) (post : Nat) :
    Coherent origin { x with trunk := x.trunk.raisePost post } c where
  represents := hx.represents
  zones := hx.zones
  kin := hx.kin
  has := hx.has
  distinct := hx.distinct
  calls := hx.calls
  stage := hx.stage
  softeners := hx.softeners
  readers := hx.readers
  filed := hx.filed

/-- A call finds what it needs, and what it swaps in is what its operation makes of the content
of the trunk. -/
theorem client_step (hx : Coherent origin x c) (hfolds : ∀ f, x.Folds f → c.foldings f)
    (hstep : System.ClientStep x y) :
    ∃ c', Coherent origin y c' ∧ Grows x.store c y.store c' := by
  -- to run an operation makes the chart grow; the other steps only change the stage of a call
  cases hstep with
  | @call i op unused suits =>
      have hcall := hx.calls i
      rw [unused] at hcall
      rw [Tree.kind, hx.kin.kind] at suits
      exact ⟨c, hx.setCall ⟨hcall, suits⟩, .refl hx.represents⟩
  | @look i op waiting =>
      have hcall := hx.calls i
      rw [waiting] at hcall
      exact ⟨c, hx.setCall ⟨hcall.1, hcall.2, hx.attempt⟩, .refl hx.represents⟩
  | @compute i op a tree answer s looking computed =>
      have hcall := hx.calls i
      rw [looking] at hcall
      obtain ⟨c', hgrows, hmakes⟩ := hx.computes hfolds looking computed
      have ha := hcall.2.2.mono hgrows.le
      exact ⟨c', (hx.grows hgrows).setCall ⟨hcall.1, hcall.2.1, ha, hmakes⟩, hgrows⟩
  | @fail i op a e s looking failed =>
      have hcall := hx.calls i
      rw [looking] at hcall
      obtain ⟨c', hgrows⟩ := hx.fails hfolds looking failed
      exact ⟨c', (hx.grows hgrows).setCall ⟨hcall.1, hcall.2.1⟩, hgrows⟩
  | @retry i op e failed =>
      have hcall := hx.calls i
      rw [failed] at hcall
      exact ⟨c, hx.setCall hcall, .refl hx.represents⟩
  | @keep i op a tree answer ready same =>
      have hcall := hx.calls i
      rw [ready] at hcall
      obtain ⟨hlog, -, ha, hmakes⟩ := hcall
      exact ⟨c, hx.setCall ⟨hlog, same, ha, hmakes⟩, .refl hx.represents⟩
  | @swap i op a tree answer trunk ready moved swapped =>
      have hcall := hx.calls i
      rw [ready] at hcall
      exact ⟨c, hx.swap hcall swapped, .refl hx.represents⟩
  | @lose i op a tree answer trunk ready moved lost =>
      have hcall := hx.calls i
      rw [ready] at hcall
      exact ⟨c, hx.setCall ⟨hcall.1, hcall.2.1⟩, .refl hx.represents⟩
  | raisePost post => exact ⟨c, hx.raisePost post, .refl hx.represents⟩

/-- A diff has been written. -/
theorem write (hx : Coherent origin x c) {snapshot : Trunk} {diff : WrittenDiff}
    (hstage : Stage.Sound c origin x.trunk.version (.begun snapshot request))
    (hwrote : snapshot.Wrote x.store c diff s c') :
    Coherent origin { x with
      store := s
      stage := .written diff
      filed := fun z b p => x.filed z b p ∨ Filing diff.committed.root s z b p } c' where
  represents := hwrote.represents
  zones := hwrote.sound
  kin := hx.kin
  has := hx.has.mono hwrote.le
  distinct := hx.distinct
  calls := hx.calls_grow hwrote.le (Nat.le_refl _)
  stage := by
    obtain ⟨hversion, hkin, content, hhas⟩ := hstage
    obtain ⟨text, start, -, -, -, hcp⟩ := hwrote.text
    have hfit := (hhas.mono hwrote.le).fit
    have hkin' : snapshot.tree.Kin diff.committed :=
      ⟨hwrote.kind, hwrote.stem, hwrote.isTransient⟩
    rw [← hversion] at hhas ⊢
    refine ⟨hwrote.version, ?_, hkin.trans hkin', ⟨content, ?_, hwrote.has hhas⟩, ?_⟩
    · rw [hwrote.tree]
      exact hkin
    · rw [hwrote.tree]
      exact hhas.mono hwrote.le
    · rw [hwrote.tree]
      exact hcp.twin hwrote.represents.toMirrors hfit.refs hwrote.fit.refs
  softeners t ht := hwrote.le.refs _ (hx.softeners t ht)
  readers r hr := hwrote.le.refs _ (hx.readers r hr)
  filed zone base p := by
    show x.filed zone base p ∨ Filing diff.committed.root s zone base p ↔ _
    rw [hx.filed zone base p]
    exact hwrote.filed_iff zone base p

/-- A tree of the commit is swapped in, under the next version. -/
theorem install (hx : Coherent origin x c) {old tree : Tree} {commit : Commit} {trunk : Trunk}
    {content : Content} (hkin : origin.Kin tree) (hold : c.Has version old content)
    (hhas : c.Has version tree content)
    (hinstalled : x.trunk.installCommit old tree version = (true, trunk)) :
    Coherent origin ({ x with trunk }.withStage (.installed commit)) c := by
  obtain ⟨hat, rfl⟩ := Trunk.eq_of_installCommit hinstalled
  obtain ⟨hversion, hcontent⟩ := hx.content_eq hat hold
  have hle : x.trunk.version ≤ version + 1 := by omega
  exact {
    represents := hx.represents
    zones := hx.zones
    kin := hkin
    has := by
      simp only [System.withStage]
      rw [hcontent]
      exact hhas.raise (Nat.le_succ version)
    distinct := hx.distinct
    calls := hx.calls_grow (Chart.le_refl c) hle
    stage := trivial
    softeners := hx.softeners
    readers := hx.readers
    filed := hx.filed }

/-- A commit installs trees with the content of the trunk. -/
theorem commit_step (hx : Coherent origin x c) (hstep : System.CommitStep x y) :
    ∃ c', LeadsWithin origin x c y c' := by
  have hstage := hx.stage
  -- to write and to rebase makes the chart grow; the other steps leave it as it is
  cases hstep with
  | begin request idle =>
      exact ⟨c, leads_of_store_eq (hx.withStage ⟨rfl, hx.kin, _, hx.has⟩) rfl⟩
  | @skip snapshot request s begun skipped =>
      obtain ⟨-, rfl⟩ :=
        Trunk.idle_of_writeDiff hx.represents hx.zones (hx.fit_of_begun begun) skipped
      exact ⟨c, leads_of_store_eq (hx.withStage trivial) rfl⟩
  | @write snapshot request diff s begun wrote =>
      obtain ⟨c', hwrote⟩ := hx.wrote begun wrote
      rw [begun] at hstage
      refine ⟨c', ⟨hx.write hstage hwrote, hwrote.le, ?_, hwrote.resident⟩, hwrote.foldings⟩
      intro r copy hcopy
      rw [Store.hold, hwrote.cells _ (Store.lt_of_copy hcopy), Store.hold]
  | @refuse snapshot request e s begun refused =>
      obtain ⟨-, rfl⟩ :=
        Trunk.closed_of_writeDiff hx.represents hx.zones (hx.fit_of_begun begun) refused
      exact ⟨c, leads_of_store_eq (hx.withStage trivial) rfl⟩
  | @spoil snapshot request e s begun spoiled =>
      obtain ⟨hrep, hzones, hkeeps⟩ :=
        snapshot.spoilDiff_represents hx.represents hx.zones (hx.fit_of_begun begun) request
      rw [spoiled] at hrep hzones hkeeps
      refine ⟨c, ⟨(hx.withStore hrep hzones (Chart.le_refl c) rfl).withStage trivial,
        Chart.le_refl c, hkeeps, fun hall r hr => ?_⟩, rfl⟩
      obtain ⟨copy, hcopy⟩ := Option.isSome_iff_exists.1 (hall r hr)
      exact Option.isSome_iff_exists.2 ⟨copy, hkeeps.copies hcopy⟩
  | @install diff trunk written installed =>
      rw [written] at hstage
      obtain ⟨content, hhas, hhas'⟩ := hstage.has
      rw [hstage.version_eq] at installed
      exact ⟨c, leads_of_store_eq (hx.install hstage.committedKin hhas hhas' installed) rfl⟩
  | @miss diff trunk written missed =>
      rw [written] at hstage
      exact ⟨c, leads_of_store_eq (hx.withStage hstage) rfl⟩
  | @pair diff pairs s overtaken gathered =>
      obtain ⟨rfl, hgathers⟩ := hx.gathers overtaken gathered
      rw [overtaken] at hstage
      exact ⟨c, leads_of_store_eq
        (hx.withStage ⟨hstage.version_eq, PageRef.pairs_of_gathers hgathers⟩) rfl⟩
  | @look diff pairs paired =>
      rw [paired] at hstage
      exact ⟨c, leads_of_store_eq (hx.withStage ⟨hstage.1, hstage.2, hx.kin, _, hx.has⟩) rfl⟩
  | @rebase diff pairs current tree s rebasing rebased =>
      obtain ⟨content, hhas, hruns⟩ := hx.rebases rebasing
      obtain ⟨c', hgrows, hrerooted, hhas', -⟩ := hruns.of_ok rebased
      rw [rebasing] at hstage
      obtain ⟨hversion, hpairs, hkin, -⟩ := hstage
      exact ⟨c', leads_of_grows ((hx.grows hgrows).withStage ⟨hversion, hpairs.mono hgrows.le,
        hkin.trans hrerooted.kin, content, hhas.mono hgrows.le, hhas'⟩) hgrows⟩
  | @abort diff pairs current e s rebasing failed =>
      obtain ⟨content, -, hruns⟩ := hx.rebases rebasing
      obtain ⟨c', hgrows, -⟩ := hruns.of_error failed
      exact ⟨c', leads_of_grows ((hx.grows hgrows).withStage trivial) hgrows⟩
  | @installRebased diff pairs current tree trunk rebased installed =>
      rw [rebased] at hstage
      obtain ⟨hversion, hpairs, hkin, content, hhas, hhas'⟩ := hstage
      rw [hversion] at installed
      exact ⟨c, leads_of_store_eq (hx.install hkin hhas hhas' installed) rfl⟩
  | @missRebased diff pairs current tree trunk rebased missed =>
      rw [rebased] at hstage
      exact ⟨c, leads_of_store_eq (hx.withStage ⟨hstage.1, hstage.2.1⟩) rfl⟩
  | @finish commit s installed finished =>
      obtain ⟨s', hexec, hs'⟩ := exec_didCommit commit x.store
      rw [hexec] at finished
      cases finished
      rcases hs' with rfl | rfl
      · exact ⟨c, ⟨(hx.withStore hx.represents.markCommit hx.zones (Chart.le_refl c) rfl).withStage
          trivial, Chart.le_refl c, .of_cells_eq rfl, fun hall => hall⟩, rfl⟩
      · have hrep : Represents (x.store.markCommit.withZones x.store.zones.close) c :=
          ⟨hx.represents.markCommit.toMirrors.withZones _, hx.represents.backed.close⟩
        exact ⟨c, ⟨(hx.withStore hrep hx.zones.close (Chart.le_refl c) rfl).withStage trivial,
          Chart.le_refl c, .of_cells_eq rfl, fun hall => hall⟩, rfl⟩

/-- A step of a call or of the commit, where folds may come from all that calls fold with. -/
theorem quiet_step_within (hx : Coherent origin x c) (hfolds : ∀ f, x.Folds f → c.foldings f)
    (hstep : System.QuietStep x y) : ∃ c', LeadsWithin origin x c y c' := by
  rcases hstep with hstep | hstep
  · obtain ⟨c', hy, hgrows⟩ := hx.client_step hfolds hstep
    exact ⟨c', hy.leads_of_grows hgrows⟩
  · exact hx.commit_step hstep

/-- A step of a call or of the commit. -/
theorem quiet_step (hx : Coherent origin x c) (hstep : System.QuietStep x y) :
    ∃ c', Leads origin x c y c' := by
  obtain ⟨c', hleads⟩ := (hx.allow x.Folds).quiet_step_within (fun _ hf => Or.inr hf) hstep
  exact ⟨c', hleads.coherent, Chart.le_trans (c.le_allow _) hleads.le, hleads.keeps,
    hleads.resident⟩

/-- The zones change, and the texts of filed pages stay where they are. -/
theorem withZones (hx : Coherent origin x c) {zones : Zones} (hsound : zones.Sound)
    (hbacked : Backed zones c) : Coherent origin (x.withStore (x.store.withZones zones)) c :=
  hx.withStore ⟨hx.represents.toMirrors.withZones zones, hbacked⟩ hsound (Chart.le_refl c) rfl

/-- Memory changes, and the zones stay as they are. -/
theorem withMemory (hx : Coherent origin x c) (hrep : Represents s c)
    (hzones : s.zones = x.store.zones) : Coherent origin (x.withStore s) c :=
  hx.withStore hrep (by rw [hzones]; exact hx.zones) (Chart.le_refl c) rfl

/-- Whoever else does something leaves all trees what they are. -/
theorem store_step (hx : Coherent origin x c) (hstep : System.StoreStep x y) :
    ∃ c', Coherent origin y c' ∧ c ≤ c' ∧ c'.foldings = c.foldings := by
  cases hstep with
  | lookToSoften =>
      refine ⟨c, { hx with softeners := ?_ }, Chart.le_refl c, rfl⟩
      intro t ht
      rcases List.mem_cons.1 ht with rfl | ht
      · exact hx.root
      · exact hx.softeners t ht
  | soften looked =>
      obtain ⟨hrep, hrecelled⟩ := Trunk.soften_loosens (hx.softeners _ looked) _ hx.represents
      refine ⟨c, hx.withMemory hrep ?_, Chart.le_refl c, rfl⟩
      rw [hrecelled]
  | lookToRead =>
      refine ⟨c, { hx with readers := ?_ }, Chart.le_refl c, rfl⟩
      intro r hr
      rcases List.mem_cons.1 hr with rfl | hr
      · exact hx.root
      · exact hx.readers r hr
  | visit looked found =>
      obtain ⟨c', hgrows, -, hrefs⟩ :=
        (PageRef.page_runs hx.represents (hx.readers _ looked)).of_ok found
      refine ⟨c', { hx.grows hgrows with readers := ?_ }, hgrows.le, hgrows.foldings⟩
      intro r hr
      rcases List.mem_append.1 hr with hr | hr
      · exact hrefs r hr
      · exact hgrows.le.refs r (hx.readers r hr)
  | visitInVain looked failed =>
      obtain ⟨c', hgrows, -⟩ :=
        (PageRef.page_runs hx.represents (hx.readers _ looked)).of_error failed
      exact ⟨c', hx.grows hgrows, hgrows.le, hgrows.foldings⟩
  | reclaim holders =>
      exact ⟨c, hx.withMemory (hx.represents.reclaim holders) rfl, Chart.le_refl c, rfl⟩
  | shiftZone =>
      exact ⟨c, hx.withZones hx.zones.shift (hx.represents.backed.shift hx.zones),
        Chart.le_refl c, rfl⟩
  | deleteZone id =>
      exact ⟨c, hx.withZones (hx.zones.delete id) (hx.represents.backed.delete id),
        Chart.le_refl c, rfl⟩
  | append request text =>
      refine ⟨c, ?_, Chart.le_refl c, rfl⟩
      cases hclosed : x.store.zones.isClosed with
      | true =>
          have hcheck : x.store.zones.checkOpen = .error .closed := by
            simp [Zones.checkOpen, hclosed]
          rw [writeZone, exec_bind, exec_ofZones, hcheck]
          exact hx
      | false =>
          have hzones : (request.zones x.store.zones).Sound := Commit.sound_zones hx.zones
          have hbacked : Backed (request.zones x.store.zones) c :=
            Commit.backed_zones hx.zones hx.represents.backed
          rw [exec_writeZone request _ x.store hclosed]
          exact hx.withZones (hzones.append text) (hbacked.append_any text)
  | failNext count =>
      exact ⟨c, hx.withMemory (hx.represents.of_cells_eq rfl rfl) rfl, Chart.le_refl c, rfl⟩
  | close => exact ⟨c, hx.withZones hx.zones.close hx.represents.backed.close, Chart.le_refl c, rfl⟩
  | tick now =>
      exact ⟨c, hx.withMemory (hx.represents.of_cells_eq rfl rfl) rfl, Chart.le_refl c, rfl⟩
  | pass nanos =>
      exact ⟨c, hx.withMemory (hx.represents.of_cells_eq rfl rfl) rfl, Chart.le_refl c, rfl⟩

/-- A step of anyone, where folds may come from all that calls fold with. -/
theorem step_within (hx : Coherent origin x c) (hfolds : ∀ f, x.Folds f → c.foldings f)
    (hstep : System.Step x y) : ∃ c', Coherent origin y c' ∧ c ≤ c' ∧ c'.foldings = c.foldings := by
  rcases hstep with hquiet | hstore
  · obtain ⟨c', hleads⟩ := hx.quiet_step_within hfolds hquiet
    exact ⟨c', hleads.coherent, hleads.le, hleads.foldings⟩
  · exact hx.store_step hstore

/-- A step of anyone. -/
theorem step (hx : Coherent origin x c) (hstep : System.Step x y) :
    ∃ c', Coherent origin y c' ∧ c ≤ c' := by
  obtain ⟨c', hy, hle, -⟩ := (hx.allow x.Folds).step_within (fun _ hf => Or.inr hf) hstep
  exact ⟨c', hy, Chart.le_trans (c.le_allow _) hle⟩

/-! ## Runs -/

/-- A new system is coherent, with all its pages in memory and without folds. -/
theorem of_starts_within {seed : Seed} (hstarts : System.Starts seed x) :
    ∃ c, Coherent x.trunk.tree x c ∧ Resident x.store c ∧ x.trunk.tree.seed = seed ∧
      ∀ f, ¬ c.foldings f := by
  obtain ⟨settings, takesPart, now, tree, isResident, isTransient, hexec, htrunk⟩ := hstarts.tree
  have hruns := Tree.empty_runs (represents_blank (Store.create settings takesPart now)) seed
  obtain ⟨c, hgrows, hrerooted, hhas⟩ := hruns.of_ok hexec
  have hseed : tree.seed = seed := hrerooted.seed_eq
  have hkind : Tree.kind { tree with isResident, isTransient } = seed.kind := by
    rw [Tree.kind, hseed]
  refine ⟨c, ?_, hgrows.resident fun r hr => absurd hr id, by rw [htrunk]; exact hseed,
    by rw [hgrows.foldings]; exact fun _ => id⟩
  exact {
    represents := hgrows.represents
    zones := by
      rw [hgrows.zones]
      exact Zones.sound_start
    kin := .refl _
    has := by
      rw [htrunk, hstarts.log]
      show c.Has 1 { tree with isResident, isTransient } (.empty (Tree.kind _))
      rw [Trunk.ofTree, hkind]
      exact (hhas.raise (Nat.zero_le 1)).congr rfl rfl rfl
    distinct := by
      rw [hstarts.log]
      exact List.nodup_nil
    calls := by
      intro i
      rw [hstarts.calls i, hstarts.log]
      exact List.not_mem_nil
    stage := by
      rw [hstarts.stage]
      trivial
    softeners := by simp [hstarts.softeners]
    readers := by simp [hstarts.readers]
    filed := by
      intro zone base p
      rw [hgrows.filed]
      simp [hstarts.filed, Chart.blank] }

/-- A new system is coherent, with all its pages in memory. -/
theorem of_starts {seed : Seed} (hstarts : System.Starts seed x) :
    ∃ c, Coherent x.trunk.tree x c ∧ Resident x.store c ∧ x.trunk.tree.seed = seed := by
  obtain ⟨c, hx, hall, hseed, -⟩ := of_starts_within hstarts
  exact ⟨c, hx, hall, hseed⟩

/-- A run of calls and commits. -/
theorem quiet_run (hx : Coherent origin x c)
    (hrun : Relation.ReflTransGen System.QuietStep x y) : ∃ c', Leads origin x c y c' := by
  induction hrun with
  | refl => exact ⟨c, (hx.leads_of_store_eq rfl).toLeads⟩
  | tail _ hstep ih =>
      obtain ⟨c', hleads⟩ := ih
      obtain ⟨c'', hleads'⟩ := hleads.coherent.quiet_step hstep
      exact ⟨c'', hleads.trans hleads'⟩

/-- A run of anyone. -/
theorem run (hx : Coherent origin x c) (hrun : Relation.ReflTransGen System.Step x y) :
    ∃ c', Coherent origin y c' ∧ c ≤ c' := by
  induction hrun with
  | refl => exact ⟨c, hx, Chart.le_refl c⟩
  | tail _ hstep ih =>
      obtain ⟨c', hy, hle⟩ := ih
      obtain ⟨c'', hy', hle'⟩ := hy.step hstep
      exact ⟨c'', hy', Chart.le_trans hle hle'⟩

end Coherent
end PageTree
