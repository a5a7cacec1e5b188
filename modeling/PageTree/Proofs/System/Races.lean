import PageTree.Proofs.System.Replay

/-!
# Commits that are overtaken

While a commit is under way, others go on to swap in trees.  `Stage.Follows` says what the commit
has done since it looked at the trunk: at most one text has been appended, the pages of its
snapshot have their counterparts in it, and the pairs that it has gathered are these.  From that,
a commit that comes to its end has replaced just the pages that it has written
(`System.commit_carries`).
-/

namespace PageTree

open StoreM

variable {s s' : Store} {c c' : Chart} {zone start : Nat} {text : List Char}
  {root root' r r' m k : PageRef} {pairs : PageRef.CommitPairs}

/-! ## Pairs -/

/-- The second reference is in memory at the place of the first. -/
theorem Store.Paired.within (hpaired : s.Paired root root' m k) : s.Within root m := by
  induction hpaired with
  | self => exact .self _
  | beneath hold _ child _ ih =>
      exact .beneath (by rw [hold]; rfl) (List.of_mem_zip child).1 ih

theorem Store.Paired.keep (hkeeps : s.Keeps s') (hpaired : s.Paired root root' m k) :
    s'.Paired root root' m k := by
  induction hpaired with
  | self => exact .self _ _
  | beneath hold hold' child _ ih =>
      exact .beneath (hkeeps.strong hold) (hkeeps.strong hold') child ih

theorem eq_of_mem_zip_self {α : Type} {as : List α} {a b : α} (hmem : (a, b) ∈ as.zip as) :
    a = b := by
  have hall : List.Forall₂ Eq as as := by simp
  exact List.forall₂_zip hall hmem

/-- References at the same place of a tree and its counterpart are counterparts. -/
theorem Store.Paired.counterpart (hrep : Mirrors s c) (hpaired : s.Paired root root' m k)
    (hroot : c.refs root) (hcp : Counterpart s zone start text root root') :
    Counterpart s zone start text m k := by
  induction hpaired with
  | self => exact hcp
  | @beneath a a' m m' r r' copy copy' hold hold' child _ ih =>
      have hheld := hrep.held a copy hroot (by rw [hold]; rfl)
      have hm := (List.of_mem_zip child).1
      refine ih (hheld.2 m hm) ?_
      cases hcommitted : a.isCommitted with
      | true =>
          -- a committed page is its own counterpart, and so are those beneath it
          have hsame : a' = a := by
            cases hcp with
            | kept => rfl
            | written huncommitted =>
                rw [hcommitted] at huncommitted
                cases huncommitted
          subst hsame
          rw [hold] at hold'
          cases hold'
          obtain rfl := eq_of_mem_zip_self child
          exact .kept (PageRef.isCommitted_of_within hrep hroot
            (.beneath (by rw [hold]; rfl) hm (.self _)) hcommitted)
      | false =>
          obtain ⟨copy₁, copy₁', hhold, hhold', -, -, hrebuilt⟩ := hcp.pages hcommitted
          rw [hold] at hhold
          rw [hold'] at hhold'
          cases hhold
          cases hhold'
          exact List.forall₂_zip hrebuilt.children child

/-- An uncommitted page that a tree leads to was there before memory was added to. -/
theorem Store.Keeps.within_back (hrep : Mirrors s c) (hrep' : Mirrors s' c') (hle : c ≤ c')
    (hkeeps : s.Keeps s') (hroot : c.refs root) (hwithin : s'.Within root m)
    (huncommitted : m.isCommitted = false) : s.Within root m := by
  induction hwithin with
  | self => exact .self _
  | @beneath r m k copy held child within ih =>
      have hr : r.isCommitted = false := by
        cases hcommitted : r.isCommitted with
        | false => rfl
        | true =>
            have hk := PageRef.isCommitted_of_within hrep' (hle.refs r hroot)
              (.beneath held child within) hcommitted
            rw [hk] at huncommitted
            cases huncommitted
      obtain ⟨copy', hhold⟩ := hrep.strong r hroot hr
      rw [hkeeps.strong hhold] at held
      cases held
      have hheld := hrep.held r copy hroot (by rw [hhold]; rfl)
      exact .beneath (by rw [hhold]; rfl) child (ih (hheld.2 m child) huncommitted)

/-- The pairs are those of the uncommitted pages of a tree and of what stands in their places in
another. -/
structure PageRef.CommitPairs.Match (pairs : PageRef.CommitPairs) (s : Store)
    (root root' : PageRef) : Prop where
  paired : ∀ pair ∈ pairs, ∃ m, m.id = pair.1 ∧ s.Paired root root' m pair.2
  complete : ∀ m, s.Within root m → m.isCommitted = false → ∃ k, (m.id, k) ∈ pairs

theorem PageRef.CommitPairs.Match.keep (hmatch : pairs.Match s root root') (hrep : Mirrors s c)
    (hrep' : Mirrors s' c') (hle : c ≤ c') (hkeeps : s.Keeps s') (hroot : c.refs root) :
    pairs.Match s' root root' := by
  constructor
  · intro pair hmem
    obtain ⟨m, hid, hpaired⟩ := hmatch.paired pair hmem
    exact ⟨m, hid, hpaired.keep hkeeps⟩
  · intro m hwithin huncommitted
    exact hmatch.complete m
      (hkeeps.within_back hrep hrep' hle hroot hwithin huncommitted) huncommitted

theorem PageRef.CommitPairs.match_of_gathers
    (hgathers : Gathers s c [(root, root')] [] pairs)
    (hcp : Counterpart s zone start text root root') : pairs.Match s root root' := by
  constructor
  · intro pair hmem
    rcases hgathers.sound pair hmem with hnil | ⟨a, ha, m, hid, hpaired, -⟩
    · cases hnil
    · obtain rfl := List.mem_singleton.1 ha
      exact ⟨m, hid, hpaired⟩
  · intro m hwithin huncommitted
    exact hgathers.complete _ (List.mem_singleton_self _) zone start text hcp m hwithin huncommitted

/-! ## What a commit makes of a tree -/

/-- What a commit of a snapshot makes of the tree that others have moved on to: an uncommitted
page of the snapshot gives way to its counterpart in the diff, a committed page stays, and any
other page is still uncommitted and held strongly, over what became of its children. -/
inductive Carried (s : Store) (zone start : Nat) (text : List Char) (root : PageRef) :
    PageRef → PageRef → Prop where
  | shared {r k : PageRef} (within : s.Within root r) (uncommitted : r.isCommitted = false)
      (counterpart : Counterpart s zone start text r k) : Carried s zone start text root r k
  | committed {r : PageRef} (committed : r.isCommitted = true) : Carried s zone start text root r r
  | apart {r r' : PageRef} {copy copy' : PageCopy} (apart : ¬ s.Within root r)
      (uncommitted : r.isCommitted = false) (uncommitted' : r'.isCommitted = false)
      (hold : s.hold r = .strong copy) (hold' : s.hold r' = .strong copy')
      (version : copy'.page.version = copy.page.version) (stem : copy'.page.stem = copy.page.stem)
      (shape : copy'.page.body.shape = copy.page.body.shape)
      (length : copy.page.children.length = copy'.page.children.length)
      (children : ∀ i h h', Carried s zone start text root (copy.page.children.get ⟨i, h⟩)
        (copy'.page.children.get ⟨i, h'⟩)) : Carried s zone start text root r r'

/-- Rebasing on the pairs of a snapshot and its counterpart carries a tree over. -/
theorem Rebased.carried (hrep : Mirrors s c) (hroot : c.refs root)
    (hcp : Counterpart s zone start text root root') (hmatch : pairs.Match s root root')
    (hrebased : Rebased s pairs r r') (hr : c.refs r) : Carried s zone start text root r r' := by
  induction hrebased with
  | @replaced r k found =>
      obtain ⟨m, hid, hpaired⟩ := hmatch.paired _ (PageRef.CommitPairs.mem_of_find? found)
      have hm := hrep.refs_within hroot hpaired.within
      obtain rfl := hrep.unique m r hm hr hid
      have hk : Counterpart s zone start text m k := hpaired.counterpart hrep hroot hcp
      cases hcommitted : m.isCommitted with
      | true =>
          cases hk with
          | kept => exact .committed hcommitted
          | written huncommitted =>
              rw [hcommitted] at huncommitted
              cases huncommitted
      | false => exact .shared hpaired.within hcommitted hk
  | committed absent isCommitted => exact .committed isCommitted
  | rebuilt absent uncommitted uncommitted' hold hold' version stem shape length _ ih =>
      have hheld := hrep.held _ _ hr (by rw [hold]; rfl)
      refine .apart ?_ uncommitted uncommitted' hold hold' version stem shape length
        fun i h h' => ih i h h' (hheld.2 _ (List.get_mem _ _))
      intro hwithin
      obtain ⟨k, hk⟩ := hmatch.complete _ hwithin uncommitted
      obtain ⟨k', hk'⟩ := PageRef.CommitPairs.exists_find? hk
      rw [absent] at hk'
      cases hk'

/-- A tree that has not moved is carried over to its counterpart. -/
theorem Counterpart.carried (hcp : Counterpart s zone start text root root') :
    Carried s zone start text root root root' := by
  cases hcommitted : root.isCommitted with
  | true =>
      cases hcp with
      | kept => exact .committed hcommitted
      | written huncommitted =>
          rw [hcommitted] at huncommitted
          cases huncommitted
  | false => exact .shared (.self root) hcommitted hcp

/-! ## The course of a commit -/

/-- The diff is that of the tree of a system, and its text is all that has been appended to the
zones of the system. -/
structure WrittenDiff.Follows (diff : WrittenDiff) (base : System) (s : Store) : Prop where
  tree : diff.tree = base.trunk.tree
  version : diff.version = base.trunk.version
  isTransient : base.trunk.tree.isTransient = false
  zone : diff.zone = (diff.commit.zones base.store.zones).active
  text : ∃ text start, s.zones =
      (diff.commit.zones base.store.zones).append (String.ofList text) ∧
    (diff.commit.zones base.store.zones).size? diff.zone = some start ∧
    Counterpart s diff.zone start text base.trunk.tree.root diff.committed.root

theorem WrittenDiff.Follows.keep {diff : WrittenDiff} {base : System}
    (hfollows : diff.Follows base s) (hkeeps : s.Keeps s') (hzones : s'.zones = s.zones) :
    diff.Follows base s' := by
  obtain ⟨text, start, htext, hstart, hcp⟩ := hfollows.text
  exact ⟨hfollows.tree, hfollows.version, hfollows.isTransient, hfollows.zone, text, start,
    hzones.trans htext, hstart, hcp.keep hkeeps (List.prefix_refl _)⟩

/-- What a commit has done since it looked at the trunk of a system. -/
def Stage.Follows (base : System) (s : Store) : Stage → Prop
  | .idle => False
  | .begun snapshot _ => snapshot = base.trunk ∧ s.zones = base.store.zones
  | .written diff | .overtaken diff => diff.Follows base s
  | .paired diff pairs | .rebasing diff pairs _ =>
    diff.Follows base s ∧ pairs.Match s base.trunk.tree.root diff.committed.root
  | .rebased diff pairs current tree =>
    diff.Follows base s ∧ pairs.Match s base.trunk.tree.root diff.committed.root ∧
      Rebased s pairs current.root tree.root
  | .installed _ => True

theorem Stage.Follows.keep {base : System} {stage : Stage} (hfollows : stage.Follows base s)
    (hrep : Mirrors s c) (hrep' : Mirrors s' c') (hle : c ≤ c') (hkeeps : s.Keeps s')
    (hzones : s'.zones = s.zones) (hroot : c.refs base.trunk.tree.root) :
    stage.Follows base s' := by
  cases stage with
  | idle => exact hfollows
  | installed => trivial
  | begun snapshot request => exact ⟨hfollows.1, hzones.trans hfollows.2⟩
  | written diff => exact WrittenDiff.Follows.keep hfollows hkeeps hzones
  | overtaken diff => exact WrittenDiff.Follows.keep hfollows hkeeps hzones
  | paired diff pairs =>
      exact ⟨hfollows.1.keep hkeeps hzones, hfollows.2.keep hrep hrep' hle hkeeps hroot⟩
  | rebasing diff pairs current =>
      exact ⟨hfollows.1.keep hkeeps hzones, hfollows.2.keep hrep hrep' hle hkeeps hroot⟩
  | rebased diff pairs current tree =>
      exact ⟨hfollows.1.keep hkeeps hzones, hfollows.2.1.keep hrep hrep' hle hkeeps hroot,
        hfollows.2.2.keep hkeeps⟩

/-- A step of a call, or of the commit under way. -/
def System.RaceStep (x y : System) : Prop :=
  ClientStep x y ∨ CommitStep x y ∧ y.stage ≠ .idle

theorem System.RaceStep.quiet {x y : System} (hstep : RaceStep x y) : QuietStep x y :=
  hstep.imp_right And.left

theorem System.ClientStep.stage_eq {x y : System} (hstep : ClientStep x y) : y.stage = x.stage := by
  cases hstep <;> rfl

namespace Coherent

variable {origin : Tree} {base x y : System}

/-- A diff that has just been written. -/
theorem follows_write (hx : Coherent origin x c) {request : Commit} {diff : WrittenDiff}
    (hbegun : x.stage = .begun base.trunk request)
    (hzones : x.store.zones = base.store.zones)
    (hexec : exec (base.trunk.writeDiff request) x.store = (.ok (some diff), s)) :
    diff.Follows base s := by
  have hwork : base.trunk.hasWork request = true := by
    cases hwork : base.trunk.hasWork request with
    | true => rfl
    | false =>
        rw [Trunk.writeDiff, hwork] at hexec
        cases hexec
  rw [Trunk.hasWork, Bool.and_eq_true, Bool.not_eq_true'] at hwork
  obtain ⟨c', hwrote⟩ := hx.wrote hbegun hexec
  obtain ⟨text, start, htext, hstart, -, hcp⟩ := hwrote.text
  rw [hzones] at htext hstart
  exact ⟨hwrote.tree, hwrote.version, hwork.1, by rw [hwrote.zone, hzones],
    text, start, htext, hstart, hcp⟩

/-- A step of the commit under way does what the commit is to do next. -/
theorem follows_commit_step (hx : Coherent origin x c) (hfollows : x.stage.Follows base x.store)
    (hroot : c.refs base.trunk.tree.root) (hstep : System.CommitStep x y)
    (hstage : y.stage ≠ .idle) : y.stage.Follows base y.store := by
  cases hstep with
  | begin request idle =>
      rw [idle] at hfollows
      exact hfollows.elim
  | skip | refuse | spoil | abort | finish => exact absurd rfl hstage
  | @write snapshot request diff s begun wrote =>
      rw [begun] at hfollows
      obtain ⟨rfl, hzones⟩ := hfollows
      exact hx.follows_write begun hzones wrote
  | install | installRebased => trivial
  | miss written missed =>
      rw [written] at hfollows
      exact hfollows
  | @pair diff pairs s overtaken gathered =>
      obtain ⟨rfl, hgathers⟩ := hx.gathers overtaken gathered
      rw [overtaken] at hfollows
      obtain ⟨text, start, -, -, hcp⟩ := hfollows.text
      rw [hfollows.tree] at hgathers
      exact ⟨hfollows, PageRef.CommitPairs.match_of_gathers hgathers hcp⟩
  | look paired =>
      rw [paired] at hfollows
      exact hfollows
  | @rebase diff pairs current tree s rebasing rebased =>
      obtain ⟨content, -, hruns⟩ := hx.rebases rebasing
      obtain ⟨c'', hgrows, -, -, hrebased⟩ := hruns.of_ok rebased
      rw [rebasing] at hfollows
      exact ⟨hfollows.1.keep hgrows.keeps hgrows.zones,
        hfollows.2.keep hx.represents.toMirrors hgrows.represents.toMirrors hgrows.le
          hgrows.keeps hroot, hrebased⟩
  | missRebased rebased missed =>
      rw [rebased] at hfollows
      exact ⟨hfollows.1, hfollows.2.1⟩

/-- A step while a commit is under way. -/
theorem follows_step (hx : Coherent origin x c) (hfollows : x.stage.Follows base x.store)
    (hroot : c.refs base.trunk.tree.root) (hstep : System.RaceStep x y) :
    y.stage.Follows base y.store := by
  rcases hstep with hclient | ⟨hcommit, hstage⟩
  · have hx' := hx.allow x.Folds
    obtain ⟨c', hy, hgrows⟩ := hx'.client_step (fun _ hf => Or.inr hf) hclient
    rw [hclient.stage_eq]
    exact hfollows.keep hx'.represents.toMirrors hgrows.represents.toMirrors hgrows.le
      hgrows.keeps hgrows.zones hroot
  · exact hx.follows_commit_step hfollows hroot hcommit hstage

/-- A run while a commit is under way. -/
theorem follows_run (hx : Coherent origin x c) (hfollows : x.stage.Follows base x.store)
    (hroot : c.refs base.trunk.tree.root) (hrun : Relation.ReflTransGen System.RaceStep x y) :
    ∃ c', Leads origin x c y c' ∧ y.stage.Follows base y.store := by
  induction hrun with
  | refl => exact ⟨c, (hx.leads_of_store_eq rfl).toLeads, hfollows⟩
  | tail _ hstep ih =>
      obtain ⟨c', hleads, hfollows'⟩ := ih
      obtain ⟨c'', hleads'⟩ := hleads.coherent.quiet_step hstep.quiet
      exact ⟨c'', hleads.trans hleads', hleads.coherent.follows_step hfollows'
        (hleads.le.refs _ hroot) hstep⟩

/-- A commit that no one overtakes writes all uncommitted pages. -/
theorem commit_writes (hx : Coherent origin x c) (htransient : x.trunk.tree.isTransient = false)
    (huncommitted : x.trunk.tree.root.isCommitted = false)
    (hopen : x.store.zones.isClosed = false) (request : Commit) :
    ∃ trunk s zone start text, exec (x.trunk.commit request) x.store = (.ok (true, trunk), s) ∧
      Counterpart s zone start text x.trunk.tree.root trunk.tree.root := by
  have hwork : x.trunk.hasWork request = true := by
    have hpending : x.trunk.tree.pendingSize ≠ 0 := by
      intro hzero
      have hcommitted := (hx.represents.diffSize_eq_zero_iff hx.root).1 hzero
      rw [huncommitted] at hcommitted
      cases hcommitted
    simp [Trunk.hasWork, htransient, hpending]
  rcases x.trunk.commit_cases hx.represents hx.zones hx.has.fit request with
    ⟨hidle, -⟩ | ⟨hclosed, -⟩ | ⟨diff, s, s', c', hwrote, hs', hexec⟩
  · rw [hwork] at hidle
    cases hidle
  · rw [hopen] at hclosed
    cases hclosed
  · obtain ⟨text, start, -, -, -, hcp⟩ := hwrote.text
    have hkeeps : s.Keeps s' := by
      rcases hs' with rfl | rfl <;> exact .of_cells_eq rfl
    exact ⟨_, s', diff.zone, start, text, hexec, hcp.keep hkeeps (List.prefix_refl _)⟩

/-- The trunk that a commit installs its tree in is at the tree that it replaces. -/
theorem root_eq (hx : Coherent origin x c) {old : Tree} {version : Nat} (hold : c.refs old.root)
    (hat : x.trunk.isAt old version = true) : x.trunk.tree.root = old.root := by
  rw [Trunk.isAt, Bool.and_eq_true] at hat
  exact hx.represents.eq_of_same hx.root hold hat.2

/-- The last step of a commit. -/
theorem follows_install {commit : Commit} (hx : Coherent origin x c)
    (hfollows : x.stage.Follows base x.store) (hroot : c.refs base.trunk.tree.root)
    (hstep : System.CommitStep x y) (hdone : y.stage = .installed commit) :
    ∃ diff : WrittenDiff, diff.Follows base x.store ∧ diff.commit = commit ∧ y.store = x.store ∧
      y.log = x.log ∧ y.trunk.version = base.trunk.version + 1 ∧
      ∀ text start, Counterpart x.store diff.zone start text base.trunk.tree.root
          diff.committed.root →
        Carried x.store diff.zone start text base.trunk.tree.root x.trunk.tree.root
          y.trunk.tree.root := by
  have hsound := hx.stage
  cases hstep with
  | begin | skip | write | refuse | spoil | miss | pair | look | rebase | abort | missRebased
  | finish => cases hdone
  | @install diff trunk written installed =>
      rw [written] at hfollows hsound
      cases hdone
      obtain ⟨content, hhas, -⟩ := hsound.has
      obtain ⟨hat, rfl⟩ := Trunk.eq_of_installCommit installed
      refine ⟨diff, hfollows, rfl, rfl, rfl, by rw [← hfollows.version]; rfl, ?_⟩
      intro text start hcp
      rw [hx.root_eq hhas.fit.refs hat, hfollows.tree]
      exact hcp.carried
  | @installRebased diff pairs current tree trunk rebased installed =>
      rw [rebased] at hfollows hsound
      cases hdone
      obtain ⟨hversion, hpairs, hkin, content, hhas, -⟩ := hsound
      obtain ⟨hdiff, hmatch, hrebased⟩ := hfollows
      obtain ⟨hat, rfl⟩ := Trunk.eq_of_installCommit installed
      refine ⟨diff, hdiff, rfl, rfl, rfl, by rw [← hdiff.version]; rfl, ?_⟩
      intro text start hcp
      rw [hx.root_eq hhas.fit.refs hat]
      exact hrebased.carried hx.represents.toMirrors hroot hcp hmatch hhas.fit.refs

end Coherent

/-- A commit that has begun on a trunk that systems reach, whatever calls have done until it
installs its tree: the tree has what the calls have made, the pages that it shares with the
snapshot have their places in the one diff that has been appended, and what is left uncommitted
is written by the next commit. -/
theorem System.commit_carries {seed : Seed} {x₀ x b w y : System} {request commit : Commit}
    (hstarts : Starts seed x₀) (hrun : Relation.ReflTransGen QuietStep x₀ x)
    (hbegin : CommitStep x b) (hbegun : b.stage = .begun x.trunk request)
    (hrace : Relation.ReflTransGen RaceStep b w) (hlast : CommitStep w y)
    (hdone : y.stage = .installed commit) :
    y.trunk.version = x.trunk.version + 1 ∧ y.log = w.log ∧
      (replay seed.kind w.log).IsRead w.store w.trunk.tree ∧
      (replay seed.kind w.log).IsRead y.store y.trunk.tree ∧
      (∃ text start, y.store.zones =
          (commit.zones x.store.zones).append (String.ofList text) ∧
        (commit.zones x.store.zones).size? (commit.zones x.store.zones).active = some start ∧
        Carried y.store (commit.zones x.store.zones).active start text x.trunk.tree.root
          w.trunk.tree.root y.trunk.tree.root) ∧
      ∀ next, y.trunk.tree.root.isCommitted = false → y.store.zones.isClosed = false →
        ∃ trunk s zone start text, exec (y.trunk.commit next) y.store = (.ok (true, trunk), s) ∧
          Counterpart s zone start text y.trunk.tree.root trunk.tree.root := by
  obtain ⟨c₀, hx₀, hall, hseed⟩ := Coherent.of_starts hstarts
  have hkind : x₀.trunk.tree.kind = seed.kind := congrArg Seed.kind hseed
  obtain ⟨c, hleads⟩ := hx₀.quiet_run hrun
  obtain ⟨c₁, hleads₁⟩ := hleads.coherent.commit_step hbegin
  -- the commit has only begun, so the zones are still those of its snapshot
  have hfollows : b.stage.Follows x b.store := by
    rw [hbegun]
    cases hbegin <;> first | exact ⟨rfl, rfl⟩ | cases hbegun
  have hroot : c₁.refs x.trunk.tree.root := hleads₁.le.refs _ hleads.coherent.root
  obtain ⟨c₂, hleads₂, hfollows₂⟩ := hleads₁.coherent.follows_run hfollows hroot hrace
  obtain ⟨diff, hdiff, rfl, hstore, hlog, hversion, hcarried⟩ :=
    hleads₂.coherent.follows_install hfollows₂ (hleads₂.le.refs _ hroot) hlast hdone
  obtain ⟨c₃, hleads₃⟩ := hleads₂.coherent.commit_step hlast
  have hall₂ := hleads₂.resident (hleads₁.resident (hleads.resident hall))
  have hw := hleads₂.coherent.has.isRead hleads₂.coherent.represents (Or.inl hall₂)
  have hy := hleads₃.coherent.has.isRead hleads₃.coherent.represents
    (Or.inl (hleads₃.resident hall₂))
  rw [hkind] at hw hy
  rw [hlog] at hy
  refine ⟨hversion, hlog, hw, hy, ?_, ?_⟩
  · obtain ⟨text, start, htext, hstart, hcp⟩ := hdiff.text
    rw [hdiff.zone] at hcp hstart hcarried
    exact ⟨text, start, by rw [hstore, htext], hstart, by rw [hstore]; exact hcarried text start hcp⟩
  · intro next huncommitted hopen
    refine hleads₃.coherent.commit_writes ?_ huncommitted hopen next
    rw [hleads₃.coherent.kin.isTransient, ← hleads.coherent.kin.isTransient]
    exact hdiff.isTransient

namespace Coherent

variable {origin : Tree} {x : System} {i : Nat}

theorem isAt_self (t : Trunk) : t.isAt t.tree t.version = true := by
  simp [Trunk.isAt, Tree.same, PageRef.same]

/-- A commit that has written its diff comes to its end once no call moves the trunk. -/
theorem commit_finishes {diff : WrittenDiff} (hx : Coherent origin x c)
    (hserves : Serves x.store c) (hwritten : x.stage = .written diff) :
    ∃ w y, Relation.ReflTransGen System.RaceStep x w ∧ System.CommitStep w y ∧
      y.stage = .installed diff.commit ∧ y.log = x.log := by
  have hsound := hx.stage
  rw [hwritten] at hsound
  obtain ⟨content, hhas, hhas'⟩ := hsound.has
  cases hat : x.trunk.isAt diff.tree diff.version with
  | true =>
      have hinstall : x.trunk.installCommit diff.tree diff.committed diff.version = (true, _) :=
        if_pos hat
      exact ⟨x, _, .refl, .install hwritten hinstall, rfl, rfl⟩
  | false =>
      have hmiss : x.trunk.installCommit diff.tree diff.committed diff.version =
          (false, x.trunk) := if_neg (by simp [hat])
      obtain ⟨pairs, hpair, hgathers⟩ := PageRef.pairCommitted_gathers hx.represents.toMirrors
        hhas.fit.refs hhas'.fit.refs hsound.twin
      obtain ⟨tree, s, c', hrebase, -⟩ := (Tree.rebased_runs hx.represents hx.has
        (PageRef.pairs_of_gathers hgathers)).succeeds hserves
      have hinstall : x.trunk.installCommit x.trunk.tree tree diff.version = (true, _) :=
        if_pos (by rw [hsound.version_eq]; exact isAt_self x.trunk)
      have hrun := Relation.ReflTransGen.refl (r := System.RaceStep) (a := x)
        |>.tail (.inr ⟨.miss hwritten hmiss, Stage.noConfusion⟩)
        |>.tail (.inr ⟨.pair rfl hpair, Stage.noConfusion⟩)
        |>.tail (.inr ⟨.look rfl, Stage.noConfusion⟩)
        |>.tail (.inr ⟨.rebase rfl hrebase, Stage.noConfusion⟩)
      exact ⟨_, _, hrun, .installRebased rfl hinstall, rfl, rfl⟩

end Coherent

namespace System

/-- A call sets the register while the empty one is written. -/
theorem commit_carries_set :
    ∃ x b w y commit, Relation.ReflTransGen QuietStep register x ∧ CommitStep x b ∧
      b.stage = .begun x.trunk .plain ∧ Relation.ReflTransGen RaceStep b w ∧ CommitStep w y ∧
      y.stage = .installed commit ∧ y.log = [(0, .set (.int 10))] ∧
      y.trunk.version = x.trunk.version + 1 ∧
      (Content.register (.int 10)).IsRead y.store y.trunk.tree := by
  -- the call has its tree ready when the commit begins, and swaps it in once the diff is written
  obtain ⟨x, b, z, diff, hrun, hbegin, hbegun, hrace, hwritten, hlog⟩ :
      ∃ x b z diff, Relation.ReflTransGen QuietStep register x ∧ CommitStep x b ∧
        b.stage = .begun x.trunk .plain ∧ Relation.ReflTransGen RaceStep b z ∧
        z.stage = .written diff ∧ z.log = [(0, .set (.int 10))] := by
    have hrun := Relation.ReflTransGen.refl (r := QuietStep) (a := register)
      |>.tail (.inl (@ClientStep.call register 0 (.set (.int 10)) rfl rfl))
      |>.tail (.inl (.look (i := 0) rfl))
      |>.tail (.inl (.compute (i := 0) rfl rfl))
    have hbegins : ∀ {x}, x.stage = .idle → Relation.ReflTransGen QuietStep register x →
        CommitStep x (x.withStage (.begun x.trunk .plain)) := fun hidle _ => .begin .plain hidle
    have hbegin := hbegins rfl hrun
    have hfrom : ∀ {x y}, CommitStep x y → Relation.ReflTransGen RaceStep y y := fun _ => .refl
    have hrace := hfrom hbegin
      |>.tail (.inr ⟨.write rfl rfl, Stage.noConfusion⟩)
      |>.tail (.inl (.swap (i := 0) rfl rfl rfl))
    exact ⟨_, _, _, _, hrun, hbegin, rfl, hrace, rfl, rfl⟩
  obtain ⟨c₀, hx₀, hall₀, -⟩ := Coherent.of_starts starts_register
  obtain ⟨c, hleads⟩ := hx₀.quiet_run ((hrun.tail (.inr hbegin)).trans
    (Relation.ReflTransGen.mono (fun _ _ => RaceStep.quiet) _ _ hrace))
  obtain ⟨w, y, hrest, hlast, hdone, hsame⟩ :=
    hleads.coherent.commit_finishes (Or.inl (hleads.resident hall₀)) hwritten
  obtain ⟨hversion, hlog', -, hcontent, -⟩ :=
    commit_carries starts_register hrun hbegin hbegun (hrace.trans hrest) hlast hdone
  rw [← hlog', hsame, hlog] at hcontent
  exact ⟨x, b, w, y, _, hrun, hbegin, hbegun, hrace.trans hrest, hlast, hdone, hsame.trans hlog,
    hversion, hcontent⟩

end System

end PageTree
