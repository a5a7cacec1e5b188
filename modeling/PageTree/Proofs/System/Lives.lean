import PageTree.Proofs.Contents
import PageTree.Proofs.System.Filing

/-!
# Lives of a tree

A tree outlives its clients.  `System.Lives allowed seed x past` says that a system has come from an
empty tree by steps of its calls, its commits and its store, by taking back commits, and by opening
the tree of some earlier system again under a trunk of its own, with `past` the systems that it
has been before.  A trunk that opens a tree starts at a version that no page of it is newer than.

Under that condition the versions of pages only fall from the trunk down to the leaves
(`System.versions_descend`).
-/

namespace PageTree

open StoreM

variable {c c' c₀ : Chart} {s s' : Store} {origin : Tree}

/-! ## Lives -/

/-- What is left of a call once its client is gone: that its tree has been swapped in. -/
def Call.remains : Call → Call
  | .done op attempt tree answer true => .done op attempt tree answer true
  | _ => .unused

theorem Call.operation?_remains {call : Call} {op : Operation}
    (hop : call.remains.operation? = some op) : call.operation? = some op := by
  unfold Call.remains at hop
  split at hop
  · exact hop
  · cases hop

namespace System

variable {allowed : Operation → Prop} {seed : Seed} {x y : System} {past : List System}

/-- All calls are for operations that are allowed. -/
def Asks (allowed : Operation → Prop) (x : System) : Prop :=
  ∀ i op, (x.calls i).operation? = some op → allowed op

/-- A client of its own opens the tree of an earlier system, on a later store. -/
def reopened (y : System) (s : Store) (tree : Tree) (version : Nat)
    (filed : Nat → Nat → Page Header → Prop) : System where
  store := s
  trunk := ⟨tree, version, 0⟩
  calls i := (y.calls i).remains
  stage := .idle
  softeners := []
  readers := []
  log := y.log
  filed := filed

/-- A system has come from an empty tree, and it has been other systems before, last first. -/
inductive Lives (allowed : Operation → Prop) (seed : Seed) : System → List System → Prop where
  | start {x : System} (starts : Starts seed x) : Lives allowed seed x []
  | step {x y : System} {past : List System} (lives : Lives allowed seed x past)
      (step : Step x y) (asks : y.Asks allowed) : Lives allowed seed y (x :: past)
  /-- The pages that have been written at a version or later are taken back. -/
  | uncommit {x : System} {past : List System} {since : Nat} {tree : Tree} {s : Store}
      (lives : Lives allowed seed x past)
      (uncommitted : exec (x.trunk.tree.uncommitted since) x.store = (.ok tree, s)) :
      Lives allowed seed { x with store := s, trunk := { x.trunk with tree } } (x :: past)
  /-- A tree that has been committed is opened from its seed, under a version that its root is
  not newer than. -/
  | reopen {x y : System} {past : List System} {version : Nat} {tree : Tree} {s : Store}
      (lives : Lives allowed seed x past) (earlier : y ∈ x :: past)
      (committed : y.trunk.tree.root.isCommitted = true)
      (opened : exec (Tree.ofSeed y.trunk.tree.kind y.trunk.tree.seedText) x.store = (.ok tree, s))
      (newest : ∀ p, x.filed y.trunk.tree.root.zone y.trunk.tree.root.base p →
        p.version ≤ version) :
      Lives allowed seed (y.reopened s tree version x.filed) (x :: past)

theorem Starts.asks (hstarts : Starts seed x) : x.Asks allowed := by
  intro i op hop
  rw [hstarts.calls i] at hop
  cases hop

/-- All that a system has ever been asked for was allowed. -/
theorem Lives.asks (hlives : Lives allowed seed x past) : ∀ y ∈ x :: past, y.Asks allowed := by
  induction hlives with
  | start starts => simpa using starts.asks
  | step _ _ asks ih => exact List.forall_mem_cons.2 ⟨asks, ih⟩
  | @uncommit x _ _ _ _ _ _ ih =>
      have hsame : x.Asks allowed := ih x List.mem_cons_self
      exact List.forall_mem_cons.2 ⟨hsame, ih⟩
  | reopen _ earlier _ _ _ ih =>
      exact List.forall_mem_cons.2 ⟨fun i op hop => ih _ earlier i op (Call.operation?_remains hop),
        ih⟩

/-- Where all operations are allowed, a run is a stretch of a life. -/
theorem Lives.run (hlives : Lives allowed seed x past) (hall : ∀ op, allowed op)
    (hrun : Relation.ReflTransGen Step x y) :
    ∃ since, Lives allowed seed y (since ++ past) := by
  induction hrun with
  | refl => exact ⟨[], hlives⟩
  | tail _ step ih =>
      obtain ⟨since, ih⟩ := ih
      exact ⟨_ :: since, ih.step step fun _ op _ => hall op⟩

/-- What a schedule comes to has a life. -/
theorem lives_of_play {moves : List Move} (hstarts : Starts seed x)
    (hplay : x.play? (fun _ _ => true) moves = some y) :
    ∃ past, Lives (fun _ => True) seed y past := by
  obtain ⟨since, hlives⟩ := (Lives.start hstarts).run (fun _ => trivial) (run_iff.2 ⟨moves, hplay⟩)
  exact ⟨_, hlives⟩

/-- A call that no one gets in the way of has its tree swapped in. -/
theorem Lives.call {i : Nat} {op : Operation} {result : Tree × Option Value} {s : Store}
    (hlives : Lives allowed seed x past) (hop : allowed op) (hunused : x.calls i = .unused)
    (hsuits : op.Suits x.trunk.tree.kind)
    (hexec : exec (op.run x.trunk) x.store = (.ok result, s))
    (hmoved : result.1.same x.trunk.tree = false) :
    ∃ y past, Lives allowed seed y past ∧ y.store = s ∧
      y.trunk = { x.trunk with tree := result.1 } ∧ y.log = x.log ++ [(i, op)] ∧
      y.filed = x.filed ∧ y.stage = x.stage ∧ ∀ j, j ≠ i → y.calls j = x.calls j := by
  have hset : ∀ {z : System} (call : Call), z.Asks allowed → call.operation? = some op →
      (z.setCall i call).Asks allowed := by
    intro z call hasks hcall j op' hop'
    simp only [setCall] at hop'
    split at hop'
    · rw [hcall] at hop'
      cases hop'
      exact hop
    · exact hasks j op' hop'
  have hself : ∀ {z : System} {call : Call}, (z.setCall i call).calls i = call := if_pos rfl
  have hasks := hlives.asks x List.mem_cons_self
  have hasks₁ := hset (.waiting op) hasks rfl
  have hasks₂ := hset (.looking op ⟨x.trunk, x.log.length⟩) hasks₁ rfl
  have hasks₃ := hset (.ready op ⟨x.trunk, x.log.length⟩ result.1 result.2) hasks₂ rfl
  have hswapped : x.trunk.updateTree x.trunk.tree result.1 x.trunk.version =
      (true, { x.trunk with tree := result.1 }) := by
    rw [Trunk.updateTree, if_pos]
    simp [Trunk.isAt, Tree.same, PageRef.same]
  -- the call takes its steps without anyone else in between
  have hdone := hlives
    |>.step (.inl (.inl (.call hunused hsuits))) hasks₁
    |>.step (.inl (.inl (.look hself))) hasks₂
    |>.step (.inl (.inl (.compute hself hexec))) hasks₃
    |>.step (.inl (.inl (.swap hself hmoved hswapped))) (hset _ hasks₃ rfl)
  refine ⟨_, _, hdone, rfl, rfl, rfl, rfl, rfl, fun j hj => ?_⟩
  simp only [setCall, withStore, if_neg hj]

end System

/-! ## What lives keep -/

/-- A tree with the same content takes the place of the trunk's tree. -/
theorem Coherent.withTree {x : System} (hx : Coherent origin x c) {tree : Tree}
    (hrerooted : x.trunk.tree.Rerooted tree)
    (hhas : c.Has x.trunk.version tree (replay origin.kind x.log)) :
    Coherent origin { x with trunk := { x.trunk with tree } } c where
  represents := hx.represents
  zones := hx.zones
  kin := hx.kin.trans hrerooted.kin
  has := hhas
  distinct := hx.distinct
  calls := hx.calls
  stage := hx.stage
  softeners := hx.softeners
  readers := hx.readers
  filed := hx.filed

/-- Taking back commits keeps what a tree holds. -/
theorem Coherent.uncommit {x : System} {since : Nat} {tree : Tree} (hx : Coherent origin x c)
    (hexec : exec (x.trunk.tree.uncommitted since) x.store = (.ok tree, s)) :
    ∃ c', Coherent origin { x with store := s, trunk := { x.trunk with tree } } c' ∧ c ≤ c' ∧
      c'.foldings = c.foldings := by
  obtain ⟨c', hgrows, hrerooted, hhas⟩ :=
    (Tree.uncommitted_runs hx.represents hx.has since).of_ok hexec
  have hgrown := hx.grows hgrows
  exact ⟨c', hgrown.withTree (x := x.withStore s) hrerooted hhas, hgrows.le, hgrows.foldings⟩

/-- What remains of a call fits the log, whatever tree the next client has. -/
theorem Call.Sound.remains {call : Call} {log : List (Nat × Operation)} {version version' i : Nat}
    {origin' : Tree} (hcall : call.Sound c origin log version i)
    (hkind : origin'.kind = origin.kind) : call.remains.Sound c' origin' log version' i := by
  cases call with
  | unused => exact hcall
  | waiting | failed | looking | ready => exact hcall.1
  | done op a tree answer isSwapped =>
      cases isSwapped with
      | false => exact hcall.1
      | true =>
          obtain ⟨before, after, hlog, hanswers⟩ := hcall
          exact ⟨before, after, hlog, by rw [hkind]; exact hanswers⟩

/-- A client that opens the tree of an earlier system has its content. -/
theorem Coherent.reopen {x y : System} {origin' tree : Tree} {version : Nat}
    (hx : Coherent origin x c) (hy : Coherent origin' y c₀) (hle : c₀ ≤ c)
    (hcommitted : y.trunk.tree.root.isCommitted = true)
    (hexec : exec (Tree.ofSeed y.trunk.tree.kind y.trunk.tree.seedText) x.store = (.ok tree, s))
    (hnewest : ∀ p, x.filed y.trunk.tree.root.zone y.trunk.tree.root.base p →
      p.version ≤ version) :
    ∃ c', Coherent tree (y.reopened s tree version x.filed) c' ∧ c ≤ c' ∧
      c'.foldings = c.foldings := by
  have hhas := hy.has.mono hle
  rcases Tree.ofSeed_cases hx.represents hhas with hopened | ⟨-, e, hrefused⟩
  · rw [hopened] at hexec
    cases hexec
    obtain ⟨c', hrep, hle', hfiled, hfoldings, hhas'⟩ :=
      Tree.reopened_has hx.represents hhas hcommitted
        fun p hp => hnewest p ((hx.filed _ _ p).2 hp)
    have hkind : (y.trunk.tree.reopened x.store).kind = origin'.kind := hy.kin.kind
    -- no one looks at the tree yet, so there are no readers and no softeners to keep
    refine ⟨c', ?_, hle', hfoldings⟩
    exact {
      represents := hrep
      zones := hx.zones
      kin := .refl _
      has := by
        rw [hkind]
        exact hhas'
      distinct := hy.distinct
      calls := fun i => (hy.calls i).remains hkind
      stage := trivial
      softeners := fun t ht => absurd ht List.not_mem_nil
      readers := fun r hr => absurd hr List.not_mem_nil
      filed := fun z b p => by
        rw [hfiled]
        exact hx.filed z b p }
  · rw [hrefused] at hexec
    cases hexec

namespace System

variable {allowed : Operation → Prop} {seed : Seed} {x y : System} {past : List System}

/-- The system was coherent by a chart that has grown since. -/
def Recalled (y : System) (c : Chart) : Prop :=
  ∃ origin c₀, Coherent origin y c₀ ∧ c₀ ≤ c

theorem Recalled.mono (hle : c ≤ c') (hrecalled : y.Recalled c) : y.Recalled c' := by
  obtain ⟨origin, c₀, hy, hle₀⟩ := hrecalled
  exact ⟨origin, c₀, hy, Chart.le_trans hle₀ hle⟩

/-- A system is coherent all its life, by a chart that knows of all it has been, and folds come from
foldings that are allowed. -/
theorem Lives.coherent (hlives : Lives allowed seed x past) :
    ∃ origin c, Coherent origin x c ∧ (∀ y ∈ x :: past, y.Recalled c) ∧
      ∀ f, c.foldings f → allowed (.reduce f) := by
  -- what was recalled is recalled by a chart that has grown
  have hnext : ∀ {x y : System} {past : List System} {origin : Tree} {c c' : Chart},
      Coherent origin y c' → c ≤ c' → (∀ z ∈ x :: past, z.Recalled c) →
        ∀ z ∈ y :: x :: past, z.Recalled c' := by
    intro x y past origin c c' hy hle hpast
    exact List.forall_mem_cons.2
      ⟨⟨origin, c', hy, Chart.le_refl c'⟩, fun z hz => (hpast z hz).mono hle⟩
  induction hlives with
  | start starts =>
      obtain ⟨c, hx, -, -, hnone⟩ := Coherent.of_starts_within starts
      exact ⟨_, c, hx, by simpa using ⟨_, c, hx, Chart.le_refl c⟩, fun f hf => absurd hf (hnone f)⟩
  | step lives step _ ih =>
      obtain ⟨origin, c, hx, hpast, hallowed⟩ := ih
      have hasks := lives.asks _ List.mem_cons_self
      have hx' := hx.allow fun f => allowed (.reduce f)
      obtain ⟨c', hy, hle, hfoldings⟩ :=
        hx'.step_within (fun f hf => hf.elim fun i hi => Or.inr (hasks i _ hi)) step
      refine ⟨origin, c', hy, hnext hy (Chart.le_trans (c.le_allow _) hle) hpast, fun f hf => ?_⟩
      rw [hfoldings] at hf
      exact hf.elim (hallowed f) id
  | uncommit _ uncommitted ih =>
      obtain ⟨origin, c, hx, hpast, hallowed⟩ := ih
      obtain ⟨c', hy, hle, hfoldings⟩ := hx.uncommit uncommitted
      exact ⟨origin, c', hy, hnext hy hle hpast, by rwa [hfoldings]⟩
  | reopen _ earlier committed opened newest ih =>
      obtain ⟨origin, c, hx, hpast, hallowed⟩ := ih
      obtain ⟨origin', c₀, hy, hle₀⟩ := hpast _ earlier
      obtain ⟨c', hz, hle, hfoldings⟩ := hx.reopen hy hle₀ committed opened newest
      exact ⟨_, c', hz, hnext hz hle hpast, by rwa [hfoldings]⟩

/-- A commit that no one gets in the way of is installed. -/
theorem Lives.commit {request : Commit} {result : Bool × Trunk} {s : Store}
    (hlives : Lives allowed seed x past) (hidle : x.stage = .idle)
    (hexec : exec (x.trunk.commit request) x.store = (.ok result, s)) (hdone : result.1 = true) :
    ∃ y past, Lives allowed seed y past ∧ y.store = s ∧ y.trunk = result.2 ∧ y.log = x.log := by
  obtain ⟨origin, c, hx, -⟩ := hlives.coherent
  have hasks := hlives.asks x List.mem_cons_self
  rw [Trunk.commit, exec_bind] at hexec
  rcases x.trunk.writeDiff_cases hx.represents hx.zones hx.has.fit request with
    ⟨-, hwrote⟩ | ⟨-, hwrote⟩ | ⟨diff, s₁, c', hwrote, hdiff⟩
  · rw [hwrote] at hexec
    cases hexec
    cases hdone
  · rw [hwrote] at hexec
    cases hexec
  · have hinstalled := hdiff.installCommit_eq
    obtain ⟨s₂, hdid, -⟩ := exec_didCommit diff.commit s₁
    simp only [hwrote, Trunk.install, hinstalled, exec_bind, exec_pure, hdid] at hexec
    cases hexec
    exact ⟨_, _, hlives
      |>.step (.inl (.inr (.begin request hidle))) hasks
      |>.step (.inl (.inr (.write rfl hwrote))) hasks
      |>.step (.inl (.inr (.install rfl hinstalled))) hasks
      |>.step (.inl (.inr (.finish rfl hdid))) hasks, rfl, rfl, rfl⟩

/-! ## Versions -/

/-- The page that a committed tree begins with is not newer than the trunk. -/
theorem Lives.root_version_le (hlives : Lives allowed seed x past)
    (hcommitted : x.trunk.tree.root.isCommitted = true) {p : Page Header}
    (hfiled : x.filed x.trunk.tree.root.zone x.trunk.tree.root.base p) :
    p.version ≤ x.trunk.version := by
  obtain ⟨origin, c, hx, -⟩ := hlives.coherent
  obtain ⟨q, hq, -, -, hle⟩ := hx.has.fit.page
  rw [PageRef.site_of_committed hcommitted] at hq
  obtain ⟨q', hq', rfl⟩ := Chart.exists_filed hq
  have hsame := ((hx.filed _ _ p).1 hfiled).symm.trans hq'
  cases hsame
  simpa using hle

/-- Whatever becomes of a tree, no page that the trunk leads to is newer than the trunk, and none is
newer than the page above it. -/
theorem versions_descend {r : PageRef} {p : LivePage} (hlives : Lives allowed seed x past)
    (hreaches : x.store.Reaches x.trunk.tree.root s r)
    (hpage : exec r.page s = (.ok p, s')) :
    p.version ≤ x.trunk.version ∧
      ∀ m ∈ p.children, ∀ q s'', exec m.page s' = (.ok q, s'') → q.version ≤ p.version := by
  obtain ⟨origin, c, hx, -⟩ := hlives.coherent
  obtain ⟨c₁, hgrows₁, hfit, -⟩ := hreaches.fit hx.represents hx.has.fit
  obtain ⟨c₂, hgrows₂, hp, hrefs⟩ :=
    (PageRef.page_runs hgrows₁.represents hfit.refs).of_ok hpage
  have hfit₂ := hfit.mono hgrows₂.le
  refine ⟨(PageRef.fit_of_page hfit₂ hp).2.2, ?_⟩
  intro m hm q s'' hq
  have hchild := hgrows₂.represents.child_fit hfit₂.refs hp hm (hrefs m hm)
  obtain ⟨c₃, hgrows₃, hq', -⟩ := (PageRef.page_runs hgrows₂.represents hchild.refs).of_ok hq
  exact (PageRef.fit_of_page (hchild.mono hgrows₃.le) hq').2.2

/-- One of the entries that have been committed is put again and committed too, and the tree, which
has pages of two versions now, is opened again under a trunk of its own.  Its pages are read from
the zones, and their versions fall. -/
theorem versions_descend_reopened :
    ∃ x past p s, Lives (fun _ => True) orderedSeed x past ∧ x.trunk.version = 3 ∧
      (x.store.hold x.trunk.tree.root).copy? = none ∧
      exec x.trunk.tree.root.page x.store = (.ok p, s) ∧ p.version = 2 ∧
      (p.children.map fun m => (exec m.page s).1.toOption.map fun q => q.version) =
        [some 2, some 1] ∧
      p.version ≤ x.trunk.version ∧
      ∀ m ∈ p.children, ∀ q s', exec m.page s = (.ok q, s') → q.version ≤ p.version := by
  have hplayed : ((crowded.play? (fun _ _ => true)
      (changed ++ Move.commitAlone .plain)).bind fun x =>
        (exec? (Tree.ofSeed x.trunk.tree.kind x.trunk.tree.seedText) x.store).bind fun opened =>
          (exec? opened.1.root.page opened.2).map fun found =>
            (x.trunk.version, x.trunk.tree.root.isCommitted,
              (opened.2.hold opened.1.root).copy?.isNone, found.1.version,
              found.1.children.map fun m =>
                (exec m.page found.2).1.toOption.map fun q => q.version)) =
      some (3, true, true, 2, [some 2, some 1]) := by
    decide +kernel
  obtain ⟨x, hplay, hx⟩ := Option.bind_eq_some_iff.1 hplayed
  obtain ⟨⟨tree, s⟩, hopened, htree⟩ := Option.bind_eq_some_iff.1 hx
  obtain ⟨⟨p, s'⟩, hpage, hfacts⟩ := Option.map_eq_some_iff.1 htree
  simp only [Prod.mk.injEq, Option.isNone_iff_eq_none] at hfacts
  obtain ⟨hversion, hcommitted, hloaded, hroot, hchildren⟩ := hfacts
  rw [exec?_eq_some] at hopened hpage
  obtain ⟨past, hlives⟩ := lives_of_play starts_crowded hplay
  have hnewest : ∀ q, x.filed x.trunk.tree.root.zone x.trunk.tree.root.base q → q.version ≤ 3 :=
    fun _ hfiled => hversion ▸ hlives.root_version_le hcommitted hfiled
  have hagain := hlives.reopen List.mem_cons_self hcommitted hopened hnewest
  obtain ⟨hle, hdescend⟩ := versions_descend hagain (.here _ _) hpage
  exact ⟨_, _, p, s', hagain, rfl, hloaded, hpage, hroot, hchildren, hle, hdescend⟩

end System
end PageTree
