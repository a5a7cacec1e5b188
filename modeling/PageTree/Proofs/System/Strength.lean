import PageTree.Proofs.Cursor.Grounded

/-!
# Nothing that is not written is lost

Whatever clients, commits and those who let go of pages do, memory holds every uncommitted page of the
tree strongly, and beneath a committed page there is none.  So nothing that is done with the tree
ever fails because a page has no place, and no softening loses what has not been written
(`System.uncommitted_stay`).
-/

namespace PageTree

open StoreM

variable {c : Chart} {s s' : Store} {version : Nat} {t : Tree} {content : Content} {e : StoreError}

/-! ## What fails -/

/-- A read fails because a page cannot be had, or because a point lies beyond the plane. -/
theorem Query.error_cases (hrep : Represents s c) (hhas : c.Has version t content) (query : Query)
    (hsuits : query.Suits t.kind) (hexec : exec (query.run t) s = (.error e, s')) :
    e.IsLoadFailure ∨ ∃ reason, e = .invalidArgument reason := by
  by_cases hplane : query.InPlane
  · have hkind : t.kind = content.kind := hhas.kind_eq
    rw [hkind] at hsuits
    obtain ⟨a, hruns⟩ := query.exists_answer (hrep.sound t.root hhas.fit.refs) hsuits hplane
    obtain ⟨_, -, hfail, -⟩ := (hruns s c t (Chart.le_refl c) hrep hhas rfl).of_error hexec
    exact Or.inl hfail
  · cases query with
    | valueAt key x y =>
        change exec (QTree.get? t key x y) s = _ at hexec
        rcases QTree.pointAt_cases x y s with ⟨hx, hy, -⟩ | ⟨reason, hpoint⟩
        · exact absurd ⟨hx, hy⟩ hplane
        · rw [QTree.get?, exec_bind, hpoint] at hexec
          cases hexec
          exact Or.inr ⟨reason, rfl⟩
    | _ => exact absurd trivial hplane

/-- An operation fails because a page cannot be had, or because a point lies beyond the plane. -/
theorem Operation.error_cases {snapshot : Trunk} {op : Operation} (hrep : Represents s c)
    (hhas : c.Has snapshot.version snapshot.tree content) (hsuits : op.Suits content.kind)
    (hexec : exec (op.run snapshot) s = (.error e, s')) :
    e.IsLoadFailure ∨ ∃ reason, e = .invalidArgument reason := by
  -- the chart may have the folding of the operation, whatever foldings it has
  have hallowed : c ≤ c.allow fun f => op = .reduce f := c.le_allow _
  obtain ⟨_, -, hfails⟩ := op.fails_of_run (hrep.allow fun f => op = .reduce f)
    (hhas.mono hallowed) hsuits (fun f hf => Or.inr hf) hexec
  exact hfails

theorem StoreError.not_saysUncommitted
    (hcases : e.IsLoadFailure ∨ ∃ reason, e = .invalidArgument reason) : ¬ e.SaysUncommitted := by
  rcases hcases with hfail | ⟨reason, rfl⟩
  · exact hfail.not_saysUncommitted
  · exact not_false

/-- A diff that is lost is lost because the store is closed or has failed. -/
theorem Trunk.spoilDiff_error {snapshot : Trunk} {request : Commit} (hrep : Represents s c)
    (hsound : s.zones.Sound)
    (hfit : c.Fit snapshot.tree.kind snapshot.tree.seed.stem snapshot.version snapshot.tree.root)
    (hexec : exec (snapshot.spoilDiff request) s = (.error e, s')) : ¬ e.SaysUncommitted := by
  rw [spoilDiff, exec_bind] at hexec
  rcases exec_willCommit request s with ⟨-, hwill⟩ | ⟨commit, hwill⟩
  · rw [hwill] at hexec
    cases hexec
    exact not_false
  rw [hwill] at hexec
  dsimp only at hexec
  rw [exec_bind] at hexec
  cases hclosed : s.zones.isClosed with
  | true =>
      have hcheck : s.zones.checkOpen = .error .closed := by
        simp [Zones.checkOpen, hclosed]
      rw [writeZone, exec_bind, exec_ofZones, hcheck] at hexec
      cases hexec
      exact not_false
  | false =>
      have hzones : (commit.zones s.zones).Sound := Commit.sound_zones hsound
      have hbacked : Backed (commit.zones s.zones) c := Commit.backed_zones hsound hrep.backed
      obtain ⟨before, hbefore⟩ := Option.isSome_iff_exists.1 (Zones.text?_isSome.2 hzones.kept)
      have hsize : (commit.zones s.zones).size? (commit.zones s.zones).active =
          some before.utf8ByteSize := by
        rw [Zones.size?, hbefore]
        rfl
      -- the diff is built before the commit is spoiled, and that does not fail
      obtain ⟨text, t', s'', c', hbuild, -⟩ := Tree.buildDiff_lays
        (hrep.toMirrors.withZones (commit.zones s.zones)) hfit hzones.positive
        fun b p hfiled => (hbacked.kept _ b p _ hfiled hbefore).1
      rw [exec_writeZone commit _ s hclosed, hsize, Option.getD_some, exec_bind, hbuild] at hexec
      cases hexec
      exact not_false

namespace System

variable {allowed : Operation → Prop} {seed : Seed} {x : System} {past : List System}

/-- Something fails with an error: a read of the tree of the trunk, a call, or a commit. -/
inductive Fails (x : System) (e : StoreError) : Prop where
  | page {s s' : Store} {r : PageRef} (reaches : x.store.Reaches x.trunk.tree.root s r)
      (failed : exec r.page s = (.error e, s'))
  | read {query : Query} {s : Store} (suits : query.Suits x.trunk.tree.kind)
      (failed : exec (query.run x.trunk.tree) x.store = (.error e, s))
  /-- A call of a cursor over the tree, after others that have failed or not. -/
  | scan {ι : Type} {policy : Policy ι} {calls : List CursorCall} {call : CursorCall}
      (scans : policy.Scans x.trunk.tree.kind) (stays : ∀ call' ∈ call :: calls, call'.root? = none)
      (failed : (call.make.exec ((Cursor.start x.trunk.tree.root policy).after x.store calls).1
        ((Cursor.start x.trunk.tree.root policy).after x.store calls).2).1.1 = .error e)
  /-- Memory cannot be made to hold the whole tree. -/
  | load {s : Store} (failed : exec x.trunk.tree.loaded x.store = (.error e, s))
  | operation {op : Operation} {s : Store} (suits : op.Suits x.trunk.tree.kind)
      (failed : exec (op.run x.trunk) x.store = (.error e, s))
  /-- A call fails, whatever snapshot it has looked at. -/
  | call {i : Nat} {op : Operation} {attempt : Attempt} {s : Store}
      (looking : x.calls i = .looking op attempt)
      (failed : exec (op.run attempt.snapshot) x.store = (.error e, s))
  /-- A commit fails that no one else takes part in. -/
  | commit {request : Commit} {s : Store}
      (failed : exec (x.trunk.commit request) x.store = (.error e, s))
  | write {snapshot : Trunk} {request : Commit} {s : Store}
      (begun : x.stage = .begun snapshot request)
      (failed : exec (snapshot.writeDiff request) x.store = (.error e, s))
  | spoil {snapshot : Trunk} {request : Commit} {s : Store}
      (begun : x.stage = .begun snapshot request)
      (failed : exec (snapshot.spoilDiff request) x.store = (.error e, s))
  | pair {diff : WrittenDiff} {s : Store} (overtaken : x.stage = .overtaken diff)
      (failed : exec (Trunk.pairsOf diff) x.store = (.error e, s))
  | rebase {diff : WrittenDiff} {pairs : PageRef.CommitPairs} {current : Tree} {s : Store}
      (rebasing : x.stage = .rebasing diff pairs current)
      (failed : exec (current.rebased pairs) x.store = (.error e, s))
  | finish {commit : Commit} {s : Store} (installed : x.stage = .installed commit)
      (failed : exec (didCommit commit) x.store = (.error e, s))

theorem Fails.not_saysUncommitted {origin : Tree} (hx : Coherent origin x c)
    (hfails : x.Fails e) : ¬ e.SaysUncommitted := by
  -- what fails does so because a page cannot be had or because the store is closed
  cases hfails with
  | page reaches failed =>
      obtain ⟨c', hgrows, hfit, -⟩ := reaches.fit hx.represents hx.has.fit
      obtain ⟨_, -, hfail, -⟩ := (PageRef.page_runs hgrows.represents hfit.refs).of_error failed
      exact hfail.not_saysUncommitted
  | @read query s suits failed =>
      exact StoreError.not_saysUncommitted (query.error_cases hx.represents hx.has suits failed)
  | scan scans stays failed =>
      exact Cursor.after_error scans.decides stays hx.represents hx.root failed
  | load failed => exact Tree.loaded_error hx.represents hx.root failed
  | operation suits failed =>
      have hkind : x.trunk.tree.kind = (replay origin.kind x.log).kind := hx.has.kind_eq
      rw [hkind] at suits
      exact StoreError.not_saysUncommitted
        (Operation.error_cases hx.represents hx.has suits failed)
  | @call i op attempt s looking failed =>
      have hcall := hx.calls i
      rw [looking] at hcall
      obtain ⟨-, hsuits, ha⟩ := hcall
      have hkind : (attempt.content origin x.log).kind = origin.kind := kind_replay _ _
      rw [← hkind] at hsuits
      exact StoreError.not_saysUncommitted
        (Operation.error_cases hx.represents ha.has hsuits failed)
  | @commit request s failed =>
      obtain ⟨rfl, -⟩ := Trunk.closed_of_commit hx.represents hx.zones hx.has.fit failed
      exact not_false
  | @write snapshot request s begun failed =>
      obtain ⟨rfl, -⟩ :=
        Trunk.closed_of_writeDiff hx.represents hx.zones (hx.fit_of_begun begun) failed
      exact not_false
  | spoil begun failed =>
      exact Trunk.spoilDiff_error hx.represents hx.zones (hx.fit_of_begun begun) failed
  | pair overtaken failed =>
      obtain ⟨pairs, hexec, -⟩ := hx.pairs_up overtaken
      rw [hexec] at failed
      cases failed
  | rebase rebasing failed =>
      obtain ⟨_, -, hruns⟩ := hx.rebases rebasing
      obtain ⟨_, -, hfail, -⟩ := hruns.of_error failed
      exact hfail.not_saysUncommitted
  | @finish commit s installed failed =>
      obtain ⟨_, hexec, -⟩ := exec_didCommit commit x.store
      rw [hexec] at failed
      cases failed

/-! ## What stays -/

/-- Whatever has been done, an uncommitted page of the tree is held strongly, with all pages on the
way to it; beneath a committed page all pages are committed; no read, no call and no commit fails
because a page is not committed; and to soften the tree, or any snapshot of it, leaves every
uncommitted page where it is. -/
theorem uncommitted_stay (hlives : Lives allowed seed x past) :
    (∀ s r, x.store.Reaches x.trunk.tree.root s r → r.isCommitted = false →
      x.store.Anchored x.trunk.tree.root r ∧ ∃ copy, s.hold r = .strong copy) ∧
    (∀ s r s' k, x.store.Reaches x.trunk.tree.root s r → r.isCommitted = true →
      s.Reaches r s' k → k.isCommitted = true) ∧
    (∀ e, x.Fails e → ¬ e.SaysUncommitted) ∧
    ∀ t ∈ x.trunk :: x.softeners, ∀ s r, x.store.Reaches x.trunk.tree.root s r →
      r.isCommitted = false →
        (exec t.soften x.store).2.hold r = x.store.hold r ∧
          (exec t.soften x.store).2.Anchored x.trunk.tree.root r ∧
          ∃ s', (exec t.soften x.store).2.Reaches x.trunk.tree.root s' r := by
  obtain ⟨origin, c, hx, -⟩ := hlives.coherent
  have hanchored : ∀ {s r}, x.store.Reaches x.trunk.tree.root s r → r.isCommitted = false →
      x.store.Anchored x.trunk.tree.root r ∧ s.cells = x.store.cells :=
    fun hreaches huncommitted => hreaches.anchored hx.represents hx.root huncommitted
  refine ⟨?_, ?_, fun e hfails => hfails.not_saysUncommitted hx, ?_⟩
  · intro s r hreaches huncommitted
    obtain ⟨hanchor, hcells⟩ := hanchored hreaches huncommitted
    exact ⟨hanchor, (hanchor.of_cells_eq hcells).hold⟩
  · intro s r s' k hreaches hcommitted hbeneath
    obtain ⟨c', hgrows, hfit, -⟩ := hreaches.fit hx.represents hx.has.fit
    exact hbeneath.isCommitted hgrows.represents hfit.refs hcommitted
  · intro t ht s r hreaches huncommitted
    have hroot : c.refs t.tree.root := by
      rcases List.mem_cons.1 ht with rfl | ht
      · exact hx.root
      · exact hx.softeners t ht
    obtain ⟨hanchor, -⟩ := hanchored hreaches huncommitted
    obtain ⟨hanchor', hsame⟩ := hanchor.keep hx.represents.toMirrors hx.root fun r hr hr' =>
      Trunk.soften_keeps hx.represents hroot hr hr'
    exact ⟨hsame, hanchor', hanchor'.reaches rfl⟩

/-- A tree with a committed leaf and a leaf that is still to be written is softened before it is
committed: the one may go from memory then, and the other stays. -/
theorem uncommitted_stay_changed :
    ∃ x past first s second s', Lives (fun _ => True) orderedSeed x past ∧
      x.store.follow? x.trunk.tree.root [0] = some (s, first) ∧ first.isCommitted = false ∧
      x.store.follow? x.trunk.tree.root [1] = some (s', second) ∧ second.isCommitted = true ∧
      x.store.Anchored x.trunk.tree.root first ∧
      (exec x.trunk.soften x.store).2.hold first = x.store.hold first ∧
      (x.store.hold second).strong?.isSome ∧
      ((exec x.trunk.soften x.store).2.hold second).strong? = none ∧
      ∀ e, x.Fails e → ¬ e.SaysUncommitted := by
  have hplayed : ((crowded.play? (fun _ _ => true) changed).bind fun x =>
      (x.store.follow? x.trunk.tree.root [0]).bind fun first =>
        (x.store.follow? x.trunk.tree.root [1]).map fun second =>
          (first.2.isCommitted, second.2.isCommitted, (x.store.hold second.2).strong?.isSome,
            ((exec x.trunk.soften x.store).2.hold second.2).strong?.isNone)) =
      some (false, true, true, true) := by
    decide +kernel
  obtain ⟨x, hplay, hx⟩ := Option.bind_eq_some_iff.1 hplayed
  obtain ⟨⟨s, first⟩, hfirst, hrest⟩ := Option.bind_eq_some_iff.1 hx
  obtain ⟨⟨s', second⟩, hsecond, hfacts⟩ := Option.map_eq_some_iff.1 hrest
  simp only [Prod.mk.injEq, Option.isNone_iff_eq_none] at hfacts
  obtain ⟨huncommitted, hcommitted, hstrong', hsoftened⟩ := hfacts
  obtain ⟨past, hlives⟩ := lives_of_play starts_crowded hplay
  obtain ⟨hstrong, -, hsaid, hsoft⟩ := uncommitted_stay hlives
  have hreaches := Store.reaches_iff.2 ⟨_, hfirst⟩
  exact ⟨x, past, first, s, second, s', hlives, hfirst, huncommitted, hsecond, hcommitted,
    (hstrong _ _ hreaches huncommitted).1,
    (hsoft _ List.mem_cons_self _ _ hreaches huncommitted).1, hstrong', hsoftened, hsaid⟩

end System
end PageTree
