import PageTree.Proofs.Conduct.Cursors
import PageTree.Proofs.Conduct.Residing

/-!
# Resident trees stay in memory

A trunk may start with a tree that has been loaded.  Whatever calls and commits make of it from then
on, all pages of the tree of the trunk are held strongly, the tree goes on to be resident, and no
page is ever loaded again (`System.loaded_tree_stays`), as long as no one softens a tree that is not
resident and has pages in common with what the system works on.
-/

namespace PageTree

open StoreM

/-! ## What a system works on -/

/-- The trees that a call goes on with. -/
def Call.trees : Call → List Tree
  | .looking _ attempt => [attempt.snapshot.tree]
  | .ready _ attempt tree _ => [attempt.snapshot.tree, tree]
  | _ => []

namespace Stage

/-- The trees that a commit goes on with. -/
def trees : Stage → List Tree
  | .begun snapshot _ => [snapshot.tree]
  | .written diff | .overtaken diff => [diff.tree, diff.committed]
  | .rebasing _ _ current => [current]
  | .rebased _ _ current tree => [current, tree]
  | _ => []

/-- The counterparts that a commit has gathered. -/
def counterparts : Stage → List PageRef
  | .paired _ pairs | .rebasing _ pairs _ | .rebased _ pairs _ _ => pairs.map Prod.snd
  | _ => []

end Stage

/-- No page has been loaded, and none has failed to be. -/
structure Store.Unread (s s' : Store) : Prop where
  loads : s'.stats.loads = s.stats.loads
  failures : s'.failures = s.failures

theorem Store.Rests.unread {s s' : Store} (hrests : s.Rests s') : s.Unread s' :=
  ⟨hrests.loads, hrests.failures⟩

theorem Store.Weakens.unread {s s' : Store} {among : Nat → Prop}
    (hweakens : s.Weakens among s') : s.Unread s' := by
  have hrecelled := hweakens.recelled
  rw [Store.Recelled] at hrecelled
  rw [hrecelled]
  exact ⟨rfl, rfl⟩

/-- The references that a cursor leads to. -/
def Cursor.refs {ι : Type} (k : Cursor ι) : List PageRef :=
  k.stack.flatMap Frame.refs

/-- What is reached from a firm page is firm where the way began. -/
theorem Store.Reaches.firm {s s' : Store} {r k : PageRef} (hreaches : s.Reaches r s' k)
    (hfirm : s.Firm r) : s.Firm k := by
  induction hreaches with
  | here => exact hfirm
  | @down s s' _ r m _ page found child _ ih =>
      obtain ⟨hhold, hchildren⟩ := hfirm
      rw [PageRef.exec_page_of_strong hhold] at found
      cases found
      have hcells : s.cells = (exec PageRef.countHit s).2.cells := rfl
      have hthere : (exec PageRef.countHit s).2.Firm m :=
        (hchildren m child).rest (.of_cells_eq hcells.symm rfl rfl)
      exact (ih hthere).rest (.of_cells_eq hcells rfl rfl)

/-- What a commit does when it is over leaves all pages in memory. -/
theorem didCommit_rests {commit : Commit} {s s' : Store}
    (hexec : exec (didCommit commit) s = (.ok (), s')) : s.Rests s' := by
  obtain ⟨s'', hexec', hs''⟩ := exec_didCommit commit s
  rw [hexec'] at hexec
  cases hexec
  rcases hs'' with rfl | rfl <;> exact .of_cells_eq rfl rfl rfl

namespace System

variable {x y : System} {t : Tree} {r : PageRef} {s : Store}

/-- A reference that someone in the system goes on with. -/
inductive Needs (x : System) : PageRef → Prop where
  | trunk : Needs x x.trunk.tree.root
  | call {i : Nat} {t : Tree} (mem : t ∈ (x.calls i).trees) : Needs x t.root
  | stage {t : Tree} (mem : t ∈ x.stage.trees) : Needs x t.root
  | counterpart {r : PageRef} (mem : r ∈ x.stage.counterparts) : Needs x r
  | reader {r : PageRef} (mem : r ∈ x.readers) : Needs x r

/-- A step of anyone, or of those who make whole reads of trees that are being read, or who soften
trees that have no pages in common with what the system works on. -/
inductive GuestStep : System → System → Prop where
  | step {x y : System} (step : Step x y) : GuestStep x y
  | query {x : System} {t : Tree} (looked : t.root ∈ x.readers) (query : Query) :
      GuestStep x (x.withStore (exec (query.run t) x.store).2)
  /-- A call is made of a cursor, and comes to a result or fails. -/
  | scan {x : System} {ι : Type} {policy : Policy ι} {kind : TreeKind} {k k' : Cursor ι}
      {result : Except StoreError (CursorAnswer ι)} {s : Store} (scans : policy.Scans kind)
      (follows : k.policy = policy) (looked : ∀ r ∈ k.refs, r ∈ x.readers) (call : CursorCall)
      (reopens : ∀ root, call.root? = some root → root ∈ x.readers)
      (made : call.make.exec k x.store = ((result, k'), s)) :
      GuestStep x { x with store := s, readers := k'.refs ++ x.readers }
  | soften {x : System} (t : Tree) (version : Nat)
      (apart : t.isResident = false → ∀ r, x.Needs r → x.store.Apart t.root r) :
      GuestStep x (x.withStore (exec (t.soften version) x.store).2)

/-- A system without calls over a store in which the tree of the trunk has just been loaded. -/
structure StartsLoaded (x : System) : Prop where
  tree : ∃ (t : Tree) (s : Store), s.Allocates t.root ∧
    exec t.loaded s = (.ok x.trunk.tree, x.store)
  calls : ∀ i, x.calls i = .unused
  stage : x.stage = .idle
  softeners : x.softeners = []
  readers : x.readers = []

/-! ## The invariant -/

/-- Whatever the system works on is resident. -/
structure IsResident (x : System) : Prop where
  trunk : x.trunk.tree.Resides x.store
  calls : ∀ i, ∀ t ∈ (x.calls i).trees, t.Resides x.store
  stage : ∀ t ∈ x.stage.trees, t.Resides x.store
  counterparts : ∀ r ∈ x.stage.counterparts, x.store.Firm r
  readers : ∀ r ∈ x.readers, x.store.Firm r
  softeners : ∀ t ∈ x.softeners, t.tree.isResident = true

theorem StartsLoaded.isResident (hstart : x.StartsLoaded) : x.IsResident := by
  obtain ⟨⟨t, s, hallocates, hloaded⟩, hcalls, hstage, hsofteners, hreaders⟩ := hstart
  constructor
  · exact Tree.resides_of_loaded hallocates hloaded
  · intro i
    rw [hcalls i]
    exact nofun
  · rw [hstage]
    exact nofun
  · rw [hstage]
    exact nofun
  · rw [hreaders]
    exact nofun
  · rw [hsofteners]
    exact nofun

namespace IsResident

theorem needs (hx : x.IsResident) (hneeds : x.Needs r) : x.store.Firm r := by
  cases hneeds with
  | trunk => exact hx.trunk.firm
  | @call i t mem => exact (hx.calls i t mem).firm
  | @stage t mem => exact (hx.stage t mem).firm
  | counterpart mem => exact hx.counterparts r mem
  | reader mem => exact hx.readers r mem

theorem withStore (hx : x.IsResident) (hrests : x.store.Rests s) : (x.withStore s).IsResident where
  trunk := hx.trunk.rest hrests
  calls i t ht := (hx.calls i t ht).rest hrests
  stage t ht := (hx.stage t ht).rest hrests
  counterparts r hr := (hx.counterparts r hr).rest hrests
  readers r hr := (hx.readers r hr).rest hrests
  softeners := hx.softeners

theorem setCall {i : Nat} {call : Call} (hx : x.IsResident)
    (hcall : ∀ t ∈ call.trees, t.Resides x.store) : (x.setCall i call).IsResident where
  trunk := hx.trunk
  calls j t ht := by
    simp only [System.setCall] at ht
    split at ht
    · exact hcall t ht
    · exact hx.calls j t ht
  stage := hx.stage
  counterparts := hx.counterparts
  readers := hx.readers
  softeners := hx.softeners

theorem withStage {stage : Stage} {filed : Nat → Nat → Page Header → Prop} (hx : x.IsResident)
    (htrees : ∀ t ∈ stage.trees, t.Resides x.store)
    (hcounterparts : ∀ r ∈ stage.counterparts, x.store.Firm r) :
    IsResident { x with stage, filed } :=
  ⟨hx.trunk, hx.calls, htrees, hcounterparts, hx.readers, hx.softeners⟩

theorem withTrunk {trunk : Trunk} {log : List (Nat × Operation)} (hx : x.IsResident)
    (htrunk : trunk.tree.Resides x.store) : IsResident { x with trunk, log } :=
  ⟨htrunk, hx.calls, hx.stage, hx.counterparts, hx.readers, hx.softeners⟩

theorem withReaders {readers : List PageRef} (hx : x.IsResident)
    (hreaders : ∀ r ∈ readers, x.store.Firm r) : IsResident { x with readers } :=
  ⟨hx.trunk, hx.calls, hx.stage, hx.counterparts, hreaders, hx.softeners⟩

/-! ## What calls and commits go on with -/

theorem snapshot {i : Nat} {op : Operation} {attempt : Attempt} (hx : x.IsResident)
    (hlooking : x.calls i = .looking op attempt) : attempt.snapshot.tree.Resides x.store :=
  hx.calls i _ (by rw [hlooking]; exact List.mem_singleton_self _)

theorem ready {i : Nat} {op : Operation} {attempt : Attempt} {tree : Tree} {answer : Option Value}
    (hx : x.IsResident) (hready : x.calls i = .ready op attempt tree answer) :
    tree.Resides x.store :=
  hx.calls i _ (by rw [hready]; exact List.mem_cons_of_mem _ (List.mem_singleton_self _))

theorem writes {snapshot : Trunk} {request : Commit} (hx : x.IsResident)
    (hbegun : x.stage = .begun snapshot request) :
    residing.Obeys (snapshot.writeDiff request) x.store fun diff? s' =>
      ∀ diff, diff? = some diff → diff.tree.Resides s' ∧ diff.committed.Resides s' :=
  Trunk.writeDiff_rests (hx.stage _ (by rw [hbegun]; exact List.mem_singleton_self _)) request

theorem gathers {diff : WrittenDiff} (hx : x.IsResident) (hovertaken : x.stage = .overtaken diff) :
    residing.Obeys (Trunk.pairsOf diff) x.store fun pairs s' =>
      ∀ pair ∈ pairs, s'.Firm pair.2 := by
  have hcommitted := hx.stage diff.committed (by
    rw [hovertaken]
    exact List.mem_cons_of_mem _ (List.mem_singleton_self _))
  exact PageRef.pairCommitted_obeys (d := residing) hcommitted.firm

theorem current {diff : WrittenDiff} {pairs : PageRef.CommitPairs} {current : Tree}
    (hx : x.IsResident) (hrebasing : x.stage = .rebasing diff pairs current) :
    current.Resides x.store :=
  hx.stage _ (by rw [hrebasing]; exact List.mem_singleton_self _)

theorem rebases {diff : WrittenDiff} {pairs : PageRef.CommitPairs} {current : Tree}
    (hx : x.IsResident) (hrebasing : x.stage = .rebasing diff pairs current) :
    residing.Obeys (current.rebased pairs) x.store (residing.Follows current) := by
  have hpairs := hx.counterparts
  rw [hrebasing] at hpairs
  exact Tree.rebased_obeys (d := residing) (hx.current hrebasing).firm
    fun pair hpair => hpairs _ (List.mem_map_of_mem hpair)

/-- What a commit comes to leaves the system resident. -/
theorem commits {stage : Stage} (hx : x.IsResident) (hrests : x.store.Rests s)
    (htrees : ∀ t ∈ stage.trees, t.Resides s) (hcounterparts : ∀ r ∈ stage.counterparts, s.Firm r) :
    ((x.withStore s).withStage stage).IsResident ∧ x.store.Rests s :=
  ⟨(hx.withStore hrests).withStage htrees hcounterparts, hrests⟩

end IsResident

/-! ## Steps of calls -/

/-- Calls leave the system resident. -/
theorem ClientStep.resides (hstep : ClientStep x y) (hx : x.IsResident) :
    y.IsResident ∧ x.store.Rests y.store := by
  have hnone : ∀ {s : Store}, ∀ t ∈ ([] : List Tree), t.Resides s := nofun
  cases hstep with
  | call | retry | keep | lose => exact ⟨hx.setCall hnone, .refl _⟩
  | look waiting =>
      refine ⟨hx.setCall fun t ht => ?_, .refl _⟩
      rw [List.mem_singleton.1 ht]
      exact hx.trunk
  | @compute i op attempt tree answer s looking computed =>
      have hsnapshot := hx.snapshot looking
      obtain ⟨hrests, hfollows⟩ :=
        (Operation.run_obeys (d := residing) attempt.snapshot op hsnapshot.firm).of_ok computed
      refine ⟨(hx.withStore hrests).setCall fun t ht => ?_, hrests⟩
      rcases List.mem_cons.1 ht with rfl | ht
      · exact hsnapshot.rest hrests
      · rw [List.mem_singleton.1 ht]
        exact hsnapshot.follow hfollows
  | @fail i op attempt e s looking failed =>
      have hruns :=
        Operation.run_obeys (d := residing) attempt.snapshot op (hx.snapshot looking).firm
      have hrests := hruns.of_error failed
      exact ⟨(hx.withStore hrests).setCall hnone, hrests⟩
  | @swap i op attempt tree answer trunk ready moved swapped =>
      refine ⟨(hx.withTrunk ?_).setCall hnone, .refl _⟩
      rw [(Trunk.eq_of_updateTree swapped).2]
      exact hx.ready ready
  | raisePost post => exact ⟨hx.withTrunk hx.trunk, .refl _⟩

/-! ## Steps of commits -/

/-- Commits leave the system resident. -/
theorem CommitStep.resides (hstep : CommitStep x y) (hx : x.IsResident) :
    y.IsResident ∧ x.store.Rests y.store := by
  -- most stages hold on to no trees and no references of their own
  have hnone : ∀ {s : Store}, ∀ t ∈ ([] : List Tree), t.Resides s := nofun
  have hfew : ∀ {s : Store}, ∀ r ∈ ([] : List PageRef), s.Firm r := nofun
  have hstage := hx.stage
  have hcounterparts := hx.counterparts
  cases hstep with
  | begin request idle =>
      refine ⟨hx.withStage (fun t ht => ?_) hfew, .refl _⟩
      rw [List.mem_singleton.1 ht]
      exact hx.trunk
  | skip begun skipped => exact hx.commits ((hx.writes begun).of_ok skipped).1 hnone hfew
  | @write _ _ diff s begun wrote =>
      obtain ⟨hrests, hdiff⟩ := (hx.writes begun).of_ok wrote
      obtain ⟨htree, hcommitted⟩ := hdiff diff rfl
      refine ⟨(hx.withStore hrests).withStage (fun t ht => ?_) hfew, hrests⟩
      rcases List.mem_cons.1 ht with rfl | ht
      · exact htree
      · rw [List.mem_singleton.1 ht]
        exact hcommitted
  | refuse begun refused => exact hx.commits ((hx.writes begun).of_error refused) hnone hfew
  | @spoil snapshot request e s begun spoiled =>
      rw [begun] at hstage
      have hspoils := Trunk.spoilDiff_rests (hstage _ (List.mem_singleton_self _)) request
      exact hx.commits (hspoils.of_error spoiled) hnone hfew
  | @install diff trunk written installed =>
      rw [written] at hstage
      refine ⟨(hx.withTrunk ?_).withStage hnone hfew, .refl _⟩
      rw [(Trunk.eq_of_installCommit installed).2]
      exact hstage _ (List.mem_cons_of_mem _ (List.mem_singleton_self _))
  | miss written missed =>
      rw [written] at hstage
      exact ⟨hx.withStage hstage hfew, .refl _⟩
  | @pair diff pairs s overtaken gathered =>
      obtain ⟨hrests, hpairs⟩ := (hx.gathers overtaken).of_ok gathered
      refine hx.commits hrests hnone fun r hr => ?_
      obtain ⟨pair, hpair, rfl⟩ := List.mem_map.1 hr
      exact hpairs pair hpair
  | look paired =>
      rw [paired] at hcounterparts
      refine ⟨hx.withStage (fun t ht => ?_) hcounterparts, .refl _⟩
      rw [List.mem_singleton.1 ht]
      exact hx.trunk
  | @rebase diff pairs current tree s rebasing rebased =>
      have hcurrent := hx.current rebasing
      obtain ⟨hrests, hfollows⟩ := (hx.rebases rebasing).of_ok rebased
      rw [rebasing] at hcounterparts
      refine hx.commits hrests (fun t ht => ?_) fun r hr => (hcounterparts r hr).rest hrests
      rcases List.mem_cons.1 ht with rfl | ht
      · exact hcurrent.rest hrests
      · rw [List.mem_singleton.1 ht]
        exact hcurrent.follow hfollows
  | @abort diff pairs current e s rebasing failed =>
      exact hx.commits ((hx.rebases rebasing).of_error failed) hnone hfew
  | installRebased rebased installed =>
      rw [rebased] at hstage
      refine ⟨(hx.withTrunk ?_).withStage hnone hfew, .refl _⟩
      rw [(Trunk.eq_of_installCommit installed).2]
      exact hstage _ (List.mem_cons_of_mem _ (List.mem_singleton_self _))
  | missRebased rebased missed =>
      rw [rebased] at hcounterparts
      exact ⟨hx.withStage hnone hcounterparts, .refl _⟩
  | @finish commit s installed finished =>
      exact hx.commits (didCommit_rests finished) hnone hfew

/-! ## Steps of others -/

/-- Those who read pages, and those who look after the store, leave the system resident. -/
theorem StoreStep.resides (hstep : StoreStep x y) (hx : x.IsResident) :
    y.IsResident ∧ x.store.Rests y.store := by
  cases hstep with
  | lookToSoften =>
      refine ⟨⟨hx.trunk, hx.calls, hx.stage, hx.counterparts, hx.readers, fun t ht => ?_⟩, .refl _⟩
      rcases List.mem_cons.1 ht with rfl | ht
      · exact hx.trunk.isResident
      · exact hx.softeners t ht
  | @soften t looked =>
      have hexec : exec t.soften x.store = (.ok (), x.store) :=
        Tree.exec_soften_of_resident (hx.softeners t looked) t.version x.store
      rw [hexec]
      exact ⟨hx, .refl _⟩
  | lookToRead =>
      refine ⟨hx.withReaders fun r hr => ?_, .refl _⟩
      rcases List.mem_cons.1 hr with rfl | hr
      · exact hx.trunk.firm
      · exact hx.readers r hr
  | @visit r page s looked found =>
      obtain ⟨hrests, hopens⟩ :=
        (Conduct.page_obeys (d := residing) (hx.readers r looked)).of_ok found
      refine ⟨(hx.withStore hrests).withReaders fun m hm => ?_, hrests⟩
      rcases List.mem_append.1 hm with hm | hm
      · exact hopens m hm
      · exact (hx.readers m hm).rest hrests
  | @visitInVain r e s looked failed =>
      have hrests := (Conduct.page_obeys (d := residing) (hx.readers r looked)).of_error failed
      exact ⟨hx.withStore hrests, hrests⟩
  | reclaim holders =>
      exact ⟨hx.withStore (.reclaim _ holders), .reclaim _ holders⟩
  | append request text =>
      have hrests : x.store.Rests (exec (writeZone request fun _ _ => pure (text, ())) x.store).2 :=
        (writeZone_rests request (P := fun _ _ => True) (fun _ _ => trivial)
          fun _ _ _ _ => .pure trivial).rests
      exact ⟨hx.withStore hrests, hrests⟩
  | shiftZone | deleteZone | failNext | close | tick | pass =>
      exact ⟨hx.withStore (.of_cells_eq rfl rfl rfl), .of_cells_eq rfl rfl rfl⟩

/-- Whatever is read, and whatever is softened that has nothing to do with the system, leaves the
system resident. -/
theorem GuestStep.resides (hstep : GuestStep x y) (hx : x.IsResident) :
    y.IsResident ∧ x.store.Unread y.store := by
  have hstores : ∀ {s : Store}, x.store.Rests s →
      (x.withStore s).IsResident ∧ x.store.Unread (x.withStore s).store :=
    fun hrests => ⟨hx.withStore hrests, hrests.unread⟩
  cases hstep with
  | step hstep =>
      have hmoves : y.IsResident ∧ x.store.Rests y.store := by
        rcases hstep with (hstep | hstep) | hstep
        · exact hstep.resides hx
        · exact hstep.resides hx
        · exact hstep.resides hx
      exact hmoves.imp_right Store.Rests.unread
  | @query t looked query => exact hstores (query.run_obeys t (hx.readers _ looked)).rests
  | @scan ι policy kind k k' result s scans follows looked call reopens made =>
      have hk : residing.Carries policy x.store k := ⟨follows, fun f hf m hm =>
        hx.readers m (looked m (List.mem_flatMap.2 ⟨f, hf, hm⟩))⟩
      have hmoves : x.store.Rests s ∧ residing.Carries policy s k' := by
        rcases (CursorCall.make_steers scans.admits call
          (fun root hroot => hx.readers root (reopens root hroot)) hk).cases with
          ⟨_, _, _, hexec, hrest⟩ | ⟨_, _, _, hexec, hrest⟩
        · rw [hexec] at made
          cases made
          exact hrest
        · rw [hexec] at made
          cases made
          exact hrest
      obtain ⟨hrests, hcarries⟩ := hmoves
      refine ⟨(hx.withStore hrests).withReaders fun r hr => ?_, hrests.unread⟩
      rcases List.mem_append.1 hr with hr | hr
      · obtain ⟨f, hf, hm⟩ := List.mem_flatMap.1 hr
        exact hcarries.tracks f hf r hm
      · exact (hx.readers r hr).rest hrests
  | soften t version apart =>
      cases hresident : t.isResident with
      | true =>
          rw [Tree.exec_soften_of_resident hresident]
          exact hstores (.refl _)
      | false =>
          -- nothing that anyone needs is among what is softened
          have hfirm : ∀ {r}, x.Needs r → (exec (t.soften version) x.store).2.Firm r :=
            fun hneeds => (hx.needs hneeds).soften (apart hresident _ hneeds)
          refine ⟨⟨⟨hx.trunk.isResident, hfirm .trunk⟩,
            fun i t' ht => ⟨(hx.calls i t' ht).isResident, hfirm (.call ht)⟩,
            fun t' ht => ⟨(hx.stage t' ht).isResident, hfirm (.stage ht)⟩,
            fun _ hr => hfirm (.counterpart hr), fun _ hr => hfirm (.reader hr), hx.softeners⟩, ?_⟩
          exact (t.soften_weakens version x.store).unread

theorem IsResident.run (hx : x.IsResident) (hrun : Relation.ReflTransGen GuestStep x y) :
    y.IsResident ∧ x.store.Unread y.store := by
  induction hrun with
  | refl => exact ⟨hx, rfl, rfl⟩
  | tail _ hstep ih =>
      obtain ⟨hy, hunread⟩ := ih
      obtain ⟨hz, hunread'⟩ := hstep.resides hy
      exact ⟨hz, hunread'.loads.trans hunread.loads, hunread'.failures.trans hunread.failures⟩

/-- Whatever is done with a tree that has been loaded, all pages of the tree of the trunk are held
strongly, the tree is resident, and no page is ever loaded again. -/
theorem loaded_tree_stays (hstart : x.StartsLoaded)
    (hrun : Relation.ReflTransGen GuestStep x y) :
    (∀ s r, y.store.Reaches y.trunk.tree.root s r → ∃ copy, y.store.hold r = .strong copy) ∧
      y.trunk.tree.isResident = true ∧ x.store.Unread y.store := by
  obtain ⟨hy, hunread⟩ := hstart.isResident.run hrun
  refine ⟨fun s r hreaches => ?_, hy.trunk.isResident, hunread⟩
  obtain ⟨hhold, -⟩ := hreaches.firm hy.trunk.firm
  exact ⟨_, hhold⟩

/-! ## A map that has been loaded -/

/-- The pages of a map lie in a zone, and none is in memory. -/
def shelvedStore : Store :=
  { Store.create { Settings.forTrials with pageSplitSize := 64 } false ⟨0⟩ with
    zones := ⟨[⟨1, "@bleaf(stem:1,v:1)\x7b1:10\x7d\n" ++ "@bleaf(stem:1,v:1)\x7b2:20,3:30\x7d\n" ++
      "@bnode(stem:1,v:1)\x7b1:@page(zone:1,base:24,size:24,area:25,span:1)," ++
      "2:@page(zone:1,base:54,size:29,area:30,span:2)\x7d\n"⟩], 1, false⟩
    cells := #[⟨.unloaded, none⟩] }

/-- The map. -/
def shelvedTree : Tree :=
  .ofRoot ⟨0, .btree, 1, ⟨1, 1, 168, 113, 169, 3, ⟨0⟩, ⟨0⟩, .absent⟩, 0⟩ orderedSeed

/-- The map has one cell, which holds nothing. -/
theorem shelvedStore_allocates : shelvedStore.Allocates shelvedTree.root := by
  intro m hwithin
  cases hwithin with
  | self => decide
  | beneath held _ _ => cases held

/-- A system that works on a tree that has just been loaded. -/
def ofLoaded (t : Tree) (s : Store) : System :=
  { ordered with store := s, trunk := .ofTree t }

theorem startsLoaded_ofLoaded {t t' : Tree} {s s' : Store} (hallocates : s.Allocates t.root)
    (hloaded : exec t.loaded s = (.ok t', s')) : StartsLoaded (ofLoaded t' s') where
  tree := ⟨t, s, hallocates, hloaded⟩
  calls _ := rfl
  stage := rfl
  softeners := rfl
  readers := rfl

/-- The map is softened, an entry is put again, and while that is committed so is another entry, so
the commit is rebased.  Then the map is softened again and read. -/
def stirred : List Move :=
  [.store .lookToSoften, .store (.soften 0)] ++ Move.callAlone 0 (.put (.int 1) (long 1)) ++
    [.commit (.begin .plain), .commit .advance] ++ Move.callAlone 1 (.put (.int 3) (long 3)) ++
    List.replicate 6 (.commit .advance) ++
    [.store .lookToSoften, .store (.soften 0), .store .lookToRead, .store (.visit 0)]

/-- To load the map takes three loads, and none comes after them.  In the end one of its leaves has
been committed, the other is still to be written, and both are held strongly. -/
theorem loaded_tree_stays_stirred :
    ∃ x y first s second s', x.StartsLoaded ∧ Relation.ReflTransGen GuestStep x y ∧
      x.store.stats.loads = 3 ∧ y.log.map Prod.fst = [0, 1] ∧ y.trunk.version = 2 ∧
      y.store.follow? y.trunk.tree.root [0] = some (s, first) ∧ first.isCommitted = true ∧
      (∃ copy, y.store.hold first = .strong copy) ∧
      y.store.follow? y.trunk.tree.root [1] = some (s', second) ∧ second.isCommitted = false ∧
      (∃ copy, y.store.hold second = .strong copy) ∧
      y.trunk.tree.isResident = true ∧ y.store.stats.loads = 3 := by
  have hplayed : ((exec? shelvedTree.loaded shelvedStore).bind fun loaded =>
      ((ofLoaded loaded.1 loaded.2).play? (fun _ _ => true) stirred).bind fun y =>
        (y.store.follow? y.trunk.tree.root [0]).bind fun first =>
          (y.store.follow? y.trunk.tree.root [1]).map fun second =>
            (loaded.2.stats.loads, y.log.map Prod.fst, y.trunk.version, first.2.isCommitted,
              second.2.isCommitted)) =
      some (3, [0, 1], 2, true, false) := by
    decide +kernel
  obtain ⟨⟨t, s₀⟩, hloaded, ht⟩ := Option.bind_eq_some_iff.1 hplayed
  obtain ⟨y, hplay, hy⟩ := Option.bind_eq_some_iff.1 ht
  obtain ⟨⟨s, first⟩, hfirst, hrest⟩ := Option.bind_eq_some_iff.1 hy
  obtain ⟨⟨s', second⟩, hsecond, hfacts⟩ := Option.map_eq_some_iff.1 hrest
  simp only [Prod.mk.injEq] at hfacts
  obtain ⟨hloads, hlog, hversion, hcommitted, huncommitted⟩ := hfacts
  have hstart := startsLoaded_ofLoaded shelvedStore_allocates (exec?_eq_some.1 hloaded)
  have hrun : Relation.ReflTransGen GuestStep (ofLoaded t s₀) y :=
    (run_iff.2 ⟨_, hplay⟩).lift id fun _ _ => .step
  obtain ⟨hstrong, hresident, hunread⟩ := loaded_tree_stays hstart hrun
  exact ⟨_, y, first, s, second, s', hstart, hrun, hloads, hlog, hversion, hfirst, hcommitted,
    hstrong _ _ (Store.reaches_iff.2 ⟨_, hfirst⟩), hsecond, huncommitted,
    hstrong _ _ (Store.reaches_iff.2 ⟨_, hsecond⟩), hresident, hunread.loads.trans hloads⟩

end System
end PageTree
