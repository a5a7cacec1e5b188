import PageTree.Proofs.Commit.History
import PageTree.Proofs.Posts.Reads
import PageTree.Proofs.System.Anchored
import PageTree.Proofs.System.Lives
import PageTree.Proofs.System.Races

/-!
# Evacuations that commits overlap

A commit looks at the trunk, writes a diff to a zone, and only then installs what it has written or
rebases the tree that it finds; an evacuation looks at the trunk, and only then swaps in the tree
that it has rebuilt.  Between any two of these steps others may take theirs.  What a commit has
written needs no zone but the one written to that has not been needed before (`System.Tidy`).  So
if nothing under way would bring an older zone back (`System.Bars`), an evacuation leaves the tree
clear of older zones, from when it comes back on (`System.evacuation_vacates`).
-/

namespace PageTree

open StoreM

variable {c c' : Chart} {s s' : Store} {zone written : Nat} {r r' root root' m k : PageRef}
  {pairs : PageRef.CommitPairs}

/-! ## Rebased trees -/

/-- Pairs of references in use, where the tree of the second is that of the first with pages in some
zone. -/
def Chart.PlacedPairs (c : Chart) (written : Nat) (pairs : PageRef.CommitPairs) : Prop :=
  ∀ pair ∈ pairs, ∃ m, m.id = pair.1 ∧ c.refs m ∧ c.refs pair.2 ∧
    c.Placed written m.site pair.2.site

theorem Chart.PlacedPairs.mono (hle : c ≤ c') (hpairs : c.PlacedPairs written pairs) :
    c'.PlacedPairs written pairs := by
  intro pair hmem
  obtain ⟨m, hid, hm, hk, hplaced⟩ := hpairs pair hmem
  exact ⟨m, hid, hle.refs m hm, hle.refs _ hk, hplaced.mono hle⟩

/-- References at the same place of two trees go along as the trees do. -/
theorem Store.Paired.placed (hrep : Mirrors s c) (hpaired : s.Paired root root' m k)
    (hroot : c.refs root) (hroot' : c.refs root') (hplaced : c.Placed written root.site root'.site) :
    c.Placed written m.site k.site := by
  induction hpaired with
  | self => exact hplaced
  | @beneath a a' m m' _ _ copy copy' hold hold' child _ ih =>
      obtain ⟨hpage, hrefs⟩ := hrep.held a copy hroot (by rw [hold]; rfl)
      obtain ⟨hpage', hrefs'⟩ := hrep.held a' copy' hroot' (by rw [hold']; rfl)
      obtain ⟨hm, hm'⟩ := List.of_mem_zip child
      obtain ⟨p', hp', hchildren⟩ := hplaced.page_of hpage
      rw [hpage'] at hp'
      cases hp'
      rw [Page.map_children, Page.map_children, List.forall₂_map_left_iff,
        List.forall₂_map_right_iff] at hchildren
      exact ih (hrefs m hm) (hrefs' m' hm') (List.forall₂_zip hchildren child)

/-- A tree that is clear of older zones is so when it has been rebased on what lies in a later
one. -/
theorem Rebased.clears (hrep : Mirrors s c) (hpairs : c.PlacedPairs written pairs)
    (hle : zone ≤ written) (hrebased : Rebased s pairs r r') (hr : c.refs r) (hr' : c.refs r')
    (hclear : r.ClearOf zone) : r'.ClearOf zone := by
  induction hrebased with
  | replaced found =>
      obtain ⟨m, hid, hm, hk, hplaced⟩ := hpairs _ (PageRef.CommitPairs.mem_of_find? found)
      obtain rfl := hrep.unique m _ hm hr hid
      exact hplaced.clearOf (hrep.sound m hm) (hrep.sound _ hk) hclear hle
  | committed => exact hclear
  | rebuilt _ _ uncommitted' hold hold' _ _ _ length _ ih =>
      obtain ⟨hpage, hrefs⟩ := hrep.held _ _ hr (by rw [hold]; rfl)
      obtain ⟨hpage', hrefs'⟩ := hrep.held _ _ hr' (by rw [hold']; rfl)
      have hchildren := hclear.children hrep hr hpage
      have hdesc := (hrep.sound _ hr').describes hpage'
      rw [PageRef.header_site, Page.map_site_header] at hdesc
      refine PageRef.ClearOf.of_children hdesc (fun hcommitted => ?_) fun m hm => ?_
      · rw [uncommitted'] at hcommitted
        cases hcommitted
      · obtain ⟨i, hi, rfl⟩ := List.getElem_of_mem hm
        exact ih i (length ▸ hi) hi (hrefs _ (List.getElem_mem _)) (hrefs' _ hm)
          (hchildren _ (List.getElem_mem _))

/-- What is reached from a page that is clear of older zones is clear of them too. -/
theorem Store.Reaches.clearOf (hreaches : s.Reaches r s' k) (hrep : Represents s c)
    (hr : c.refs r) (hclear : r.ClearOf zone) :
    ∃ c', Represents s' c' ∧ c'.refs k ∧ k.ClearOf zone := by
  induction hreaches generalizing c with
  | here => exact ⟨c, hrep, hr, hclear⟩
  | @down s s' s'' r m k page found child _ ih =>
      obtain ⟨c', hgrows, hpage, hrefs⟩ := (PageRef.page_runs hrep hr).of_ok found
      have hbelow := hclear.children hgrows.represents.toMirrors (hgrows.le.refs r hr) hpage
      exact ih hgrows.represents (hrefs m child) (hbelow m child)

/-! ## What is under way -/

/-- What a commit has written has taken the place of what the commit has looked at, and a tree that
has been rebased on it is clear of older zones if it was. -/
def Stage.Places (c : Chart) : Stage → Prop
  | .idle | .begun _ _ | .installed _ => True
  | .written diff | .overtaken diff =>
    c.Placed diff.zone diff.tree.root.site diff.committed.root.site
  | .paired diff pairs | .rebasing diff pairs _ => c.PlacedPairs diff.zone pairs
  | .rebased diff pairs current tree =>
    c.PlacedPairs diff.zone pairs ∧
      ∀ zone ≤ diff.zone, current.root.ClearOf zone → tree.root.ClearOf zone

theorem Stage.Places.mono {stage : Stage} (hle : c ≤ c') (hplaces : stage.Places c) :
    stage.Places c' := by
  cases stage with
  | idle | begun | installed => trivial
  | written | overtaken => exact Chart.Placed.mono hle hplaces
  | paired | rebasing => exact Chart.PlacedPairs.mono hle hplaces
  | rebased => exact ⟨hplaces.1.mono hle, hplaces.2⟩

/-- A tree that a call has computed is clear of the zones before the post that the call has seen, if
the tree that the call has looked at is; and what an evacuation has computed is in any case. -/
def Call.Clears : Call → Prop
  | .ready op a tree _ =>
    ∀ zone ≤ a.snapshot.post, op = .evacuate ∨ a.snapshot.tree.root.ClearOf zone →
      tree.root.ClearOf zone
  | _ => True

/-- What is left of a call once its client is gone has no tree that is still to be swapped in. -/
theorem Call.clears_remains (call : Call) : call.remains.Clears := by
  unfold remains
  split <;> trivial

namespace System

/-- No call and no commit under way makes a tree need a zone that it does not write to. -/
structure Tidy (x : System) (c : Chart) : Prop where
  stage : x.stage.Places c
  calls : ∀ i, (x.calls i).Clears

variable {x y : System}

theorem Tidy.mono (hle : c ≤ c') (htidy : x.Tidy c) : x.Tidy c' :=
  ⟨htidy.stage.mono hle, htidy.calls⟩

theorem Tidy.setCall {i : Nat} {call : Call} (htidy : x.Tidy c) (hcall : call.Clears) :
    (x.setCall i call).Tidy c where
  stage := htidy.stage
  calls j := by
    show (if j = i then call else x.calls j).Clears
    split
    · exact hcall
    · exact htidy.calls j

theorem CommitStep.calls_eq (hstep : CommitStep x y) : y.calls = x.calls := by
  cases hstep <;> rfl

theorem CommitStep.post_eq (hstep : CommitStep x y) : y.trunk.post = x.trunk.post := by
  cases hstep with
  | install _ installed | installRebased _ installed =>
      obtain ⟨-, rfl⟩ := Trunk.eq_of_installCommit installed
      rfl
  | _ => rfl

theorem StoreStep.rest_eq (hstep : StoreStep x y) :
    y.trunk = x.trunk ∧ y.calls = x.calls ∧ y.stage = x.stage := by
  cases hstep <;> exact ⟨rfl, rfl, rfl⟩

end System

namespace Coherent

variable {origin : Tree} {x y : System}

theorem tidy_client_step (hx : Coherent origin x c) (htidy : x.Tidy c)
    (hstep : System.ClientStep x y) : y.Tidy c := by
  cases hstep with
  | @compute i op a tree answer s looking computed =>
      have hcall := hx.calls i
      rw [looking] at hcall
      have hhas := hcall.2.2.has
      refine System.Tidy.setCall ⟨htidy.stage, htidy.calls⟩ ?_
      rintro zone hpost (rfl | hclear)
      · exact (Operation.evacuate_clears hx.represents hhas computed).mono hpost
      · exact Operation.run_clears hx.represents hhas hclear hpost computed
  | swap => exact System.Tidy.setCall ⟨htidy.stage, htidy.calls⟩ trivial
  | fail => exact System.Tidy.setCall ⟨htidy.stage, htidy.calls⟩ trivial
  | raisePost => exact ⟨htidy.stage, htidy.calls⟩
  | call | look | retry | keep | lose => exact htidy.setCall trivial

theorem tidy_commit_step (hx : Coherent origin x c) (htidy : x.Tidy c)
    (hstep : System.CommitStep x y) (hy : Coherent origin y c') (hle : c ≤ c') : y.Tidy c' := by
  refine ⟨?_, by rw [hstep.calls_eq]; exact htidy.calls⟩
  have hsound := hx.stage
  have hsound' := hy.stage
  have hplaces := htidy.stage.mono hle
  cases hstep with
  | begin | skip | refuse | spoil | abort | finish | install | installRebased => trivial
  | @write snapshot request diff s begun wrote =>
      obtain ⟨c'', hwrote⟩ := hx.wrote begun wrote
      obtain ⟨text, start, -, -, -, hcp⟩ := hwrote.text
      rw [← hwrote.tree] at hcp
      obtain ⟨content, hold, hnew⟩ := hsound'.has
      -- each page of the tree that is written stays where it was or lies in the zone of the diff
      exact hcp.placed hy.represents.toMirrors hold.fit.refs hnew.fit.refs
  | miss written =>
      rw [written] at hplaces
      exact hplaces
  | @pair diff pairs s overtaken gathered =>
      obtain ⟨rfl, hgathers⟩ := hx.gathers overtaken gathered
      rw [overtaken] at hsound hplaces
      obtain ⟨content, hold, hnew⟩ := hsound.has
      intro pair hmem
      rcases hgathers.sound pair hmem with hnil | ⟨a, ha, m, hid, hpaired, hm, hk, -⟩
      · cases hnil
      · obtain rfl := List.mem_singleton.1 ha
        exact ⟨m, hid, hle.refs m hm, hle.refs _ hk, hpaired.placed hy.represents.toMirrors
          (hle.refs _ hold.fit.refs) (hle.refs _ hnew.fit.refs) hplaces⟩
  | look paired =>
      rw [paired] at hplaces
      exact hplaces
  | @rebase diff pairs current tree s rebasing rebased =>
      obtain ⟨content, -, hruns⟩ := hx.rebases rebasing
      obtain ⟨c'', -, -, -, hrebased⟩ := hruns.of_ok rebased
      rw [rebasing] at hplaces
      obtain ⟨-, -, -, content', hcurrent, htree⟩ := hsound'
      exact ⟨hplaces, fun zone hzone hclear => hrebased.clears hy.represents.toMirrors hplaces
        hzone hcurrent.fit.refs htree.fit.refs hclear⟩
  | missRebased rebased =>
      rw [rebased] at hplaces
      exact hplaces.1

/-- A step of anyone leaves what is under way tidy. -/
theorem tidy_step (hx : Coherent origin x c) (htidy : x.Tidy c) (hstep : System.Step x y)
    (hy : Coherent origin y c') (hle : c ≤ c') : y.Tidy c' := by
  rcases hstep with (hclient | hcommit) | hstore
  · exact (hx.tidy_client_step htidy hclient).mono hle
  · exact hx.tidy_commit_step htidy hcommit hy hle
  · obtain ⟨-, hcalls, hstage⟩ := hstore.rest_eq
    refine System.Tidy.mono hle ⟨?_, ?_⟩
    · rw [hstage]
      exact htidy.stage
    · rw [hcalls]
      exact htidy.calls

end Coherent

namespace System

variable {allowed : Operation → Prop} {seed : Seed} {x y : System} {past : List System}

/-- Whatever a system has been through, what is under way is tidy. -/
theorem Lives.tidy (hlives : Lives allowed seed x past) :
    ∃ origin c, Coherent origin x c ∧ x.Tidy c := by
  induction hlives with
  | start starts =>
      obtain ⟨c, hx, -⟩ := Coherent.of_starts_within starts
      refine ⟨_, c, hx, ?_, fun i => ?_⟩
      · rw [starts.stage]
        trivial
      · rw [starts.calls i]
        trivial
  | step _ step _ ih =>
      obtain ⟨origin, c, hx, htidy⟩ := ih
      obtain ⟨c', hy, hle⟩ := hx.step step
      exact ⟨origin, c', hy, hx.tidy_step htidy step hy hle⟩
  | uncommit _ uncommitted ih =>
      obtain ⟨origin, c, hx, htidy⟩ := ih
      obtain ⟨c', hy, hle, -⟩ := hx.uncommit uncommitted
      exact ⟨origin, c', hy, htidy.stage.mono hle, htidy.calls⟩
  | reopen lives earlier committed opened newest _ =>
      obtain ⟨origin, c, hx, -⟩ := (lives.reopen earlier committed opened newest).coherent
      exact ⟨origin, c, hx, trivial, fun _ => Call.clears_remains _⟩

end System

/-! ## Steps of the zones -/

/-- A write may come after the store has been asked for its request, and before anything that
leaves the store alone. -/
theorem StoreM.turns_writeZone {α β : Type} {build : Nat → Nat → StoreM (String × α)}
    (hspares : ∀ zone base, Spares (build zone base)) (request : Commit)
    {f : Commit → Nat × α → StoreM β} (hf : ∀ commit written s, (exec (f commit written) s).2 = s)
    (s : Store) :
    s.zones.Turns (exec (do
      let commit ← willCommit request
      let written ← writeZone commit build
      f commit written) s).2.zones := by
  rw [exec_bind]
  rcases exec_willCommit request s with ⟨-, hexec⟩ | ⟨commit, hexec⟩
  · rw [hexec]
    exact .stay
  · rw [hexec]
    have hturns := StoreCall.turns_turn s (.write commit build hspares)
    rw [StoreCall.turn] at hturns
    dsimp only
    rw [exec_bind]
    generalize exec (writeZone commit build) s = outcome at hturns
    obtain ⟨_ | written, s'⟩ := outcome
    · exact hturns
    · dsimp only
      rwa [hf]

theorem Trunk.turns_writeDiff (t : Trunk) (request : Commit) (s : Store) :
    s.zones.Turns (exec (t.writeDiff request) s).2.zones := by
  unfold writeDiff
  split
  · exact turns_writeZone (fun _ _ => Tree.buildDiff_spares) request (fun _ _ _ => rfl) s
  · exact .stay

theorem Trunk.turns_spoilDiff (t : Trunk) (request : Commit) (s : Store) :
    s.zones.Turns (exec (t.spoilDiff request) s).2.zones :=
  turns_writeZone (fun _ _ => .bind Tree.buildDiff_spares fun _ => .throw _) request
    (fun _ _ _ => rfl) s

namespace System

variable {x y : System}

/-- An operation that spares a store makes no turn of its zones. -/
theorem turns_of_spares {α : Type} {act : StoreM α} (hact : Spares act) {s s' : Store}
    {outcome : Except StoreError α} (hexec : exec act s = (outcome, s')) :
    s.zones.Turns s'.zones := by
  have hzones := zones_of_spares hact s
  rw [hexec] at hzones
  rw [hzones]
  exact .stay

/-- A step of anyone is at most one turn of the zones. -/
theorem Step.turns (hstep : Step x y) : x.store.zones.Turns y.store.zones := by
  rcases hstep with (hstep | hstep) | hstep
  · cases hstep with
    | compute _ computed => exact turns_of_spares (Operation.run_spares _ _) computed
    | fail _ failed => exact turns_of_spares (Operation.run_spares _ _) failed
    | _ => exact .stay
  · cases hstep with
    | @skip snapshot request s _ skipped =>
        have hturns := snapshot.turns_writeDiff request x.store
        rwa [skipped] at hturns
    | @write snapshot request diff s _ wrote =>
        have hturns := snapshot.turns_writeDiff request x.store
        rwa [wrote] at hturns
    | @refuse snapshot request e s _ refused =>
        have hturns := snapshot.turns_writeDiff request x.store
        rwa [refused] at hturns
    | @spoil snapshot request e s _ spoiled =>
        have hturns := snapshot.turns_spoilDiff request x.store
        rwa [spoiled] at hturns
    | pair _ gathered => exact turns_of_spares PageRef.pairCommitted_spares gathered
    | rebase _ rebased => exact turns_of_spares Tree.rebased_spares rebased
    | abort _ failed => exact turns_of_spares Tree.rebased_spares failed
    | @finish commit s _ finished =>
        have hturns := StoreCall.turns_turn x.store (.didCommit commit)
        rw [StoreCall.turn, finished] at hturns
        exact hturns
    | _ => exact .stay
  · cases hstep with
    | @soften t _ =>
        show x.store.zones.Turns (exec (t.tree.soften t.version) x.store).2.zones
        rw [(t.tree.soften_weakens t.version x.store).recelled]
        exact .stay
    | visit _ found => exact turns_of_spares PageRef.page_spares found
    | visitInVain _ failed => exact turns_of_spares PageRef.page_spares failed
    | shiftZone => exact .shift
    | deleteZone id => exact .delete id
    | append request text =>
        exact StoreCall.turns_turn x.store
          (.write request (fun _ _ => pure (text, ())) fun _ _ => .pure _)
    | close => exact .close
    | _ => exact .stay

end System

/-! ## Evacuations -/

/-- The zone that the commit under way has written to, as long as it has not installed its tree. -/
def Stage.zone? : Stage → Option Nat
  | .idle | .begun _ _ | .installed _ => none
  | .written diff | .overtaken diff | .paired diff _ | .rebasing diff _ _
  | .rebased diff _ _ _ => some diff.zone

/-- What a call under way has looked at. -/
def Call.attempt? : Call → Option Attempt
  | .looking _ a | .ready _ a _ _ => some a
  | _ => none

/-- The call has come back. -/
def Call.IsDone : Call → Prop
  | .done _ _ _ _ _ => True
  | _ => False

/-- A call evacuates a tree: if the tree that it has looked at is clear of older zones, so is this
one, and once it has come back this one is in any case. -/
structure Call.Vacates (call : Call) (t : Tree) (zone : Nat) : Prop where
  operation : call.operation? = some .evacuate
  looked : ∀ a, call.attempt? = some a → a.snapshot.tree.root.ClearOf zone → t.root.ClearOf zone
  done : call.IsDone → t.root.ClearOf zone

theorem Call.Vacates.keep {call : Call} {t t' : Tree} (hvacates : call.Vacates t zone)
    (hclear : t.root.ClearOf zone → t'.root.ClearOf zone) : call.Vacates t' zone where
  operation := hvacates.operation
  looked a ha hroot := hclear (hvacates.looked a ha hroot)
  done hdone := hclear (hvacates.done hdone)

namespace System

variable {allowed : Operation → Prop} {seed : Seed} {origin : Tree} {x y : System}
  {past : List System} {i post : Nat}

/-- Nothing under way brings back a zone before some zone: the post of the trunk has been raised
before any call under way has looked at it, the store has moved on, and no commit is yet to install
what it has written to an older zone. -/
structure Bars (x : System) (zone : Nat) : Prop where
  post : zone ≤ x.trunk.post
  active : zone ≤ x.store.zones.active
  attempts : ∀ i a, (x.calls i).attempt? = some a → zone ≤ a.snapshot.post
  written : ∀ w, x.stage.zone? = some w → zone ≤ w

/-! ## What steps keep barred -/

theorem Bars.setCall {call : Call} (hbars : x.Bars zone)
    (hcall : ∀ a, call.attempt? = some a → zone ≤ a.snapshot.post) :
    (x.setCall i call).Bars zone where
  post := hbars.post
  active := hbars.active
  attempts j a := by
    show (if j = i then call else x.calls j).attempt? = some a → _
    split
    · exact hcall a
    · exact hbars.attempts j a
  written := hbars.written

theorem Bars.client_step (hbars : x.Bars zone) (hactive : zone ≤ y.store.zones.active)
    (hstep : ClientStep x y) : y.Bars zone := by
  have hattempt : ∀ {i call a}, x.calls i = call → call.attempt? = some a →
      zone ≤ a.snapshot.post := by
    rintro i _ a rfl
    exact hbars.attempts i a
  have hnone : ∀ {a : Attempt}, none = some a → zone ≤ a.snapshot.post :=
    fun hnone => by cases hnone
  cases hstep with
  | call | retry | keep | lose => exact hbars.setCall fun _ => hnone
  | look =>
      refine hbars.setCall ?_
      rintro _ ⟨⟩
      exact hbars.post
  | compute looking =>
      refine Bars.setCall ⟨hbars.post, hactive, hbars.attempts, hbars.written⟩ ?_
      rintro _ ⟨⟩
      exact hattempt looking rfl
  | fail =>
      exact Bars.setCall ⟨hbars.post, hactive, hbars.attempts, hbars.written⟩ fun _ => hnone
  | @swap i op a tree answer trunk _ _ swapped =>
      obtain ⟨-, rfl⟩ := Trunk.eq_of_updateTree swapped
      exact Bars.setCall ⟨hbars.post, hbars.active, hbars.attempts, hbars.written⟩ fun _ => hnone
  | raisePost post =>
      exact ⟨Nat.le_trans hbars.post (Nat.le_max_left _ _), hbars.active, hbars.attempts,
        hbars.written⟩

/-- What the commit has written when it has taken a step, it had written before, or it writes it
now to the active zone. -/
theorem Bars.written_commit_step {c : Chart} (hx : Coherent origin x c) (hbars : x.Bars zone)
    (hstep : CommitStep x y) : ∀ w, y.stage.zone? = some w → zone ≤ w := by
  have hwritten : ∀ {stage stage' : Stage}, x.stage = stage → stage'.zone? = stage.zone? →
      ∀ w, stage'.zone? = some w → zone ≤ w := by
    rintro _ stage' rfl hsame
    rw [hsame]
    exact hbars.written
  cases hstep with
  | begin | skip | refuse | spoil | install | abort | installRebased | finish =>
      intro w hnone
      cases hnone
  | @write snapshot request diff s begun wrote =>
      obtain ⟨c', hwrote⟩ := hx.wrote begun wrote
      rintro _ ⟨⟩
      rw [hwrote.zone]
      exact Nat.le_trans hbars.active (Commit.active_zones _ _)
  | miss stage | pair stage | look stage | rebase stage | missRebased stage =>
      exact hwritten stage rfl

/-- What is barred stays barred. -/
theorem Bars.step {c : Chart} (hx : Coherent origin x c) (hbars : x.Bars zone)
    (hstep : Step x y) : y.Bars zone := by
  have hactive := Nat.le_trans hbars.active (hstep.turns.follows hx.zones).active
  rcases hstep with (hclient | hcommit) | hstore
  · exact hbars.client_step hactive hclient
  · refine ⟨?_, hactive, ?_, hbars.written_commit_step hx hcommit⟩
    · rw [hcommit.post_eq]
      exact hbars.post
    · rw [hcommit.calls_eq]
      exact hbars.attempts
  · obtain ⟨htrunk, hcalls, hstage⟩ := hstore.rest_eq
    refine ⟨?_, hactive, ?_, ?_⟩
    · rw [htrunk]
      exact hbars.post
    · rw [hcalls]
      exact hbars.attempts
    · rw [hstage]
      exact hbars.written

/-! ## What steps keep clear -/

/-- What an evacuation has computed is clear of what is barred. -/
theorem Tidy.clear_ready {c : Chart} {op : Operation} {a : Attempt} {tree : Tree}
    {answer : Option Value} (htidy : x.Tidy c) (hbars : x.Bars zone)
    (hready : x.calls i = .ready op a tree answer) (hop : op = .evacuate) :
    tree.root.ClearOf zone := by
  have hclears := htidy.calls i
  have hpost := hbars.attempts i a
  rw [hready] at hclears hpost
  exact hclears zone (hpost rfl) (Or.inl hop)

/-- The tree that takes the place of the trunk's tree is clear of what is barred, if the trunk's
tree is. -/
theorem Tidy.clear_step {c : Chart} (hx : Coherent origin x c) (htidy : x.Tidy c)
    (hbars : x.Bars zone) (hstep : Step x y) (hclear : x.trunk.tree.root.ClearOf zone) :
    y.trunk.tree.root.ClearOf zone := by
  -- only a swap and the end of a commit give the trunk another tree
  rcases hstep with (hclient | hcommit) | hstore
  · cases hclient with
    | @swap i op a tree answer trunk ready _ swapped =>
        have hcall := hx.calls i
        have hclears := htidy.calls i
        have hpost := hbars.attempts i a
        rw [ready] at hcall hclears hpost
        obtain ⟨hat, rfl⟩ := Trunk.eq_of_updateTree swapped
        refine hclears zone (hpost rfl) (Or.inr ?_)
        rwa [hx.root_eq hcall.2.2.1.has.fit.refs hat] at hclear
    | _ => exact hclear
  · have hstage := hx.stage
    have hplaces := htidy.stage
    have hwritten := hbars.written
    cases hcommit with
    | @install diff trunk written installed =>
        rw [written] at hstage hplaces hwritten
        obtain ⟨content, hold, hnew⟩ := hstage.has
        obtain ⟨hat, rfl⟩ := Trunk.eq_of_installCommit installed
        rw [hx.root_eq hold.fit.refs hat] at hclear
        exact Chart.Placed.clearOf hplaces (hx.represents.sound _ hold.fit.refs)
          (hx.represents.sound _ hnew.fit.refs) hclear (hwritten _ rfl)
    | @installRebased diff pairs current tree trunk rebased installed =>
        rw [rebased] at hstage hplaces hwritten
        obtain ⟨-, -, -, content, hold, -⟩ := hstage
        obtain ⟨hat, rfl⟩ := Trunk.eq_of_installCommit installed
        rw [hx.root_eq hold.fit.refs hat] at hclear
        exact hplaces.2 zone (hwritten _ rfl) hclear
    | _ => exact hclear
  · rw [hstore.rest_eq.1]
    exact hclear

/-! ## What becomes of an evacuation -/

theorem vacates_setCall {call : Call} {j : Nat}
    (hself : i = j → call.Vacates x.trunk.tree zone)
    (hother : (x.calls i).Vacates x.trunk.tree zone) :
    ((x.setCall j call).calls i).Vacates x.trunk.tree zone := by
  show (if i = j then call else x.calls i).Vacates _ zone
  split
  · next heq => exact hself heq
  · exact hother

/-- The evacuation looks at the trunk, or gives it a tree that is clear of older zones, or finds
that the tree it has looked at is. -/
theorem vacates_client_step {c : Chart} (hx : Coherent origin x c) (htidy : x.Tidy c)
    (hbars : x.Bars zone) (hvacates : (x.calls i).Vacates x.trunk.tree zone)
    (hstep : ClientStep x y) : (y.calls i).Vacates y.trunk.tree zone := by
  have hclear := htidy.clear_step hx hbars (.inl (.inl hstep))
  -- if the step is of another call, the evacuation stays at its stage
  cases hstep with
  | @call j op unused =>
      refine vacates_setCall ?_ hvacates
      rintro rfl
      rw [unused] at hvacates
      cases hvacates.operation
  | @look j op waiting =>
      refine vacates_setCall ?_ hvacates
      rintro rfl
      rw [waiting] at hvacates
      refine ⟨hvacates.operation, ?_, nofun⟩
      rintro _ ⟨⟩ hroot
      exact hroot
  | @compute j op a tree answer s looking =>
      refine vacates_setCall ?_ hvacates
      rintro rfl
      rw [looking] at hvacates
      exact ⟨hvacates.operation, hvacates.looked, nofun⟩
  | @fail j op a e s looking =>
      refine vacates_setCall ?_ hvacates
      rintro rfl
      rw [looking] at hvacates
      exact ⟨hvacates.operation, nofun, nofun⟩
  | @retry j op e failed =>
      refine vacates_setCall ?_ hvacates
      rintro rfl
      rw [failed] at hvacates
      exact ⟨hvacates.operation, nofun, nofun⟩
  | @lose j op a tree answer trunk ready =>
      refine vacates_setCall ?_ hvacates
      rintro rfl
      rw [ready] at hvacates
      exact ⟨hvacates.operation, nofun, nofun⟩
  | @keep j op a tree answer ready same =>
      refine vacates_setCall ?_ hvacates
      rintro rfl
      have hcall := hx.calls i
      have htree := htidy.clear_ready hbars ready
      rw [ready] at hcall hvacates
      have hroot := hx.represents.eq_of_same hcall.2.2.2.2.1.fit.refs hcall.2.2.1.has.fit.refs same
      refine ⟨hvacates.operation, nofun, fun _ => hvacates.looked a rfl ?_⟩
      rw [← hroot]
      exact htree (Option.some.inj hvacates.operation)
  | @swap j op a tree answer trunk ready _ swapped =>
      obtain ⟨-, rfl⟩ := Trunk.eq_of_updateTree swapped
      refine vacates_setCall ?_ (hvacates.keep hclear)
      rintro rfl
      have htree := htidy.clear_ready hbars ready
      rw [ready] at hvacates
      exact ⟨hvacates.operation, nofun, fun _ => htree (Option.some.inj hvacates.operation)⟩
  | raisePost => exact hvacates

/-- An evacuation of what is barred goes on. -/
theorem vacates_step {c : Chart} (hx : Coherent origin x c) (htidy : x.Tidy c)
    (hbars : x.Bars zone) (hvacates : (x.calls i).Vacates x.trunk.tree zone)
    (hstep : Step x y) : (y.calls i).Vacates y.trunk.tree zone := by
  have hclear := htidy.clear_step hx hbars hstep
  rcases hstep with (hclient | hcommit) | hstore
  · exact vacates_client_step hx htidy hbars hvacates hclient
  · rw [hcommit.calls_eq]
    exact hvacates.keep hclear
  · rw [hstore.rest_eq.2.1]
    exact hvacates.keep hclear

/-- A run keeps what is barred so, and an evacuation goes on. -/
theorem vacates_run {c : Chart} (hx : Coherent origin x c) (htidy : x.Tidy c)
    (hbars : x.Bars zone) (hvacates : (x.calls i).Vacates x.trunk.tree zone)
    (hrun : Relation.ReflTransGen Step x y) :
    ∃ c', Coherent origin y c' ∧ y.Tidy c' ∧ y.Bars zone ∧
      (y.calls i).Vacates y.trunk.tree zone := by
  induction hrun with
  | refl => exact ⟨c, hx, htidy, hbars, hvacates⟩
  | tail _ hstep ih =>
      obtain ⟨c', hy, htidy', hbars', hvacates'⟩ := ih
      obtain ⟨c'', hz, hle⟩ := hy.step hstep
      exact ⟨c'', hz, hy.tidy_step htidy' hstep hz hle, hbars'.step hy hstep,
        vacates_step hy htidy' hbars' hvacates' hstep⟩

/-- An evacuation that looks at the trunk when nothing under way brings back an older zone, whatever
calls, commits and others do before it comes back and after: the trunk's tree is then clear of the
zones before the post.  No page of it lies there, and all reads of it go on as they are when these
zones are deleted. -/
theorem evacuation_vacates {a : Attempt} {tree : Tree} {answer : Option Value} {isSwapped : Bool}
    (hlives : Lives allowed seed x past) (hwaits : x.calls i = .waiting .evacuate)
    (hbars : x.Bars post) (hrun : Relation.ReflTransGen Step x y)
    (hdone : y.calls i = .done .evacuate a tree answer isSwapped) :
    (y.trunk.tree.root.post = 0 ∨ post ≤ y.trunk.tree.root.post) ∧
      (∀ s r, y.store.Reaches y.trunk.tree.root s r → r.isCommitted = true → post ≤ r.zone) ∧
      ∀ s, y.store.Sheds post s → ∀ query : Query,
        (exec (query.run y.trunk.tree) s).1 = (exec (query.run y.trunk.tree) y.store).1 := by
  obtain ⟨origin, c, hx, htidy⟩ := hlives.tidy
  have hvacates : (x.calls i).Vacates x.trunk.tree post := by
    rw [hwaits]
    exact ⟨rfl, nofun, nofun⟩
  obtain ⟨c', hy, -, -, hvacated⟩ := vacates_run hx htidy hbars hvacates hrun
  rw [hdone] at hvacated
  have hclear := hvacated.done trivial
  refine ⟨hclear, fun s r hreaches hcommitted => ?_, fun s hsheds query => ?_⟩
  · obtain ⟨c'', hrep, hr, hclear'⟩ := hreaches.clearOf hy.represents hy.root hclear
    obtain ⟨p, hpage⟩ := (hrep.sound r hr).page
    have hdesc := (hrep.sound r hr).describes hpage
    rw [PageRef.header_site] at hdesc
    exact hclear'.le_zone hdesc hcommitted
  · obtain ⟨zones, rfl, hagree⟩ := hsheds.eq_withZones
    rw [query.run_withZones hy.represents hy.root hclear hagree]

/-- A register is set, and a commit of it begins; the store moves on to the second zone, and the
commit writes there.  The register is evacuated, and only then the commit installs its tree. -/
theorem evacuation_vacates_register :
    ∃ x past y s, Lives (fun _ => True) registerSeed x past ∧ x.calls 1 = .waiting .evacuate ∧
      x.stage.zone? = some 2 ∧ x.Bars 2 ∧ Relation.ReflTransGen Step x y ∧ (y.calls 1).IsDone ∧
      y.trunk.tree.root.post = 2 ∧ (y.trunk.tree.root.post = 0 ∨ 2 ≤ y.trunk.tree.root.post) ∧
      y.store.Sheds 2 s ∧ s.zones.text? 1 = none ∧
      (exec (UTree.get y.trunk.tree) s).1.toOption = some (.int 10) := by
  have hasks : ∀ {y : System}, y.Asks fun _ => True := fun _ _ _ => trivial
  have hstart : Lives (fun _ => True) registerSeed register [] := .start starts_register
  have hlives := hstart
    |>.step (.inl (.inl (@ClientStep.call register 0 (.set (.int 10)) rfl rfl))) hasks
    |>.step (.inl (.inl (.look (i := 0) rfl))) hasks
    |>.step (.inl (.inl (.compute (i := 0) rfl rfl))) hasks
    |>.step (.inl (.inl (.swap (i := 0) rfl rfl rfl))) hasks
    |>.step (.inl (.inr (.begin .plain rfl))) hasks
    |>.step (.inr .shiftZone) hasks
    |>.step (.inl (.inr (.write rfl (exec_eq_ok_some (by decide +kernel))))) hasks
    |>.step (.inl (.inl (.raisePost 2))) hasks
    |>.step (.inl (.inl (@ClientStep.call _ 1 .evacuate rfl trivial))) hasks
  have hfrom : ∀ {x : System} {past : List System}, Lives (fun _ => True) registerSeed x past →
      Relation.ReflTransGen Step x x := fun _ => .refl
  have hrun := hfrom hlives
    |>.tail (.inl (.inl (.look (i := 1) rfl)))
    |>.tail (.inl (.inl (.compute (i := 1) rfl (exec_eq_ok_pair (by decide +kernel)))))
    |>.tail (.inl (.inl (.keep (i := 1) rfl (by decide +kernel))))
    |>.tail (.inl (.inr (.install rfl (if_pos (by decide +kernel)))))
  have hbars : ∀ {x : System} {past : List System}, Lives (fun _ => True) registerSeed x past →
      2 ≤ x.trunk.post → 2 ≤ x.store.zones.active →
      (∀ i a, (x.calls i).attempt? = some a → 2 ≤ a.snapshot.post) → x.stage.zone? = some 2 →
        x.Bars 2 ∧ x.stage.zone? = some 2 :=
    fun _ hpost hactive hattempts hzone => ⟨⟨hpost, hactive, hattempts,
      fun w hw => Nat.le_of_eq (Option.some.inj (hzone.symm.trans hw))⟩, hzone⟩
  obtain ⟨hbarred, hzone⟩ := hbars hlives (by decide +kernel) (by decide +kernel) (by
    rintro (_ | _ | i) a ha
    · cases ha
    · cases ha
    · cases ha) (by decide +kernel)
  obtain ⟨hpost, -, hreads⟩ := evacuation_vacates (i := 1) hlives rfl hbarred hrun rfl
  have hsheds : ∀ {x y : System}, Relation.ReflTransGen Step x y →
      y.store.Sheds 2 (exec (deleteZone 1) y.store).2 := fun _ => .single ⟨1, by decide, rfl⟩
  have hread : (exec (UTree.get _) _).1 = (exec (UTree.get _) _).1 :=
    hreads _ (hsheds hrun) .value
  refine ⟨_, _, _, _, hlives, rfl, hzone, hbarred, hrun, trivial, by decide +kernel, hpost,
    hsheds hrun, by decide +kernel, ?_⟩
  rw [hread]
  decide +kernel

end System
end PageTree
