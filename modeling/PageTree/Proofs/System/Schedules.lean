import PageTree.Proofs.System.Steps

/-!
# Schedules

Which way a `System` goes is a matter of who takes the next step and of what is free to choose in
it; all the rest is computed.  A `System.Move` says that much, and `System.move?` makes the move.
The moves are the steps of the system and no others (`System.step_iff`), so there is a run from one
system to another if and only if some schedule of moves plays out that way (`System.run_iff`).
-/

namespace PageTree

open StoreM

namespace System

/-! ## Moves -/

/-- A move of a client. -/
inductive ClientMove where
  /-- A call is made. -/
  | ask (i : Nat) (op : Operation)
  /-- A call goes on from where it stands. -/
  | advance (i : Nat)
  | raisePost (post : Nat)

/-- A move of the commit. -/
inductive CommitMove where
  | begin (request : Commit)
  /-- The store fails while it writes. -/
  | spoil
  /-- The commit goes on from where it stands. -/
  | advance

/-- A move of those who soften or read trees, by the place of what they have looked at, and of those
who look after the store. -/
inductive StoreMove where
  | lookToSoften
  | soften (n : Nat)
  | lookToRead
  | visit (n : Nat)
  | reclaim (holders : Holders)
  | shiftZone
  | deleteZone (id : Nat)
  | append (request : Commit) (text : String)
  | failNext (count : Nat)
  | close
  | tick (now : Timestamp)
  | pass (nanos : Nat)

/-- A move of anyone. -/
inductive Move where
  | client (move : ClientMove)
  | commit (move : CommitMove)
  | store (move : StoreMove)

/-- The move is one of a client or of the commit. -/
def Move.isQuiet : Move → Bool
  | client _ | commit _ => true
  | store _ => false

/-- A call is made that no one gets in the way of. -/
def Move.callAlone (i : Nat) (op : Operation) : List Move :=
  .client (.ask i op) :: List.replicate 3 (.client (.advance i))

/-- A commit is made that no one overtakes. -/
def Move.commitAlone (request : Commit) : List Move :=
  .commit (.begin request) :: List.replicate 3 (.commit .advance)

/-- A call goes on from where it stands. -/
def advance? (x : System) (i : Nat) : Option System :=
  match x.calls i with
  | .waiting op => some (x.setCall i (.looking op ⟨x.trunk, x.log.length⟩))
  | .looking op attempt =>
    match exec (op.run attempt.snapshot) x.store with
    | (.ok (tree, answer), s) => some ((x.withStore s).setCall i (.ready op attempt tree answer))
    | (.error e, s) => some ((x.withStore s).setCall i (.failed op e))
  | .ready op attempt tree answer =>
    if tree.same attempt.snapshot.tree then
      some (x.setCall i (.done op attempt tree answer false))
    else
      match x.trunk.updateTree attempt.snapshot.tree tree attempt.snapshot.version with
      | (true, trunk) => some ({ x with trunk, log := x.log ++ [(i, op)] }.setCall i
        (.done op attempt tree answer true))
      | (false, _) => some (x.setCall i (.waiting op))
  | .failed op _ => some (x.setCall i (.waiting op))
  | .unused | .done _ _ _ _ _ => none

/-- A client makes a move, if it can. -/
def clientMove? (x : System) : ClientMove → Option System
  | .ask i op =>
    match x.calls i with
    | .unused => if op.Suits x.trunk.tree.kind then some (x.setCall i (.waiting op)) else none
    | _ => none
  | .advance i => x.advance? i
  | .raisePost post => some { x with trunk := x.trunk.raisePost post }

/-- The commit goes on from where it stands. -/
def advanceCommit? (x : System) : Option System :=
  match x.stage with
  | .begun snapshot request =>
    match exec (snapshot.writeDiff request) x.store with
    | (.ok none, s) => some ((x.withStore s).withStage .idle)
    | (.ok (some diff), s) => some { x with
        store := s
        stage := .written diff
        filed := fun z b p => x.filed z b p ∨ Filing diff.committed.root s z b p }
    | (.error _, s) => some ((x.withStore s).withStage .idle)
  | .written diff =>
    match x.trunk.installCommit diff.tree diff.committed diff.version with
    | (true, trunk) => some ({ x with trunk }.withStage (.installed diff.commit))
    | (false, _) => some (x.withStage (.overtaken diff))
  | .overtaken diff =>
    match exec (Trunk.pairsOf diff) x.store with
    | (.ok pairs, s) => some ((x.withStore s).withStage (.paired diff pairs))
    | (.error _, _) => none
  | .paired diff pairs => some (x.withStage (.rebasing diff pairs x.trunk.tree))
  | .rebasing diff pairs current =>
    match exec (current.rebased pairs) x.store with
    | (.ok tree, s) => some ((x.withStore s).withStage (.rebased diff pairs current tree))
    | (.error _, s) => some ((x.withStore s).withStage .idle)
  | .rebased diff pairs current tree =>
    match x.trunk.installCommit current tree diff.version with
    | (true, trunk) => some ({ x with trunk }.withStage (.installed diff.commit))
    | (false, _) => some (x.withStage (.paired diff pairs))
  | .installed commit =>
    match exec (didCommit commit) x.store with
    | (.ok (), s) => some ((x.withStore s).withStage .idle)
    | (.error _, _) => none
  | .idle => none

/-- The commit makes a move, if it can. -/
def commitMove? (x : System) : CommitMove → Option System
  | .begin request =>
    match x.stage with
    | .idle => some (x.withStage (.begun x.trunk request))
    | _ => none
  | .spoil =>
    match x.stage with
    | .begun snapshot request =>
      match exec (snapshot.spoilDiff request) x.store with
      | (.error _, s) => some ((x.withStore s).withStage .idle)
      | (.ok (), _) => none
    | _ => none
  | .advance => x.advanceCommit?

/-- Someone else makes a move, if it can be made. -/
def storeMove? (x : System) : StoreMove → Option System
  | .lookToSoften => some { x with softeners := x.trunk :: x.softeners }
  | .soften n => x.softeners[n]?.map fun t => x.withStore (exec t.soften x.store).2
  | .lookToRead => some { x with readers := x.trunk.tree.root :: x.readers }
  | .visit n => x.readers[n]?.map fun r =>
    match exec r.page x.store with
    | (.ok page, s) => { x with store := s, readers := page.children ++ x.readers }
    | (.error _, s) => x.withStore s
  | .reclaim holders => some (x.withStore (x.store.reclaim holders))
  | .shiftZone => some (x.withStore (exec StoreM.shiftZone x.store).2)
  | .deleteZone id => some (x.withStore (exec (StoreM.deleteZone id) x.store).2)
  | .append request text =>
    some (x.withStore (exec (writeZone request fun _ _ => pure (text, ())) x.store).2)
  | .failNext count => some (x.withStore (exec (StoreM.failNext count) x.store).2)
  | .close => some (x.withStore (exec StoreM.close x.store).2)
  | .tick now => some (x.withStore { x.store with now })
  | .pass nanos => some (x.withStore { x.store with uptime := x.store.uptime + nanos })

/-- Someone makes a move, if it can be made. -/
def move? (x : System) : Move → Option System
  | .client move => x.clientMove? move
  | .commit move => x.commitMove? move
  | .store move => x.storeMove? move

/-! ## Moves are steps -/

variable {x y : System}

theorem clientStep_of_advance {i : Nat} (hmove : x.advance? i = some y) : ClientStep x y := by
  unfold advance? at hmove
  split at hmove
  · next waiting =>
      cases hmove
      exact .look waiting
  · next looking =>
      split at hmove
      · next computed =>
          cases hmove
          exact .compute looking computed
      · next failed =>
          cases hmove
          exact .fail looking failed
  · next ready =>
      split at hmove
      · next same =>
          cases hmove
          exact .keep ready same
      · next moved =>
          rw [Bool.not_eq_true] at moved
          split at hmove
          · next swapped =>
              cases hmove
              exact .swap ready moved swapped
          · next lost =>
              cases hmove
              exact .lose ready moved lost
  · next failed =>
      cases hmove
      exact .retry failed
  · cases hmove
  · cases hmove

/-- The moves of clients are their steps. -/
theorem clientStep_iff : ClientStep x y ↔ ∃ move, x.clientMove? move = some y := by
  constructor
  · intro hstep
    cases hstep with
    | @call i op unused suits =>
        exact ⟨.ask i op, by simp only [clientMove?, unused, if_pos suits]⟩
    | @look i _ waiting => exact ⟨.advance i, by simp only [clientMove?, advance?, waiting]⟩
    | @compute i _ _ _ _ _ looking computed =>
        exact ⟨.advance i, by simp only [clientMove?, advance?, looking, computed]⟩
    | @fail i _ _ _ _ looking failed =>
        exact ⟨.advance i, by simp only [clientMove?, advance?, looking, failed]⟩
    | @retry i _ _ failed => exact ⟨.advance i, by simp only [clientMove?, advance?, failed]⟩
    | @keep i _ _ _ _ ready same =>
        exact ⟨.advance i, by simp only [clientMove?, advance?, ready, if_pos same]⟩
    | @swap i _ _ _ _ _ ready moved swapped =>
        exact ⟨.advance i, by simp [clientMove?, advance?, ready, moved, swapped]⟩
    | @lose i _ _ _ _ _ ready moved lost =>
        exact ⟨.advance i, by simp [clientMove?, advance?, ready, moved, lost]⟩
    | raisePost post => exact ⟨.raisePost post, rfl⟩
  · rintro ⟨move, hmove⟩
    cases move with
    | ask i op =>
        dsimp only [clientMove?] at hmove
        split at hmove
        · next unused =>
            split at hmove
            · next suits =>
                cases hmove
                exact .call unused suits
            · cases hmove
        · cases hmove
    | advance i => exact clientStep_of_advance hmove
    | raisePost post =>
        cases hmove
        exact .raisePost post

theorem commitStep_of_advance (hmove : x.advanceCommit? = some y) : CommitStep x y := by
  unfold advanceCommit? at hmove
  split at hmove
  · next begun =>
      split at hmove
      · next skipped =>
          cases hmove
          exact .skip begun skipped
      · next wrote =>
          cases hmove
          exact .write begun wrote
      · next refused =>
          cases hmove
          exact .refuse begun refused
  · next written =>
      split at hmove
      · next installed =>
          cases hmove
          exact .install written installed
      · next missed =>
          cases hmove
          exact .miss written missed
  · next overtaken =>
      split at hmove
      · next gathered =>
          cases hmove
          exact .pair overtaken gathered
      · cases hmove
  · next paired =>
      cases hmove
      exact .look paired
  · next rebasing =>
      split at hmove
      · next rebased =>
          cases hmove
          exact .rebase rebasing rebased
      · next failed =>
          cases hmove
          exact .abort rebasing failed
  · next rebased =>
      split at hmove
      · next installed =>
          cases hmove
          exact .installRebased rebased installed
      · next missed =>
          cases hmove
          exact .missRebased rebased missed
  · next installed =>
      split at hmove
      · next finished =>
          cases hmove
          exact .finish installed finished
      · cases hmove
  · cases hmove

/-- The moves of the commit are its steps. -/
theorem commitStep_iff : CommitStep x y ↔ ∃ move, x.commitMove? move = some y := by
  constructor
  · intro hstep
    cases hstep with
    | begin request idle => exact ⟨.begin request, by simp only [commitMove?, idle]⟩
    | spoil begun spoiled => exact ⟨.spoil, by simp only [commitMove?, begun, spoiled]⟩
    | skip stands computed | write stands computed | refuse stands computed
    | install stands computed | miss stands computed | pair stands computed
    | rebase stands computed | abort stands computed | installRebased stands computed
    | missRebased stands computed | finish stands computed =>
        exact ⟨.advance, by simp only [commitMove?, advanceCommit?, stands, computed]⟩
    | look paired => exact ⟨.advance, by simp only [commitMove?, advanceCommit?, paired]⟩
  · rintro ⟨move, hmove⟩
    cases move with
    | begin request =>
        dsimp only [commitMove?] at hmove
        split at hmove
        · next idle =>
            cases hmove
            exact .begin request idle
        · cases hmove
    | spoil =>
        dsimp only [commitMove?] at hmove
        split at hmove
        · next begun =>
            split at hmove
            · next spoiled =>
                cases hmove
                exact .spoil begun spoiled
            · cases hmove
        · cases hmove
    | advance => exact commitStep_of_advance hmove

/-- The moves of the others are their steps. -/
theorem storeStep_iff : StoreStep x y ↔ ∃ move, x.storeMove? move = some y := by
  constructor
  · intro hstep
    cases hstep with
    | lookToSoften => exact ⟨.lookToSoften, rfl⟩
    | soften looked =>
        obtain ⟨n, hn⟩ := List.mem_iff_getElem?.1 looked
        exact ⟨.soften n, by simp only [storeMove?, hn, Option.map_some]⟩
    | lookToRead => exact ⟨.lookToRead, rfl⟩
    | visit looked found =>
        obtain ⟨n, hn⟩ := List.mem_iff_getElem?.1 looked
        exact ⟨.visit n, by simp only [storeMove?, hn, Option.map_some, found]⟩
    | visitInVain looked failed =>
        obtain ⟨n, hn⟩ := List.mem_iff_getElem?.1 looked
        exact ⟨.visit n, by simp only [storeMove?, hn, Option.map_some, failed]⟩
    | reclaim holders => exact ⟨.reclaim holders, rfl⟩
    | shiftZone => exact ⟨.shiftZone, rfl⟩
    | deleteZone id => exact ⟨.deleteZone id, rfl⟩
    | append request text => exact ⟨.append request text, rfl⟩
    | failNext count => exact ⟨.failNext count, rfl⟩
    | close => exact ⟨.close, rfl⟩
    | tick now => exact ⟨.tick now, rfl⟩
    | pass nanos => exact ⟨.pass nanos, rfl⟩
  · rintro ⟨move, hmove⟩
    cases move with
    | lookToSoften =>
        cases hmove
        exact .lookToSoften
    | soften n =>
        obtain ⟨t, ht, rfl⟩ := Option.map_eq_some_iff.1 hmove
        exact .soften (List.mem_of_getElem? ht)
    | lookToRead =>
        cases hmove
        exact .lookToRead
    | visit n =>
        obtain ⟨r, hr, rfl⟩ := Option.map_eq_some_iff.1 hmove
        split
        · next found => exact .visit (List.mem_of_getElem? hr) found
        · next failed => exact .visitInVain (List.mem_of_getElem? hr) failed
    | reclaim holders =>
        cases hmove
        exact .reclaim holders
    | shiftZone =>
        cases hmove
        exact .shiftZone
    | deleteZone id =>
        cases hmove
        exact .deleteZone id
    | append request text =>
        cases hmove
        exact .append request text
    | failNext count =>
        cases hmove
        exact .failNext count
    | close =>
        cases hmove
        exact .close
    | tick now =>
        cases hmove
        exact .tick now
    | pass nanos =>
        cases hmove
        exact .pass nanos

/-- The moves of calls and the commit are the steps of a system that no one else works on. -/
theorem quietStep_iff :
    QuietStep x y ↔ ∃ move : Move, x.move? move = some y ∧ move.isQuiet = true := by
  rw [QuietStep, clientStep_iff, commitStep_iff]
  constructor
  · rintro (⟨move, hmove⟩ | ⟨move, hmove⟩)
    · exact ⟨.client move, hmove, rfl⟩
    · exact ⟨.commit move, hmove, rfl⟩
  · rintro ⟨_ | _ | _, hmove, hquiet⟩
    · exact .inl ⟨_, hmove⟩
    · exact .inr ⟨_, hmove⟩
    · cases hquiet

/-- The moves are the steps of the system. -/
theorem step_iff : Step x y ↔ ∃ move : Move, x.move? move = some y := by
  rw [Step, quietStep_iff, storeStep_iff]
  constructor
  · rintro (⟨move, hmove, -⟩ | ⟨move, hmove⟩)
    · exact ⟨move, hmove⟩
    · exact ⟨.store move, hmove⟩
  · rintro ⟨move | move | move, hmove⟩
    · exact .inl ⟨.client move, hmove, rfl⟩
    · exact .inl ⟨.commit move, hmove, rfl⟩
    · exact .inr ⟨move, hmove⟩

/-! ## Schedules are runs -/

/-- Makes one move after another; none if one of them cannot be made, or may not. -/
def play? (x : System) (may : Move → System → Bool) : List Move → Option System
  | [] => some x
  | move :: moves =>
    match x.move? move with
    | some y => if may move y then y.play? may moves else none
    | none => none

/-- The runs of steps that moves make are the schedules of these moves. -/
theorem play_iff {R : System → System → Prop} {may : Move → System → Bool}
    (hsteps : ∀ x y, R x y ↔ ∃ move, x.move? move = some y ∧ may move y = true) :
    Relation.ReflTransGen R x y ↔ ∃ moves, x.play? may moves = some y := by
  constructor
  · intro hrun
    induction hrun using Relation.ReflTransGen.head_induction_on with
    | refl => exact ⟨[], rfl⟩
    | head hstep _ ih =>
        obtain ⟨move, hmove, hmay⟩ := (hsteps _ _).1 hstep
        obtain ⟨moves, hmoves⟩ := ih
        exact ⟨move :: moves, by simp only [play?, hmove, if_pos hmay, hmoves]⟩
  · rintro ⟨moves, hmoves⟩
    induction moves generalizing x with
    | nil =>
        cases hmoves
        exact .refl
    | cons move moves ih =>
        unfold play? at hmoves
        split at hmoves
        · next z hmove =>
            split at hmoves
            · next hmay => exact .head ((hsteps x z).2 ⟨move, hmove, hmay⟩) (ih hmoves)
            · cases hmoves
        · cases hmoves

/-- There is a run if and only if there is a schedule. -/
theorem run_iff :
    Relation.ReflTransGen Step x y ↔ ∃ moves, x.play? (fun _ _ => true) moves = some y :=
  play_iff fun _ _ => by simp only [step_iff, and_true]

/-- Calls and commits lead from one system to another if and only if there is a schedule of their
moves. -/
theorem quiet_run_iff :
    Relation.ReflTransGen QuietStep x y ↔
      ∃ moves, x.play? (fun move _ => move.isQuiet) moves = some y :=
  play_iff fun _ _ => quietStep_iff

end System
end PageTree
