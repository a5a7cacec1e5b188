import PageTree.Proofs.System.Preservation
import PageTree.Proofs.System.Schedules

/-!
# Clients one after another

Whatever order the steps of clients and commits are taken in, the tree of the trunk is what the
operations make that have been swapped in, one after another, and every call that has come back
has the answer that it would have had at its place in that order (`System.replays`).
-/

namespace PageTree

open StoreM

variable {c : Chart} {s : Store} {origin : Tree} {version : Nat} {t : Tree} {content : Content}

/-- Reading the whole tree gives the content. -/
def Content.IsRead (s : Store) (t : Tree) : Content → Prop
  | .listing es => (exec (BTree.entries t.root) s).1 = .ok es
  | .register value => (exec (UTree.get t) s).1 = .ok value
  | .plane f => ∃ es, (exec (QTree.entries t.root) s).1 = .ok es ∧ QTree.Lists es f

/-- A tree that has a content reads as that content where its pages can be had. -/
theorem Chart.Has.isRead (hhas : c.Has version t content) (hrep : Represents s c)
    (hserves : Serves s c) : content.IsRead s t := by
  cases content with
  | listing es =>
      obtain ⟨es', s', c', hread, -, rfl⟩ :=
        (BTree.entries_runs hrep (BTree.Contains.root hhas)).succeeds hserves
      show (exec (BTree.entries t.root) s).1 = .ok es'
      rw [hread]
  | register value =>
      obtain ⟨value', s', c', hread, -, rfl⟩ := (UTree.get_runs hrep hhas).succeeds hserves
      show (exec (UTree.get t) s).1 = .ok value'
      rw [hread]
  | plane f =>
      obtain ⟨es, s', c', hread, -, hlists⟩ := (QTree.entries_runs hrep hhas).succeeds hserves
      exact ⟨es, by rw [hread], hlists⟩

/-- A call has come back: its operation is in the log once, with the answer for what the
operations before it made; or it is not there, and the call has left the tree that it looked at
as it was, with the answer for that tree. -/
def Call.Replays (kind : TreeKind) (log : List (Nat × Operation)) (s : Store) (i : Nat) :
    Call → Prop
  | .done op _ _ answer true =>
    ∃ before after, log = before ++ (i, op) :: after ∧ i ∉ before.map Prod.fst ∧
      i ∉ after.map Prod.fst ∧ op.Answers (replay kind before) answer
  | .done op a tree answer false =>
    i ∉ log.map Prod.fst ∧ tree.same a.snapshot.tree = true ∧
      (replay kind (log.take a.position)).IsRead s a.snapshot.tree ∧
      op.Answers (replay kind (log.take a.position)) answer
  | _ => True

namespace Coherent

variable {x : System}

theorem call_replays (hx : Coherent origin x c) (hserves : Serves x.store c) (i : Nat) :
    (x.calls i).Replays origin.kind x.log x.store i := by
  have hcall := hx.calls i
  cases hstands : x.calls i with
  | unused | waiting | looking | ready | failed => trivial
  | done op a tree answer isSwapped =>
      rw [hstands] at hcall
      cases isSwapped with
      | true =>
          obtain ⟨before, after, hlog, hanswers⟩ := hcall
          have hdistinct := hx.distinct
          rw [hlog, List.map_append, List.map_cons, List.nodup_middle, List.nodup_cons,
            List.mem_append, not_or] at hdistinct
          exact ⟨before, after, hlog, hdistinct.1.1, hdistinct.1.2, hanswers⟩
      | false =>
          obtain ⟨hlog, hsame, ha, -, -, hanswers⟩ := hcall
          exact ⟨hlog, hsame, ha.has.isRead hx.represents hserves, hanswers⟩

end Coherent

/-- In every run of calls and commits, the tree of the trunk reads as what the operations of the
log make of the empty tree, and the calls that have come back fit the log. -/
theorem System.replays {seed : Seed} {x₀ x : System} (hstarts : System.Starts seed x₀)
    (hrun : Relation.ReflTransGen System.QuietStep x₀ x) :
    (replay seed.kind x.log).IsRead x.store x.trunk.tree ∧
      ∀ i, (x.calls i).Replays seed.kind x.log x.store i := by
  obtain ⟨c₀, hx₀, hall, hseed⟩ := Coherent.of_starts hstarts
  obtain ⟨c, hleads⟩ := hx₀.quiet_run hrun
  have hx := hleads.coherent
  have hserves : Serves x.store c := Or.inl (hleads.resident hall)
  have hkind : x₀.trunk.tree.kind = seed.kind := congrArg Seed.kind hseed
  rw [← hkind]
  exact ⟨hx.has.isRead hx.represents hserves, hx.call_replays hserves⟩

namespace System

/-- The seed of a register. -/
def registerSeed : Seed := ⟨.utree, 1, ⟨0⟩, ⟨0⟩⟩

/-- A system with a register that has not been set. -/
def register : System where
  store := (exec (Tree.empty registerSeed) (.create Settings.forTrials false ⟨0⟩)).2
  trunk := .ofTree
    (.ofRoot ⟨0, .utree, 1, .ofPage (.empty .utree 1 0) .absent, 27⟩ registerSeed)
  calls _ := .unused
  stage := .idle
  softeners := []
  readers := []
  log := []
  filed _ _ _ := False

theorem starts_register : Starts registerSeed register where
  tree := ⟨Settings.forTrials, false, ⟨0⟩, _, false, false, rfl, rfl⟩
  calls _ := rfl
  stage := rfl
  softeners := rfl
  readers := rfl
  log := rfl
  filed _ _ _ := id

/-- The seed of a B-tree. -/
def orderedSeed : Seed := ⟨.btree, 1, ⟨0⟩, ⟨0⟩⟩

/-- A system with a B-tree without entries. -/
def ordered : System where
  store := (exec (Tree.empty orderedSeed) (.create Settings.forTrials false ⟨0⟩)).2
  trunk := .ofTree
    (.ofRoot ⟨0, .btree, 1, .ofPage (.empty .btree 1 0) .absent, 21⟩ orderedSeed)
  calls _ := .unused
  stage := .idle
  softeners := []
  readers := []
  log := []
  filed _ _ _ := False

theorem starts_ordered : Starts orderedSeed ordered where
  tree := ⟨Settings.forTrials, false, ⟨0⟩, _, false, false, rfl, rfl⟩
  calls _ := rfl
  stage := rfl
  softeners := rfl
  readers := rfl
  log := rfl
  filed _ _ _ := id

/-- The system with small pages, in a store that asks for commits. -/
def crowded : System :=
  { ordered with
    store := (exec (Tree.empty orderedSeed)
      (.create { Settings.forTrials with pageSplitSize := 64 } true ⟨0⟩)).2 }

theorem starts_crowded : Starts orderedSeed crowded where
  tree := ⟨{ Settings.forTrials with pageSplitSize := 64 }, true, ⟨0⟩, _, false, false, rfl, rfl⟩
  calls _ := rfl
  stage := rfl
  softeners := rfl
  readers := rfl
  log := rfl
  filed _ _ _ := id

/-- A value that takes up room in a page. -/
def long (n : Int64) : Value :=
  .int (1000000000000 + n)

/-- Three entries are put, which do not fit in one page, and committed. -/
def grown : List Move :=
  Move.callAlone 0 (.put (.int 1) (long 1)) ++ Move.callAlone 1 (.put (.int 2) (long 2)) ++
    Move.callAlone 2 (.put (.int 3) (long 3)) ++ Move.commitAlone .plain

/-- One of the entries is put again, so some pages of the tree are committed and others are not. -/
def changed : List Move :=
  grown ++ Move.callAlone 3 (.put (.int 1) (long 4))

/-- Two calls look at the same tree, and the second to swap loses.  It looks again while a commit is
under way, and loses once more as the commit is installed before it swaps.  A removal finds nothing
to remove, and another entry is put after that. -/
def contested : List Move :=
  Move.callAlone 0 (.put (.int 1) (long 1)) ++
    [.client (.ask 1 (.put (.int 2) (long 2))), .client (.ask 2 (.put (.int 3) (long 3))),
      .client (.advance 1), .client (.advance 2), .client (.advance 1), .client (.advance 2),
      .client (.advance 1), .client (.advance 2),
      .commit (.begin .plain), .commit .advance, .client (.advance 2), .client (.advance 2),
      .commit .advance, .client (.advance 2), .commit .advance,
      .client (.advance 2), .client (.advance 2), .client (.advance 2)] ++
    Move.callAlone 3 (.remove (.int 9)) ++ Move.callAlone 4 (.put (.int 4) (long 4))

/-- The calls of clients who get in each other's way, with a commit in between, come to what the four
puts make in the order in which they were swapped in. -/
theorem replays_contested :
    ∃ x, crowded.play? (fun move _ => move.isQuiet) contested = some x ∧
      Relation.ReflTransGen QuietStep crowded x ∧ x.log.map Prod.fst = [0, 1, 2, 4] ∧
      x.trunk.version = 2 ∧
      (exec (BTree.entries x.trunk.tree.root) x.store).1 = .ok [(.int 1, long 1), (.int 2, long 2),
        (.int 3, long 3), (.int 4, long 4)] ∧
      (replay .btree x.log).IsRead x.store x.trunk.tree ∧
      ∀ i, (x.calls i).Replays .btree x.log x.store i := by
  have hplayed : (crowded.play? (fun move _ => move.isQuiet) contested).map (fun x =>
      (x.log.map Prod.fst, x.trunk.version,
        (exec (BTree.entries x.trunk.tree.root) x.store).1)) =
      some ([0, 1, 2, 4], 2, .ok [(.int 1, long 1), (.int 2, long 2), (.int 3, long 3),
        (.int 4, long 4)]) := by
    decide +kernel
  obtain ⟨x, hplay, hfacts⟩ := Option.map_eq_some_iff.1 hplayed
  simp only [Prod.mk.injEq] at hfacts
  obtain ⟨hlog, hversion, hread⟩ := hfacts
  have hrun := quiet_run_iff.2 ⟨_, hplay⟩
  exact ⟨x, hplay, hrun, hlog, hversion, hread, replays starts_crowded hrun⟩

end System

end PageTree
