import Mathlib.Data.List.Induction
import PageTree.Proofs.Commit.Rebase
import PageTree.Proofs.System.Steps

/-!
# What every system has

`Coherent origin x c` is the invariant of systems: by a chart that the store agrees with, the
trunk's tree has the content that the operations of the log give, what a call has looked at is
what they gave so far, and what a commit holds are trees with the content of its snapshot.  The
root of a tree determines its content, so a swap that finds the trunk at a snapshot finds the
content of the snapshot.
-/

namespace PageTree

open StoreM

variable {c c' : Chart} {s s' : Store}

/-! ## Contents -/

/-- The content that operations give, one after another. -/
def replay (kind : TreeKind) (log : List (Nat × Operation)) : Content :=
  log.foldl (fun content entry => entry.2.apply content) (.empty kind)

@[simp] theorem replay_append (kind : TreeKind) (log : List (Nat × Operation)) (i : Nat)
    (op : Operation) : replay kind (log ++ [(i, op)]) = op.apply (replay kind log) := by
  simp [replay]

@[simp] theorem kind_replay (kind : TreeKind) (log : List (Nat × Operation)) :
    (replay kind log).kind = kind := by
  induction log using List.reverseRecOn with
  | nil => exact Content.kind_empty kind
  | append_singleton log entry ih => rw [replay_append, Operation.kind_apply, ih]

/-- The trees are of one kind and one stem, and both are stored or neither is. -/
structure Tree.Kin (t t' : Tree) : Prop where
  kind : t'.seed.kind = t.seed.kind
  stem : t'.seed.stem = t.seed.stem
  isTransient : t'.isTransient = t.isTransient

theorem Tree.Kin.refl (t : Tree) : t.Kin t :=
  ⟨rfl, rfl, rfl⟩

theorem Tree.Kin.trans {t t' t'' : Tree} (hkin : t.Kin t') (hkin' : t'.Kin t'') : t.Kin t'' :=
  ⟨hkin'.kind.trans hkin.kind, hkin'.stem.trans hkin.stem,
    hkin'.isTransient.trans hkin.isTransient⟩

theorem Tree.Rerooted.kin {t t' : Tree} (hrerooted : t.Rerooted t') : t.Kin t' :=
  ⟨by rw [hrerooted.seed_eq], by rw [hrerooted.seed_eq], hrerooted.isTransient_eq⟩

theorem Operation.Makes.mono {op : Operation} {snapshot : Trunk} {content : Content}
    {result : Tree × Option Value} (hle : c ≤ c') (hmakes : op.Makes snapshot content c result) :
    op.Makes snapshot content c' result :=
  ⟨hmakes.1, hmakes.2.1.mono hle, hmakes.2.2⟩

/-! ## Calls -/

section Calls

variable (c : Chart) (origin : Tree) (log : List (Nat × Operation)) (version : Nat)

/-- The content that has been looked at. -/
def Attempt.content (a : Attempt) : Content :=
  replay origin.kind (log.take a.position)

/-- What has been looked at is what the operations gave so far. -/
structure Attempt.Sound (a : Attempt) : Prop where
  position : a.position ≤ log.length
  version : a.snapshot.version ≤ version
  kin : origin.Kin a.snapshot.tree
  has : c.Has a.snapshot.version a.snapshot.tree (a.content origin log)

/-- The operation of a call is not in the log, unless its tree has been swapped in; then it is
there with its answer, and what is in the log before it has given what it answers for. -/
def Call.Sound (i : Nat) : Call → Prop
  | .unused => i ∉ log.map Prod.fst
  | .waiting op | .failed op _ => i ∉ log.map Prod.fst ∧ op.Suits origin.kind
  | .looking op a =>
    i ∉ log.map Prod.fst ∧ op.Suits origin.kind ∧ a.Sound c origin log version
  | .ready op a tree answer =>
    i ∉ log.map Prod.fst ∧ op.Suits origin.kind ∧ a.Sound c origin log version ∧
      op.Makes a.snapshot (a.content origin log) c (tree, answer)
  | .done op a tree answer false =>
    i ∉ log.map Prod.fst ∧ tree.same a.snapshot.tree = true ∧ a.Sound c origin log version ∧
      op.Makes a.snapshot (a.content origin log) c (tree, answer)
  | .done op _ _ answer true =>
    ∃ before after, log = before ++ (i, op) :: after ∧
      op.Answers (replay origin.kind before) answer

end Calls

variable {origin : Tree} {log more : List (Nat × Operation)} {version version' : Nat}

theorem Attempt.content_append {a : Attempt} (hposition : a.position ≤ log.length) :
    a.content origin (log ++ more) = a.content origin log := by
  rw [Attempt.content, Attempt.content, List.take_append_of_le_length hposition]

theorem Attempt.Sound.grow {a : Attempt} (ha : a.Sound c origin log version) (hle : c ≤ c')
    (hversion : version ≤ version') : a.Sound c' origin (log ++ more) version' where
  position := by
    rw [List.length_append]
    exact Nat.le_add_right_of_le ha.position
  version := Nat.le_trans ha.version hversion
  kin := ha.kin
  has := by
    rw [Attempt.content_append ha.position]
    exact ha.has.mono hle

theorem Attempt.Sound.mono {a : Attempt} (ha : a.Sound c origin log version) (hle : c ≤ c') :
    a.Sound c' origin log version :=
  ⟨ha.position, ha.version, ha.kin, ha.has.mono hle⟩

/-- What holds of a call goes on to hold while others go on. -/
theorem Call.Sound.grow {i : Nat} {call : Call} (hcall : call.Sound c origin log version i)
    (hle : c ≤ c') (hversion : version ≤ version') (hmore : i ∉ more.map Prod.fst) :
    call.Sound c' origin (log ++ more) version' i := by
  have hids : i ∉ log.map Prod.fst → i ∉ (log ++ more).map Prod.fst := by
    intro hlog
    rw [List.map_append, List.mem_append]
    exact fun hmem => hmem.elim hlog hmore
  cases call with
  | unused => exact hids hcall
  | waiting op => exact ⟨hids hcall.1, hcall.2⟩
  | failed op e => exact ⟨hids hcall.1, hcall.2⟩
  | looking op a => exact ⟨hids hcall.1, hcall.2.1, hcall.2.2.grow hle hversion⟩
  | ready op a tree answer =>
      obtain ⟨hlog, hsuits, ha, hmakes⟩ := hcall
      refine ⟨hids hlog, hsuits, ha.grow hle hversion, ?_⟩
      rw [Attempt.content_append ha.position]
      exact hmakes.mono hle
  | done op a tree answer isSwapped =>
      cases isSwapped with
      | false =>
          obtain ⟨hlog, hsame, ha, hmakes⟩ := hcall
          refine ⟨hids hlog, hsame, ha.grow hle hversion, ?_⟩
          rw [Attempt.content_append ha.position]
          exact hmakes.mono hle
      | true =>
          obtain ⟨before, after, rfl, hanswers⟩ := hcall
          exact ⟨before, after ++ more, by simp, hanswers⟩

/-! ## Commits -/

/-- A diff has been written of a tree that has the content of the tree with its places. -/
structure WrittenDiff.Sound (diff : WrittenDiff) (c : Chart) (origin : Tree) (version : Nat) :
    Prop where
  version_eq : diff.version = version
  kin : origin.Kin diff.tree
  committedKin : origin.Kin diff.committed
  has : ∃ content, c.Has version diff.tree content ∧ c.Has version diff.committed content
  twin : c.Twin diff.tree.root.site diff.committed.root.site

theorem WrittenDiff.Sound.mono {diff : WrittenDiff} (hdiff : diff.Sound c origin version)
    (hle : c ≤ c') : diff.Sound c' origin version := by
  obtain ⟨content, hhas, hhas'⟩ := hdiff.has
  exact ⟨hdiff.version_eq, hdiff.kin, hdiff.committedKin, ⟨content, hhas.mono hle, hhas'.mono hle⟩,
    hdiff.twin.mono hle⟩

/-- What the commit holds are trees with the content of trees of the trunk, at the version of the
trunk. -/
def Stage.Sound (c : Chart) (origin : Tree) (version : Nat) : Stage → Prop
  | .idle | .installed _ => True
  | .begun snapshot _ =>
    snapshot.version = version ∧ origin.Kin snapshot.tree ∧
      ∃ content, c.Has version snapshot.tree content
  | .written diff | .overtaken diff => diff.Sound c origin version
  | .paired diff pairs => diff.version = version ∧ c.Pairs pairs
  | .rebasing diff pairs current =>
    diff.version = version ∧ c.Pairs pairs ∧ origin.Kin current ∧
      ∃ content, c.Has version current content
  | .rebased diff pairs current tree =>
    diff.version = version ∧ c.Pairs pairs ∧ origin.Kin tree ∧
      ∃ content, c.Has version current content ∧ c.Has version tree content

theorem Stage.Sound.mono {stage : Stage} (hstage : stage.Sound c origin version) (hle : c ≤ c') :
    stage.Sound c' origin version := by
  cases stage with
  | idle | installed => trivial
  | begun snapshot request =>
      obtain ⟨hversion, hkin, content, hhas⟩ := hstage
      exact ⟨hversion, hkin, content, hhas.mono hle⟩
  | written diff => exact WrittenDiff.Sound.mono hstage hle
  | overtaken diff => exact WrittenDiff.Sound.mono hstage hle
  | paired diff pairs => exact ⟨hstage.1, hstage.2.mono hle⟩
  | rebasing diff pairs current =>
      obtain ⟨hversion, hpairs, hkin, content, hhas⟩ := hstage
      exact ⟨hversion, hpairs.mono hle, hkin, content, hhas.mono hle⟩
  | rebased diff pairs current tree =>
      obtain ⟨hversion, hpairs, hkin, content, hhas, hhas'⟩ := hstage
      exact ⟨hversion, hpairs.mono hle, hkin, content, hhas.mono hle, hhas'.mono hle⟩

/-! ## Systems -/

/-- The invariant of systems over a tree that they have come from. -/
structure Coherent (origin : Tree) (x : System) (c : Chart) : Prop where
  represents : Represents x.store c
  zones : x.store.zones.Sound
  kin : origin.Kin x.trunk.tree
  has : c.Has x.trunk.version x.trunk.tree (replay origin.kind x.log)
  distinct : (x.log.map Prod.fst).Nodup
  calls : ∀ i, (x.calls i).Sound c origin x.log x.trunk.version i
  stage : x.stage.Sound c origin x.trunk.version
  softeners : ∀ t ∈ x.softeners, c.refs t.tree.root
  readers : ∀ r ∈ x.readers, c.refs r
  filed : ∀ z b p, x.filed z b p ↔ c.filed z b = some p

namespace Coherent

variable {x : System} {i : Nat}

/-- The store changes, and nothing is filed. -/
theorem withStore (hx : Coherent origin x c) (hrep : Represents s c') (hzones : s.zones.Sound)
    (hle : c ≤ c') (hfiled : c'.filed = c.filed) : Coherent origin (x.withStore s) c' where
  represents := hrep
  zones := hzones
  kin := hx.kin
  has := hx.has.mono hle
  distinct := hx.distinct
  calls j := by
    have hcall : (x.calls j).Sound c' origin (x.log ++ []) x.trunk.version j :=
      (hx.calls j).grow hle (Nat.le_refl _) (by simp)
    rwa [List.append_nil] at hcall
  stage := hx.stage.mono hle
  softeners t ht := hle.refs _ (hx.softeners t ht)
  readers r hr := hle.refs _ (hx.readers r hr)
  filed z b p := by
    rw [hfiled]
    exact hx.filed z b p

/-- The store changes as operations on trees change it. -/
theorem grows (hx : Coherent origin x c) (hgrows : Grows x.store c s c') :
    Coherent origin (x.withStore s) c' :=
  hx.withStore hgrows.represents (by rw [hgrows.zones]; exact hx.zones) hgrows.le hgrows.filed

/-- Folds may come from other foldings too. -/
theorem allow (hx : Coherent origin x c) (foldings : PageRef.Folding → Prop) :
    Coherent origin x (c.allow foldings) :=
  hx.withStore (hx.represents.allow foldings) hx.zones (c.le_allow foldings) rfl

theorem setCall (hx : Coherent origin x c) {call : Call}
    (hcall : call.Sound c origin x.log x.trunk.version i) :
    Coherent origin (x.setCall i call) c where
  represents := hx.represents
  zones := hx.zones
  kin := hx.kin
  has := hx.has
  distinct := hx.distinct
  calls j := by
    show (if j = i then call else x.calls j).Sound c origin x.log x.trunk.version j
    split
    · next heq =>
        rw [heq]
        exact hcall
    · exact hx.calls j
  stage := hx.stage
  softeners := hx.softeners
  readers := hx.readers
  filed := hx.filed

theorem withStage (hx : Coherent origin x c) {stage : Stage}
    (hstage : stage.Sound c origin x.trunk.version) : Coherent origin (x.withStage stage) c where
  represents := hx.represents
  zones := hx.zones
  kin := hx.kin
  has := hx.has
  distinct := hx.distinct
  calls := hx.calls
  stage := hstage
  softeners := hx.softeners
  readers := hx.readers
  filed := hx.filed

/-- The root of the trunk's tree. -/
theorem root (hx : Coherent origin x c) : c.refs x.trunk.tree.root :=
  hx.has.fit.refs

/-- What a call is about to look at. -/
theorem attempt (hx : Coherent origin x c) :
    Attempt.Sound c origin x.log x.trunk.version ⟨x.trunk, x.log.length⟩ where
  position := Nat.le_refl _
  version := Nat.le_refl _
  kin := hx.kin
  has := by
    rw [Attempt.content, List.take_length]
    exact hx.has

/-- A trunk that is still at a tree has the content of the tree. -/
theorem content_eq (hx : Coherent origin x c) {old : Tree} {version : Nat} {content : Content}
    (hat : x.trunk.isAt old version = true) (hhas : c.Has version old content) :
    x.trunk.version = version ∧ replay origin.kind x.log = content := by
  rw [Trunk.isAt, Bool.and_eq_true, beq_iff_eq] at hat
  have hroot := hx.represents.eq_of_same hx.root hhas.fit.refs hat.2
  exact ⟨hat.1, hx.has.unique hhas hroot⟩

end Coherent
end PageTree
