import PageTree.Proofs.Trees
import PageTree.Proofs.System.Lives

/-!
# Commits that settle a tree

A commit that no one overtakes has just three outcomes (`System.commit_settles`).  Without
anything to write it answers so and changes nothing; a closed store refuses it; and otherwise all
that is left to write of the tree is in the text of one diff, so that another commit finds
nothing to do.
-/

namespace PageTree

open StoreM

variable {s s' : Store} {c c' : Chart} {zone start : Nat} {text : List Char} {r r' k : PageRef}

/-! ## Committed trees -/

/-- Below a committed page there are only committed pages. -/
theorem Store.Reaches.isCommitted (hreaches : s.Reaches r s' k) (hrep : Represents s c)
    (hr : c.refs r) (hcommitted : r.isCommitted = true) : k.isCommitted = true := by
  induction hreaches generalizing c with
  | here => exact hcommitted
  | down found child _ ih =>
      obtain ⟨c', hgrows, hpage, hrefs⟩ := (PageRef.page_runs hrep hr).of_ok found
      exact ih hgrows.represents (hrefs _ child)
        (Chart.isCommitted_of_child hpage hcommitted child)

/-- The diff of a committed tree has no text. -/
theorem Tree.exec_buildDiff_of_committed {t : Tree} (hcommitted : t.root.isCommitted = true)
    (zone start version : Nat) (s : Store) :
    exec (t.buildDiff zone start version) s = (.ok ("", t), s) := by
  have hcommit : exec (t.root.commitInto (.start zone start version : Diff)) s =
      (.ok (t.root, .start zone start version), s) := by
    rw [exec_commitInto, Store.depthBound, PageRef.commitWithin, if_pos hcommitted]
    rfl
  have hroot : exec (t.withCommittedRoot t.root) s = (.ok t, s) := by
    rw [Tree.withCommittedRoot, if_pos (by simp [PageRef.same])]
    rfl
  rw [Tree.buildDiff, exec_bind, hcommit]
  dsimp only
  rw [exec_bind, hroot]
  rfl

/-- A diff in which an uncommitted page has its place has a text. -/
theorem Counterpart.text_ne_nil (hcp : Counterpart s zone start text r r')
    (huncommitted : r.isCommitted = false) : text ≠ [] := by
  rintro rfl
  obtain ⟨_, _, -, -, -, ⟨before, after, htext, -⟩, -⟩ := hcp.pages huncommitted
  simp at htext

/-- The trees of a reference and its counterpart have the same leaves. -/
theorem Counterpart.leaves_eq {s₀ s₁ s₁' : Store} {c₀ : Chart} {leaves leaves' : List LivePage}
    (hcp : Counterpart s zone start text r r') (hrep₀ : Represents s₀ c₀) (hle : c₀ ≤ c)
    (hr : c₀.refs r) (hrep : Represents s' c) (hcells : s'.cells = s.cells) (hr' : c.refs r')
    (hleaves : exec r.leaves s₀ = (.ok leaves, s₁))
    (hleaves' : exec r'.leaves s' = (.ok leaves', s₁')) :
    leaves'.map (fun p => p.body.shape) = leaves.map fun p => p.body.shape := by
  obtain ⟨shapes, hshapes⟩ := Chart.Reads.exists_of_sound (hrep₀.sound r hr) (Nat.lt_succ_self _)
  obtain ⟨c₁, hgrows₁, depth₁, hreads₁⟩ := (PageRef.leaves_runs hrep₀ hr).of_ok hleaves
  obtain ⟨c₂, hgrows₂, depth₂, hreads₂⟩ := (PageRef.leaves_runs hrep hr').of_ok hleaves'
  have halike := hcp.alike (hrep.toMirrors.of_cells_eq hcells.symm) (hle.refs r hr) hr'
  have hsame := hreads₁.unique (hshapes.mono hgrows₁.le)
  have hsame' := hreads₂.unique (((hshapes.mono hle).alike halike).mono hgrows₂.le)
  rw [hsame, hsame']

/-! ## Texts of zones -/

/-- One zone, which may be new, has gone on by a text. -/
structure Zones.Gained (z : Zones) (zone : Nat) (before more : String) (z' : Zones) : Prop where
  start : before = (z.text? zone).getD ""
  after : z'.text? zone = some (before ++ more)
  others : ∀ id, id ≠ zone → z'.text? id = z.text? id

/-- The active zone that a commit finds or starts has the text from before. -/
theorem Commit.text?_active {z : Zones} (hsound : z.Sound) (commit : Commit) :
    (commit.zones z).text? (commit.zones z).active =
      some ((z.text? (commit.zones z).active).getD "") := by
  unfold Commit.zones
  cases commit.shifted with
  | true =>
      have hactive : z.shift.active = z.active + 1 := rfl
      have hnew : z.text? (z.active + 1) = none := by
        rw [← Option.not_isSome_iff_eq_none, Zones.text?_isSome]
        intro hmem
        have hle := hsound.latest _ hmem
        omega
      rw [if_pos rfl, hactive, Zones.text?_shift hsound, if_pos rfl, hnew]
      rfl
  | false =>
      obtain ⟨before, hbefore⟩ := Option.isSome_iff_exists.1 (Zones.text?_isSome.2 hsound.kept)
      rw [if_neg (by simp), hbefore]
      rfl

/-- A commit adds to the active zone alone. -/
theorem Commit.gained {z : Zones} (hsound : z.Sound) (commit : Commit) (more : String) :
    z.Gained (commit.zones z).active ((z.text? (commit.zones z).active).getD "") more
      ((commit.zones z).append more) where
  start := rfl
  after := by
    rw [Zones.text?_append, if_pos rfl, text?_active hsound]
    rfl
  others id hne := by
    rw [Zones.text?_append, if_neg hne]
    unfold Commit.zones at hne ⊢
    split at hne
    · next hshifted =>
        have hne' : id ≠ z.active + 1 := hne
        rw [if_pos hshifted, Zones.text?_shift hsound, if_neg hne']
    · next hshifted => rw [if_neg hshifted]

/-! ## Outcomes -/

namespace Trunk

variable {t t' : Trunk} {request : Commit}

theorem hasWork_eq_false_iff : t.hasWork request = false ↔
    t.tree.isTransient = true ∨ t.tree.pendingSize = 0 ∧ request.forced = false := by
  simp only [hasWork, Bool.and_eq_false_iff, Bool.not_eq_false', Bool.or_eq_false_iff,
    bne_eq_false_iff_eq]

theorem hasWork_eq_true_iff : t.hasWork request = true ↔
    t.tree.isTransient = false ∧ (t.tree.pendingSize ≠ 0 ∨ request.forced = true) := by
  simp only [hasWork, Bool.and_eq_true, Bool.not_eq_true', Bool.or_eq_true, bne_iff_ne]

/-- A commit with nothing to write changes nothing. -/
theorem exec_commit_of_idle (hidle : t.hasWork request = false) (s : Store) :
    exec (t.commit request) s = (.ok (false, t), s) := by
  rw [commit, exec_bind, writeDiff, hidle]
  rfl

/-- A commit has written all that was to be written, at the end of one zone. -/
structure Settles (t : Trunk) (request : Commit) (s : Store) (t' : Trunk) (s' : Store) :
    Prop where
  version : t'.version = t.version + 1
  post : t'.post = t.post
  pending : t'.tree.pendingSize = 0
  committed : ∀ {s'' r}, s'.Reaches t'.tree.root s'' r → r.isCommitted = true
  /-- The leaves that can be read are those from before. -/
  leaves : ∀ {leaves leaves' s₁ s₁'}, exec t.tree.root.leaves s = (.ok leaves, s₁) →
    exec t'.tree.root.leaves s' = (.ok leaves', s₁') →
      leaves'.map (fun p => p.body.shape) = leaves.map fun p => p.body.shape
  /-- The text of the diff of the tree has been added to one zone, and every page in it is the
  counterpart of one that had no place. -/
  zones : ∃ zone before text, s.zones.Gained zone before text s'.zones ∧
    (∃ s₀ s₁, s₀.cells = s.cells ∧ exec (t.tree.buildDiff zone before.utf8ByteSize t.version) s₀ =
      (.ok (text, t'.tree), s₁)) ∧
    Counterpart s' zone before.utf8ByteSize text.toList t.tree.root t'.tree.root ∧
    (text = "" ↔ t.tree.pendingSize = 0) ∧ (t.tree.pendingSize = 0 → request.forced = true)
  /-- There is nothing left to do. -/
  again : ∀ next : Commit, next.forced = false →
    exec (t'.commit next) s' = (.ok (false, t'), s')

/-- What a diff leads to that has been written and installed. -/
theorem Wrote.settles {diff : WrittenDiff} {s₁ s₂ : Store} (hwrote : t.Wrote s c diff s₁ c')
    (hrep : Represents s c) (hsound : s.zones.Sound) (hroot : c.refs t.tree.root)
    (hwork : t.hasWork request = true)
    (hdone : s₂ = s₁.markCommit ∨ s₂ = s₁.markCommit.withZones s₁.zones.close) :
    t.Settles request s { t with tree := diff.committed, version := t.version + 1 } s₂ := by
  obtain ⟨text, start, hzones, hstart, ⟨s₀, hbuild⟩, hcp⟩ := hwrote.text
  have hcells : s₂.cells = s₁.cells := by rcases hdone with rfl | rfl <;> rfl
  have hcells₀ : (s.withZones (diff.commit.zones s.zones)).cells = s.cells := rfl
  have hrep₂ : Represents s₂ c' := by
    rcases hdone with rfl | rfl
    · exact hwrote.represents.markCommit
    · exact ⟨hwrote.represents.markCommit.toMirrors.withZones _, hwrote.represents.backed.close⟩
  have htexts : ∀ id, s₂.zones.text? id = s₁.zones.text? id := by
    rcases hdone with rfl | rfl <;> exact fun _ => rfl
  have hcp₂ := hcp.keep (.of_cells_eq hcells) (List.prefix_refl _)
  have hcommitted := hcp.isCommitted
  have hgained : s.zones.Gained diff.zone ((s.zones.text? diff.zone).getD "")
      (String.ofList text) s₂.zones := by
    have hgained := diff.commit.gained hsound (String.ofList text)
    rw [← hzones, ← hwrote.zone] at hgained
    exact ⟨rfl, by rw [htexts, hgained.after], fun id hne => by rw [htexts, hgained.others id hne]⟩
  obtain rfl : start = ((s.zones.text? diff.zone).getD "").utf8ByteSize := by
    rw [Zones.size?, hwrote.zone, diff.commit.text?_active hsound] at hstart
    rw [hwrote.zone]
    exact (Option.some.inj hstart).symm
  have hpending : diff.committed.pendingSize = 0 :=
    (hrep₂.diffSize_eq_zero_iff hwrote.fit.refs).2 hcommitted
  -- any page that is written has a text, so only a committed tree writes nothing
  have hempty : text = [] ↔ t.tree.pendingSize = 0 := by
    rw [Tree.pendingSize, hrep.diffSize_eq_zero_iff hroot]
    constructor
    · intro hnil
      cases huncommitted : t.tree.root.isCommitted with
      | true => rfl
      | false => exact absurd hnil (hcp.text_ne_nil huncommitted)
    · intro hsettled
      rw [Tree.exec_buildDiff_of_committed hsettled, Prod.mk.injEq, Except.ok.injEq,
        Prod.mk.injEq] at hbuild
      exact String.ofList_eq_empty_iff.1 hbuild.1.1.symm
  exact {
    version := rfl
    post := rfl
    pending := hpending
    committed := fun hreaches => hreaches.isCommitted hrep₂ hwrote.fit.refs hcommitted
    leaves := hcp.leaves_eq hrep hwrote.le hroot hrep₂ hcells hwrote.fit.refs
    zones := ⟨diff.zone, _, String.ofList text, hgained, ⟨_, s₀, hcells₀, hbuild⟩,
      by rw [String.toList_ofList]; exact hcp₂, by rw [String.ofList_eq_empty_iff, hempty],
      fun hnone => (hasWork_eq_true_iff.1 hwork).2.resolve_left (absurd hnone)⟩
    again := fun next hunforced =>
      exec_commit_of_idle (hasWork_eq_false_iff.2 (Or.inr ⟨hpending, hunforced⟩)) s₂ }

end Trunk

namespace System

variable {allowed : Operation → Prop} {seed : Seed} {x : System} {past : List System}

/-- A commit that no one overtakes, whatever has become of the tree before: without anything to
write it changes nothing, a closed store refuses it, and otherwise it settles the tree. -/
theorem commit_settles (hlives : Lives allowed seed x past) (request : Commit) :
    (x.trunk.tree.isTransient = true ∨
        x.trunk.tree.pendingSize = 0 ∧ request.forced = false →
      exec (x.trunk.commit request) x.store = (.ok (false, x.trunk), x.store)) ∧
    (x.trunk.tree.isTransient = false ∧
        (x.trunk.tree.pendingSize ≠ 0 ∨ request.forced = true) →
      (x.store.zones.isClosed = true →
        exec (x.trunk.commit request) x.store = (.error .closed, x.store)) ∧
      (x.store.zones.isClosed = false →
        ∃ t s, exec (x.trunk.commit request) x.store = (.ok (true, t), s) ∧
          x.trunk.Settles request x.store t s)) := by
  obtain ⟨origin, c, hx, -⟩ := hlives.coherent
  refine ⟨fun hidle => Trunk.exec_commit_of_idle (Trunk.hasWork_eq_false_iff.2 hidle) _, ?_⟩
  rw [← Trunk.hasWork_eq_true_iff]
  intro hwork
  rcases Trunk.commit_cases hx.represents hx.zones hx.has.fit request with
    ⟨hidle, -⟩ | ⟨hclosed, hexec⟩ | ⟨diff, s₁, s₂, c', hwrote, hdone, hexec⟩
  · rw [hwork] at hidle
    cases hidle
  · refine ⟨fun _ => hexec, fun hopen => ?_⟩
    rw [hclosed] at hopen
    cases hopen
  · refine ⟨fun hclosed => ?_, fun _ => ?_⟩
    · rw [hwrote.isOpen] at hclosed
      cases hclosed
    exact ⟨_, s₂, hexec,
      hwrote.settles hx.represents hx.zones hx.has.fit.refs hwork hdone⟩

/-- A tree with a committed leaf and a leaf that is still to be written is settled by a commit. -/
theorem commit_settles_changed :
    ∃ x past t s, Lives (fun _ => True) orderedSeed x past ∧ x.trunk.version = 2 ∧
      (∃ s' r, x.store.follow? x.trunk.tree.root [0] = some (s', r) ∧ r.isCommitted = false) ∧
      (∃ s' r, x.store.follow? x.trunk.tree.root [1] = some (s', r) ∧ r.isCommitted = true) ∧
      x.trunk.tree.pendingSize ≠ 0 ∧ x.store.zones.isClosed = false ∧
      exec (x.trunk.commit .plain) x.store = (.ok (true, t), s) ∧
      x.trunk.Settles .plain x.store t s := by
  have hplayed : ((crowded.play? (fun _ _ => true) changed).bind fun x =>
      (x.store.follow? x.trunk.tree.root [0]).bind fun first =>
        (x.store.follow? x.trunk.tree.root [1]).map fun second =>
          (x.trunk.version, first.2.isCommitted, second.2.isCommitted, x.trunk.tree.isTransient,
            decide (x.trunk.tree.pendingSize ≠ 0), x.store.zones.isClosed)) =
      some (2, false, true, false, true, false) := by
    decide +kernel
  obtain ⟨x, hplay, hx⟩ := Option.bind_eq_some_iff.1 hplayed
  obtain ⟨first, hfirst, hrest⟩ := Option.bind_eq_some_iff.1 hx
  obtain ⟨second, hsecond, hfacts⟩ := Option.map_eq_some_iff.1 hrest
  simp only [Prod.mk.injEq, decide_eq_true_eq] at hfacts
  obtain ⟨hversion, huncommitted, hcommitted, hlasting, hpending, hopen⟩ := hfacts
  obtain ⟨past, hlives⟩ := lives_of_play starts_crowded hplay
  obtain ⟨t, s, hexec, hsettles⟩ :=
    ((commit_settles hlives .plain).2 ⟨hlasting, .inl hpending⟩).2 hopen
  exact ⟨x, _, t, s, hlives, hversion, ⟨_, _, hfirst, huncommitted⟩, ⟨_, _, hsecond, hcommitted⟩,
    hpending, hopen, hexec, hsettles⟩

end System
end PageTree
