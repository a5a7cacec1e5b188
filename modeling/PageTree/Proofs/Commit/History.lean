import PageTree.Proofs.Commit.Write
import PageTree.Proofs.Sparing

/-!
# The history of the zones of a store

Whatever is asked of a store, one call after another, its zones only turn in a few ways
(`Zones.Turns`).  So what a store holds at one time follows from what it held before
(`Zones.Follows`): the number of a zone is never given twice, a text only grows at its end, and once
the store is closed not even that.
-/

namespace PageTree

open StoreM

/-! ## Calls -/

/-- What is asked of a store about its zones.  A text to be written may be built in any way that
spares the store, and building it may fail. -/
inductive StoreCall : Type 1 where
  | write {α : Type} (commit : Commit) (build : (zone base : Nat) → StoreM (String × α))
      (spares : ∀ zone base, Spares (build zone base))
  | shift
  | delete (id : Nat)
  | willCommit (commit : Commit)
  | didCommit (commit : Commit)
  | close

namespace StoreCall

/-- The store that a call leaves, whether it fails or not. -/
def turn (s : Store) : StoreCall → Store
  | write commit build _ => (exec (writeZone commit build) s).2
  | shift => (exec shiftZone s).2
  | delete id => (exec (deleteZone id) s).2
  | willCommit commit => (exec (StoreM.willCommit commit) s).2
  | didCommit commit => (exec (StoreM.didCommit commit) s).2
  | close => (exec StoreM.close s).2

/-- The store after some calls. -/
def after (s : Store) (calls : List StoreCall) : Store :=
  calls.foldl turn s

end StoreCall

/-- An operation that spares a store leaves its zones alone. -/
theorem StoreM.zones_of_spares {α : Type} {act : StoreM α} (hact : Spares act) (s : Store) :
    (exec act s).2.zones = s.zones :=
  congrArg (fun outside => outside.2.2.1) (hact s)

/-! ## Turns of zones -/

namespace Zones

variable {z z' z'' : Zones}

/-- What one call may make of zones. -/
inductive Turns (z : Zones) : Zones → Prop where
  | stay : Turns z z
  | shift : Turns z z.shift
  | delete (id : Nat) : Turns z (z.delete id).2
  | close : Turns z z.close
  /-- A text is appended, perhaps to a zone that has been moved on to for it. -/
  | append (commit : Commit) (text : String) (isOpen : z.isClosed = false) :
      Turns z ((commit.zones z).append text)

theorem Turns.sound (hsound : z.Sound) (hturns : z.Turns z') : z'.Sound := by
  cases hturns with
  | stay => exact hsound
  | shift => exact hsound.shift
  | delete id => exact hsound.delete id
  | close => exact hsound.close
  | append commit text => exact (Commit.sound_zones hsound).append text

/-- Zones have come from others.  No number is given again to a zone, and what a zone held is where
it was; of a closed store no text has grown and no new zone holds any. -/
structure Follows (z z' : Zones) : Prop where
  active : z.active ≤ z'.active
  closed : z.isClosed = true → z'.isClosed = true
  grown : ∀ id text', id ≤ z.active → z'.text? id = some text' →
    ∃ text added, z.text? id = some text ∧ text' = text ++ added ∧
      (z.isClosed = true → added = "")
  blank : z.isClosed = true → ∀ id text', z.active < id → z'.text? id = some text' → text' = ""

namespace Follows

protected theorem refl (z : Zones) (hsound : z.Sound) : Follows z z where
  active := Nat.le_refl _
  closed hclosed := hclosed
  grown _ text' _ htext := ⟨text', "", htext, (String.append_empty).symm, fun _ => rfl⟩
  blank _ id text' hlt htext := by
    have hid : id ∈ z.ids := text?_isSome.1 (htext ▸ rfl)
    exact absurd (hsound.latest id hid) (Nat.not_le.2 hlt)

protected theorem trans (hfirst : Follows z z') (hsecond : Follows z' z'') : Follows z z'' where
  active := Nat.le_trans hfirst.active hsecond.active
  closed hclosed := hsecond.closed (hfirst.closed hclosed)
  grown id text'' hid htext'' := by
    obtain ⟨text', more, htext', rfl, hmore⟩ :=
      hsecond.grown id text'' (Nat.le_trans hid hfirst.active) htext''
    obtain ⟨text, added, htext, rfl, hadded⟩ := hfirst.grown id text' hid htext'
    refine ⟨text, added ++ more, htext, String.append_assoc .., fun hclosed => ?_⟩
    rw [hadded hclosed, hmore (hfirst.closed hclosed), String.append_empty]
  blank hclosed id text'' hlt htext'' := by
    by_cases hid : id ≤ z'.active
    · obtain ⟨text', more, htext', rfl, hmore⟩ := hsecond.grown id text'' hid htext''
      rw [hfirst.blank hclosed id text' hlt htext', hmore (hfirst.closed hclosed),
        String.append_empty]
    · exact hsecond.blank (hfirst.closed hclosed) id text'' (Nat.not_le.1 hid) htext''

/-- A zone that is there later was there before, unless it has been begun since. -/
theorem mem_ids (hfollows : Follows z z') {id : Nat} (hid : id ∈ z'.ids) (hle : id ≤ z.active) :
    id ∈ z.ids := by
  obtain ⟨text', htext'⟩ := Option.isSome_iff_exists.1 (text?_isSome.2 hid)
  obtain ⟨text, -, htext, -⟩ := hfollows.grown id text' hle htext'
  exact text?_isSome.1 (htext ▸ rfl)

/-- Once a store is closed, the text of a zone stays or goes with the zone. -/
theorem text?_of_closed (hfollows : Follows z z') (hsound : z.Sound) (hclosed : z.isClosed = true)
    {id : Nat} (hid : id ∈ z.ids) : z'.text? id = z.text? id ∨ z'.text? id = none := by
  cases htext' : z'.text? id with
  | none => exact Or.inr rfl
  | some text' =>
      obtain ⟨text, added, htext, rfl, hadded⟩ :=
        hfollows.grown id text' (hsound.latest id hid) htext'
      rw [htext, hadded hclosed, String.append_empty]
      exact Or.inl rfl

end Follows

theorem follows_shift (hsound : z.Sound) : Follows z z.shift where
  active := Nat.le_succ _
  closed hclosed := hclosed
  grown id text' hid htext' := by
    rw [text?_shift hsound, if_neg (by omega)] at htext'
    exact (Follows.refl z hsound).grown id text' hid htext'
  blank hclosed id text' hlt htext' := by
    rw [text?_shift hsound] at htext'
    split at htext'
    · exact (Option.some.inj htext').symm
    · exact (Follows.refl z hsound).blank hclosed id text' hlt htext'

theorem follows_delete (hsound : z.Sound) (id : Nat) : Follows z (z.delete id).2 where
  active := Nat.le_of_eq (active_delete z id).symm
  closed hclosed := by
    unfold Zones.delete
    split <;> exact hclosed
  grown other text' hother htext' :=
    (Follows.refl z hsound).grown other text' hother (text?_delete htext')
  blank hclosed other text' hlt htext' :=
    (Follows.refl z hsound).blank hclosed other text' hlt (text?_delete htext')

theorem follows_append (hsound : z.Sound) (hopen : z.isClosed = false) (text : String) :
    Follows z (z.append text) where
  active := Nat.le_refl _
  closed hclosed := hclosed
  grown id text' hid htext' := by
    rw [text?_append] at htext'
    have hnever : ∀ {p : Prop}, z.isClosed = true → p := fun hclosed =>
      absurd (hclosed.symm.trans hopen) (by decide)
    split at htext'
    · obtain ⟨before, hbefore, rfl⟩ := Option.map_eq_some_iff.1 htext'
      exact ⟨before, text, hbefore, rfl, fun hclosed => hnever hclosed⟩
    · exact (Follows.refl z hsound).grown id text' hid htext'
  blank hclosed := absurd (hclosed.symm.trans hopen) (by decide)

/-- What one turn makes of zones follows from them. -/
theorem Turns.follows (hsound : z.Sound) (hturns : z.Turns z') : Follows z z' := by
  cases hturns with
  | stay => exact .refl z hsound
  | shift => exact follows_shift hsound
  | delete id => exact follows_delete hsound id
  | close => exact { Follows.refl z hsound with closed := fun _ => rfl }
  | append commit text hopen =>
      unfold Commit.zones
      split
      · exact (follows_shift hsound).trans (follows_append hsound.shift hopen text)
      · exact follows_append hsound hopen text

end Zones

/-! ## Throughout a history -/

namespace StoreCall

variable {α : Type} {s : Store}

/-- A text that is built is appended to the active zone, and a failure appends nothing. -/
theorem writeZone_built (commit : Commit) {build : Nat → Nat → StoreM (String × α)}
    (hspares : ∀ zone base, Spares (build zone base)) (hopen : s.zones.isClosed = false)
    {z : Zones} (hz : commit.zones s.zones = z) :
    match (exec (build z.active ((z.size? z.active).getD 0)) (s.withZones z)).1 with
    | .ok (text, a) => (exec (writeZone commit build) s).1 = .ok (z.active, a) ∧
        (exec (writeZone commit build) s).2.zones = z.append text
    | .error e => (exec (writeZone commit build) s).1 = .error e ∧
        (exec (writeZone commit build) s).2.zones = z := by
  rw [exec_writeZone commit build s hopen, hz]
  have hzones := zones_of_spares (hspares z.active ((z.size? z.active).getD 0)) (s.withZones z)
  generalize exec (build _ _) (s.withZones z) = outcome at hzones
  obtain ⟨e | ⟨text, a⟩, s'⟩ := outcome
  · exact ⟨rfl, hzones⟩
  · exact ⟨rfl, congrArg (·.append text) hzones⟩

/-- Asking what a commit should do changes nothing. -/
theorem willCommit_spares (commit : Commit) (s : Store) :
    (exec (StoreM.willCommit commit) s).2 = s := by
  rcases exec_willCommit commit s with ⟨-, hexec⟩ | ⟨commit', hexec⟩
  · exact congrArg Prod.snd hexec
  · exact congrArg Prod.snd hexec

/-- The zones that a commit appends to are those of the store, or it has moved on. -/
theorem turns_commit (commit : Commit) (z : Zones) : z.Turns (commit.zones z) := by
  unfold Commit.zones
  split
  · exact .shift
  · exact .stay

/-- A call is one turn of the zones. -/
theorem turns_turn (s : Store) (call : StoreCall) : s.zones.Turns (call.turn s).zones := by
  cases call with
  | write commit build hspares =>
      show s.zones.Turns (exec (writeZone commit build) s).2.zones
      cases hclosed : s.zones.isClosed with
      | true =>
          rw [exec_writeZone_of_closed commit build hclosed]
          exact .stay
      | false =>
          have hbuilt := writeZone_built commit hspares hclosed rfl
          split at hbuilt
          · rw [hbuilt.2]
            exact .append commit _ hclosed
          · rw [hbuilt.2]
            exact turns_commit commit s.zones
  | shift => exact .shift
  | delete id => exact .delete id
  | willCommit commit =>
      show s.zones.Turns (exec (StoreM.willCommit commit) s).2.zones
      rw [willCommit_spares commit s]
      exact .stay
  | didCommit commit =>
      show s.zones.Turns (exec (StoreM.didCommit commit) s).2.zones
      obtain ⟨s', hexec, hs'⟩ := exec_didCommit commit s
      rw [hexec]
      rcases hs' with rfl | rfl
      · exact .stay
      · exact .close
  | close => exact .close

/-- What calls leave is sound and follows from what they have found. -/
theorem follows_after (hsound : s.zones.Sound) (calls : List StoreCall) :
    (after s calls).zones.Sound ∧ s.zones.Follows (after s calls).zones := by
  induction calls generalizing s with
  | nil => exact ⟨hsound, .refl _ hsound⟩
  | cons call calls ih =>
      have hturns := turns_turn s call
      obtain ⟨hlast, hrest⟩ := ih (hturns.sound hsound)
      exact ⟨hlast, (hturns.follows hsound).trans hrest⟩

end StoreCall
end PageTree
