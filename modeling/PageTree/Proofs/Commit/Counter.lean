import Mathlib.Logic.Function.Basic
import PageTree.Proofs.Commit.History

/-!
# The counter of zones

Zones are numbered by a counter of 32 bits, which goes on with 0 after its last number
(`Zones.shift32`).  What each call does to the zones does not depend on how far the counter has come
(`StoreCall.does`).  Until it comes round, a store does the same as one whose numbers have no end,
call after call (`StoreCall.after32_eq`), and so what holds throughout the history of the one holds
of the other (`StoreCall.zones_throughout`).
-/

namespace PageTree

open StoreM

/-! ## Moving on -/

namespace Zones

variable {z : Zones}

/-- The number that a counter of 32 bits comes to after another one. -/
def nextNumber (id : Nat) : Nat :=
  (UInt32.ofNat id + 1).toNat

/-- Moves on to a new zone, with a counter of 32 bits.  Zones stand in the order of their numbers,
and the new one takes the place of any that has its number. -/
def shift32 (z : Zones) : Zones :=
  let next := nextNumber z.active
  { z with
    zones := z.zones.filter (·.id < next) ++ ⟨next, ""⟩ :: z.zones.filter (next < ·.id)
    active := next }

theorem nextNumber_eq (id : Nat) : nextNumber id = (id + 1) % 2 ^ 32 := by
  rw [nextNumber, UInt32.toNat_add, UInt32.toNat_ofNat', UInt32.toNat_one, Nat.mod_add_mod]

theorem find?_filter_id (zones : List Zone) (p : Nat → Bool) (id : Nat) :
    (zones.filter fun zone => p zone.id).find? (·.id == id) =
      if p id then zones.find? (·.id == id) else none := by
  induction zones with
  | nil => simp
  | cons zone zones ih =>
      by_cases hid : zone.id = id
      · subst hid
        cases hp : p zone.id with
        | true => simp [hp]
        | false => simpa [hp] using ih
      · cases hp : p zone.id with
        | true => simpa [hp, hid] using ih
        | false => simpa [hp, hid] using ih

/-- Moving on begins one zone, and leaves alone those that do not have its number. -/
theorem text?_shift32 (z : Zones) :
    z.shift32.text? = Function.update z.text? (nextNumber z.active) (some "") := by
  funext id
  rw [Function.update_apply, text?, find?, shift32]
  dsimp only
  rw [List.find?_append, List.find?_cons, find?_filter_id z.zones fun other => other < _,
    find?_filter_id z.zones fun other => _ < other]
  rcases Nat.lt_trichotomy id (nextNumber z.active) with hlt | rfl | hlt
  · have hne : (nextNumber z.active == id) = false := by simp; omega
    simp [text?, find?, hlt, hne, Nat.lt_asymm hlt, Nat.ne_of_lt hlt]
  · simp
  · have hne : (nextNumber z.active == id) = false := by simp; omega
    simp [text?, find?, hlt, hne, Nat.lt_asymm hlt, Nat.ne_of_gt hlt]

theorem ids_shift32 (z : Zones) :
    z.shift32.ids = z.ids.filter (· < nextNumber z.active) ++
      nextNumber z.active :: z.ids.filter (nextNumber z.active < ·) := by
  simp [ids, shift32, List.filter_map, Function.comp_def]

/-- Before the counter comes round, moving on is to go on to the number that follows. -/
theorem shift32_eq (hsound : z.Sound) (hroom : z.active + 1 < 2 ^ 32) : z.shift32 = z.shift := by
  have hnext : nextNumber z.active = z.active + 1 := by
    rw [nextNumber_eq, Nat.mod_eq_of_lt hroom]
  have hlatest : ∀ zone ∈ z.zones, zone.id ≤ z.active := fun zone hzone =>
    hsound.latest zone.id (List.mem_map_of_mem hzone)
  have hbelow : z.zones.filter (·.id < z.active + 1) = z.zones :=
    List.filter_eq_self.2 fun zone hzone => decide_eq_true (Nat.lt_succ_of_le (hlatest zone hzone))
  have habove : z.zones.filter (z.active + 1 < ·.id) = [] :=
    List.filter_eq_nil_iff.2 fun zone hzone => by
      have hle := hlatest zone hzone
      simp only [decide_eq_true_eq]
      omega
  rw [shift32, hnext, hbelow, habove]
  rfl

/-! ## The order of zones -/

/-- The active zone is kept, and zones stand in the order of their numbers. -/
structure Ordered (z : Zones) : Prop where
  kept : z.active ∈ z.ids
  ascending : z.ids.Pairwise (· < ·)

theorem ordered_start : start.Ordered :=
  ⟨by simp [start, ids], by simp [start, ids]⟩

theorem Ordered.shift32 (hordered : z.Ordered) : z.shift32.Ordered := by
  refine ⟨?_, ?_⟩
  · rw [ids_shift32]
    exact List.mem_append_right _ List.mem_cons_self
  · rw [ids_shift32, List.pairwise_append, List.pairwise_cons]
    refine ⟨hordered.ascending.filter _, ⟨?_, hordered.ascending.filter _⟩, ?_⟩
    · intro id hid
      simpa using (List.mem_filter.1 hid).2
    · intro id hid other hother
      have hlt : id < nextNumber z.active := by simpa using (List.mem_filter.1 hid).2
      rcases List.mem_cons.1 hother with rfl | hother
      · exact hlt
      · exact Nat.lt_trans hlt (by simpa using (List.mem_filter.1 hother).2)

theorem Ordered.append (hordered : z.Ordered) (text : String) : (z.append text).Ordered := by
  refine ⟨?_, ?_⟩
  · rw [ids_append]
    exact hordered.kept
  · rw [ids_append]
    exact hordered.ascending

theorem Ordered.delete (hordered : z.Ordered) (id : Nat) : (z.delete id).2.Ordered := by
  unfold Zones.delete
  split
  · next hfound =>
      have hids : (z.zones.filter (·.id != id)).map Zone.id = z.ids.filter (· != id) := by
        simp [ids, List.filter_map, Function.comp_def]
      refine ⟨?_, ?_⟩
      · show z.active ∈ (z.zones.filter (·.id != id)).map Zone.id
        rw [hids]
        exact List.mem_filter.2 ⟨hordered.kept, bne_iff_ne.2 hfound.1.symm⟩
      · show ((z.zones.filter (·.id != id)).map Zone.id).Pairwise (· < ·)
        rw [hids]
        exact hordered.ascending.filter _
  · exact hordered

/-! ## What becomes of texts -/

/-- A new zone with nothing in it has been begun, and the others are as they were. -/
structure MovedOn (z z' : Zones) : Prop where
  active : z'.active = nextNumber z.active
  texts : z'.text? = Function.update z.text? (nextNumber z.active) (some "")

theorem movedOn_shift32 (z : Zones) : z.MovedOn z.shift32 :=
  ⟨rfl, text?_shift32 z⟩

theorem text?_append_active {before : String} (hbefore : z.text? z.active = some before)
    (text : String) :
    (z.append text).text? = Function.update z.text? z.active (some (before ++ text)) := by
  funext id
  rw [text?_append, Function.update_apply]
  split
  · next heq => rw [heq, hbefore, Option.map_some]
  · rfl

theorem text?_delete_found {id : Nat} (hfound : id ≠ z.active ∧ id ∈ z.ids) :
    (z.delete id).2.text? = Function.update z.text? id none := by
  funext other
  rw [Function.update_apply, Zones.delete, if_pos hfound, text?, find?,
    find?_filter_id z.zones fun other => other != id]
  by_cases heq : other = id
  · simp [heq]
  · simp [heq, text?, find?]

end Zones

/-! ## Calls -/

/-- The zones that a commit appends to, with a counter of 32 bits. -/
def Commit.zones32 (commit : Commit) (z : Zones) : Zones :=
  if commit.shifted then z.shift32 else z

namespace StoreM

/-- Moves on to a new zone and gives its number, with a counter of 32 bits. -/
def shiftZone32 : StoreM Nat := do
  modifyZones Zones.shift32
  return (← get).zones.active

/-- Appends a text to the active zone, with a counter of 32 bits: a write that moves on first is
then one that does not. -/
def writeZone32 {α : Type} (commit : Commit) (build : (zone base : Nat) → StoreM (String × α)) :
    StoreM (Nat × α) := do
  ofZones Zones.checkOpen
  modifyZones commit.zones32
  writeZone { commit with shifted := false } build

end StoreM

namespace StoreCall

variable {α : Type} {s : Store}

/-- The store that a call leaves, with a counter of 32 bits. -/
def turn32 (s : Store) : StoreCall → Store
  | write commit build _ => (exec (writeZone32 commit build) s).2
  | shift => (exec shiftZone32 s).2
  | delete id => (exec (deleteZone id) s).2
  | willCommit commit => (exec (StoreM.willCommit commit) s).2
  | didCommit commit => (exec (StoreM.didCommit commit) s).2
  | close => (exec StoreM.close s).2

/-- The store after some calls, with a counter of 32 bits. -/
def after32 (s : Store) (calls : List StoreCall) : Store :=
  calls.foldl turn32 s

theorem after32_append (s : Store) (calls more : List StoreCall) :
    after32 s (calls ++ more) = after32 (after32 s calls) more :=
  List.foldl_append

theorem exec_writeZone32_of_closed (commit : Commit) (build : Nat → Nat → StoreM (String × α))
    (hclosed : s.zones.isClosed = true) :
    exec (writeZone32 commit build) s = (.error .closed, s) := by
  have hcheck : s.zones.checkOpen = .error .closed := by
    simp [Zones.checkOpen, hclosed]
  rw [writeZone32, exec_bind, exec_ofZones, hcheck]

theorem exec_writeZone32 (commit : Commit) (build : Nat → Nat → StoreM (String × α))
    (hopen : s.zones.isClosed = false) :
    exec (writeZone32 commit build) s =
      exec (writeZone { commit with shifted := false } build)
        (s.withZones (commit.zones32 s.zones)) := by
  have hcheck : s.zones.checkOpen = .ok () := by
    simp [Zones.checkOpen, hopen]
  rw [writeZone32, exec_bind, exec_ofZones, hcheck]
  dsimp only
  rw [exec_bind, exec_modifyZones]

theorem isClosed_zones32 (commit : Commit) (z : Zones) :
    (commit.zones32 z).isClosed = z.isClosed := by
  unfold Commit.zones32
  split <;> rfl

/-- A text that is built is appended to the active zone, and a failure appends nothing. -/
theorem writeZone32_built (commit : Commit) {build : Nat → Nat → StoreM (String × α)}
    (hspares : ∀ zone base, Spares (build zone base)) (hopen : s.zones.isClosed = false)
    {z : Zones} (hz : commit.zones32 s.zones = z) :
    match (exec (build z.active ((z.size? z.active).getD 0)) (s.withZones z)).1 with
    | .ok (text, a) => (exec (writeZone32 commit build) s).1 = .ok (z.active, a) ∧
        (exec (writeZone32 commit build) s).2.zones = z.append text
    | .error e => (exec (writeZone32 commit build) s).1 = .error e ∧
        (exec (writeZone32 commit build) s).2.zones = z := by
  subst hz
  rw [exec_writeZone32 commit build hopen]
  exact writeZone_built (s := s.withZones (commit.zones32 s.zones)) _ hspares
    ((isClosed_zones32 commit s.zones).trans hopen) rfl

/-! ## What a call does -/

/-- Writing to a store gives an outcome and leaves zones: a closed store refuses; one that is open
may first move on, and if a text is built for the end of the active zone, it is appended there. -/
def Writes (s : Store) (commit : Commit) (build : (zone base : Nat) → StoreM (String × α))
    (outcome : Except StoreError (Nat × α)) (z' : Zones) : Prop :=
  if s.zones.isClosed then
    outcome = .error .closed ∧ z' = s.zones
  else
    ∃ z before, (if commit.shifted then s.zones.MovedOn z else z = s.zones) ∧
      z.text? z.active = some before ∧
      match (exec (build z.active before.utf8ByteSize) (s.withZones z)).1 with
      | .ok (text, a) =>
        outcome = .ok (z.active, a) ∧ z'.active = z.active ∧
          z'.text? = Function.update z.text? z.active (some (before ++ text))
      | .error e => outcome = .error e ∧ z' = z

/-- Deleting a zone takes away that zone and no other, and never the active one. -/
def Deletes (z : Zones) (id : Nat) (outcome : Except StoreError Bool) (z' : Zones) : Prop :=
  if id ≠ z.active ∧ id ∈ z.ids then
    outcome = .ok true ∧ z'.active = z.active ∧ z'.text? = Function.update z.text? id none
  else outcome = .ok false ∧ z' = z

/-- What a call gives and what it does to the zones, told by their texts and numbers. -/
def Does (s : Store) : StoreCall → Prop
  | write commit build _ => Writes s commit build (exec (writeZone32 commit build) s).1
      (exec (writeZone32 commit build) s).2.zones
  | shift => (exec shiftZone32 s).1 = .ok (Zones.nextNumber s.zones.active) ∧
      s.zones.MovedOn (exec shiftZone32 s).2.zones
  | delete id => Deletes s.zones id (exec (deleteZone id) s).1 (exec (deleteZone id) s).2.zones
  | willCommit commit => (exec (StoreM.willCommit commit) s).2 = s
  | didCommit commit =>
      (exec (StoreM.didCommit commit) s).2.zones.active = s.zones.active ∧
        (exec (StoreM.didCommit commit) s).2.zones.text? = s.zones.text? ∧
        (exec (StoreM.didCommit commit) s).2.zones.isClosed =
          (s.zones.isClosed || s.takesPart && commit.closed)
  | close => (exec StoreM.close s).2.zones.active = s.zones.active ∧
      (exec StoreM.close s).2.zones.text? = s.zones.text? ∧
      (exec StoreM.close s).2.zones.isClosed = true

theorem ordered_zones32 (hordered : s.zones.Ordered) (commit : Commit) :
    (commit.zones32 s.zones).Ordered := by
  unfold Commit.zones32
  split
  · exact hordered.shift32
  · exact hordered

/-- The zones that a commit appends to. -/
theorem commit_zones32 (commit : Commit) :
    if commit.shifted then s.zones.MovedOn (commit.zones32 s.zones)
    else commit.zones32 s.zones = s.zones := by
  unfold Commit.zones32
  split
  · exact Zones.movedOn_shift32 s.zones
  · rfl

theorem writes_writeZone32 (hordered : s.zones.Ordered) (commit : Commit)
    {build : Nat → Nat → StoreM (String × α)} (hspares : ∀ zone base, Spares (build zone base)) :
    Writes s commit build (exec (writeZone32 commit build) s).1
      (exec (writeZone32 commit build) s).2.zones := by
  unfold Writes
  split
  · next hclosed =>
      rw [exec_writeZone32_of_closed commit build hclosed]
      exact ⟨rfl, rfl⟩
  · next hopen =>
      have hbuilt := writeZone32_built commit hspares (Bool.eq_false_of_not_eq_true hopen) rfl
      obtain ⟨before, hbefore⟩ :=
        Option.isSome_iff_exists.1 (Zones.text?_isSome.2 (ordered_zones32 hordered commit).kept)
      rw [Zones.size?, hbefore, Option.map_some, Option.getD_some] at hbuilt
      refine ⟨commit.zones32 s.zones, before, commit_zones32 commit, hbefore, ?_⟩
      split at hbuilt
      · obtain ⟨houtcome, hzones⟩ := hbuilt
        rw [hzones]
        exact ⟨houtcome, rfl, Zones.text?_append_active hbefore _⟩
      · exact hbuilt

theorem exec_deleteZone (id : Nat) (s : Store) :
    exec (deleteZone id) s = (.ok (s.zones.delete id).1, s.withZones (s.zones.delete id).2) :=
  rfl

theorem deletes_deleteZone (id : Nat) (s : Store) :
    Deletes s.zones id (exec (deleteZone id) s).1 (exec (deleteZone id) s).2.zones := by
  rw [exec_deleteZone]
  unfold Deletes
  split
  · next hfound =>
      refine ⟨?_, Zones.active_delete s.zones id, Zones.text?_delete_found hfound⟩
      rw [Zones.delete, if_pos hfound]
  · next hmissed =>
      rw [Zones.delete, if_neg hmissed]
      exact ⟨rfl, rfl⟩

/-- A store that is told of its last commit closes, if it takes part. -/
theorem zones_didCommit (commit : Commit) (s : Store) :
    (exec (StoreM.didCommit commit) s).2.zones =
      if s.takesPart && commit.closed then s.zones.close else s.zones := by
  have htold : exec (StoreM.didCommit commit) s =
      exec (if s.takesPart && commit.closed then StoreM.close else pure ()) s.markCommit := by
    rw [StoreM.didCommit, exec_bind, exec_modify]
    dsimp only
    rw [exec_bind, exec_get]
    rfl
  rw [htold]
  cases s.takesPart && commit.closed <;> rfl

/-- Each call does what it is to do. -/
theorem does (hordered : s.zones.Ordered) (call : StoreCall) : call.Does s := by
  cases call with
  | write commit build hspares => exact writes_writeZone32 hordered commit hspares
  | shift => exact ⟨rfl, Zones.movedOn_shift32 s.zones⟩
  | delete id => exact deletes_deleteZone id s
  | willCommit commit => exact willCommit_spares commit s
  | didCommit commit =>
      unfold Does
      dsimp only
      rw [zones_didCommit]
      cases s.takesPart && commit.closed with
      | true => exact ⟨rfl, rfl, (Bool.or_true _).symm⟩
      | false => exact ⟨rfl, rfl, (Bool.or_false _).symm⟩
  | close => exact ⟨rfl, rfl, rfl⟩

/-! ## Until the counter comes round -/

/-- A call begins a zone. -/
def begins (s : Store) : StoreCall → Bool
  | write commit _ _ => commit.shifted && !s.zones.isClosed
  | shift => true
  | delete _ | willCommit _ | didCommit _ | close => false

/-- So many zones are begun by some calls. -/
def begun (s : Store) : List StoreCall → Nat
  | [] => 0
  | call :: calls => (call.begins s).toNat + begun (call.turn32 s) calls

theorem begun_append (s : Store) (calls more : List StoreCall) :
    begun s (calls ++ more) = begun s calls + begun (after32 s calls) more := by
  induction calls generalizing s with
  | nil => exact (Nat.zero_add _).symm
  | cons call calls ih =>
      show (call.begins s).toNat + begun (call.turn32 s) (calls ++ more) = _
      rw [ih, ← Nat.add_assoc]
      rfl

/-- Once the counter has moved on, a call makes one change to the zones at most. -/
theorem zones_turn32 (s : Store) (call : StoreCall) {z : Zones}
    (hz : (if call.begins s then s.zones.shift32 else s.zones) = z) :
    (call.turn32 s).zones = z ∨ (∃ text, (call.turn32 s).zones = z.append text) ∨
      (∃ id, (call.turn32 s).zones = (z.delete id).2) ∨ (call.turn32 s).zones = z.close := by
  subst hz
  cases call with
  | write commit build hspares =>
      cases hclosed : s.zones.isClosed with
      | true =>
          refine Or.inl ?_
          rw [turn32, exec_writeZone32_of_closed commit build hclosed]
          simp [begins, hclosed]
      | false =>
          have hbegun : (if (write commit build hspares).begins s then s.zones.shift32
              else s.zones) = commit.zones32 s.zones := by
            simp [begins, hclosed, Commit.zones32]
          have hbuilt := writeZone32_built commit hspares hclosed hbegun.symm
          split at hbuilt
          · exact Or.inr (Or.inl ⟨_, hbuilt.2⟩)
          · exact Or.inl hbuilt.2
  | shift => exact Or.inl rfl
  | delete id => exact Or.inr (Or.inr (Or.inl ⟨id, rfl⟩))
  | willCommit commit => exact Or.inl (congrArg Store.zones (willCommit_spares commit s))
  | didCommit commit =>
      rw [turn32, zones_didCommit]
      cases s.takesPart && commit.closed with
      | true => exact Or.inr (Or.inr (Or.inr rfl))
      | false => exact Or.inl rfl
  | close => exact Or.inr (Or.inr (Or.inr rfl))

theorem ordered_turn32 (hordered : s.zones.Ordered) (call : StoreCall) :
    (call.turn32 s).zones.Ordered := by
  have hbegun : (if call.begins s then s.zones.shift32 else s.zones).Ordered := by
    split
    · exact hordered.shift32
    · exact hordered
  rcases zones_turn32 s call rfl with heq | ⟨text, heq⟩ | ⟨id, heq⟩ | heq
  · exact heq ▸ hbegun
  · exact heq ▸ hbegun.append text
  · exact heq ▸ hbegun.delete id
  · exact heq ▸ ⟨hbegun.kept, hbegun.ascending⟩

/-- The counter moves on by one if the call begins a zone. -/
theorem active_turn32 (s : Store) (call : StoreCall) (hword : s.zones.active < 2 ^ 32) :
    (call.turn32 s).zones.active = (s.zones.active + (call.begins s).toNat) % 2 ^ 32 := by
  have hbegun : (if call.begins s then s.zones.shift32 else s.zones).active =
      (s.zones.active + (call.begins s).toNat) % 2 ^ 32 := by
    split
    · next hbegins =>
        rw [hbegins]
        exact Zones.nextNumber_eq _
    · next hstays =>
        rw [Bool.eq_false_of_not_eq_true hstays]
        exact (Nat.mod_eq_of_lt hword).symm
  rw [← hbegun]
  rcases zones_turn32 s call rfl with heq | ⟨text, heq⟩ | ⟨id, heq⟩ | heq
  · rw [heq]
  · rw [heq]
    rfl
  · rw [heq, Zones.active_delete]
  · rw [heq]
    rfl

/-- After any calls the counter has come as far as zones have been begun. -/
theorem active_after32 (calls : List StoreCall) (hword : s.zones.active < 2 ^ 32) :
    (after32 s calls).zones.active = (s.zones.active + begun s calls) % 2 ^ 32 := by
  induction calls generalizing s with
  | nil => exact (Nat.mod_eq_of_lt hword).symm
  | cons call calls ih =>
      have hturn := active_turn32 s call hword
      have hrest := ih (s := call.turn32 s) (hturn ▸ Nat.mod_lt _ (Nat.two_pow_pos 32))
      show (after32 (call.turn32 s) calls).zones.active =
        (s.zones.active + ((call.begins s).toNat + begun (call.turn32 s) calls)) % 2 ^ 32
      rw [hrest, hturn, Nat.mod_add_mod, Nat.add_assoc]

theorem ordered_after32 (hordered : s.zones.Ordered) (calls : List StoreCall) :
    (after32 s calls).zones.Ordered := by
  induction calls generalizing s with
  | nil => exact hordered
  | cons call calls ih => exact ih (ordered_turn32 hordered call)

/-- As long as the counter does not come round, a call does what it does without an end to the
numbers. -/
theorem turn32_eq (hsound : s.zones.Sound) (call : StoreCall)
    (hroom : s.zones.active + (call.begins s).toNat < 2 ^ 32) : call.turn32 s = call.turn s := by
  cases call with
  | write commit build hspares =>
      cases hclosed : s.zones.isClosed with
      | true =>
          rw [turn32, turn, exec_writeZone32_of_closed commit build hclosed,
            exec_writeZone_of_closed commit build hclosed]
      | false =>
          have hzones : commit.zones32 s.zones = commit.zones s.zones := by
            unfold Commit.zones32 Commit.zones
            split
            · next hshifted =>
                refine Zones.shift32_eq hsound ?_
                simpa [begins, hshifted, hclosed] using hroom
            · rfl
          rw [turn32, turn, exec_writeZone32 commit build hclosed, hzones,
            exec_writeZone _ build _ (hzones ▸ (isClosed_zones32 commit s.zones).trans hclosed),
            exec_writeZone commit build s hclosed]
          rfl
  | shift => exact congrArg s.withZones (Zones.shift32_eq hsound hroom)
  | delete _ | willCommit _ | didCommit _ | close => rfl

/-- As long as the counter does not come round, calls do what they do without an end to the
numbers. -/
theorem after32_eq (hsound : s.zones.Sound) (calls : List StoreCall)
    (hroom : s.zones.active + begun s calls < 2 ^ 32) : after32 s calls = after s calls := by
  induction calls generalizing s with
  | nil => rfl
  | cons call calls ih =>
      have hsum : begun s (call :: calls) = (call.begins s).toNat + begun (call.turn32 s) calls :=
        rfl
      have hturn : call.turn32 s = call.turn s := turn32_eq hsound call (by omega)
      have hactive := active_turn32 s call (by omega)
      rw [Nat.mod_eq_of_lt (by omega)] at hactive
      show after32 (call.turn32 s) calls = after (call.turn s) calls
      rw [← hturn]
      exact ih (hturn ▸ (turns_turn s call).sound hsound) (by omega)

/-- What is left by calls after which the counter has not come round follows from what some of them
have left. -/
theorem follows_after32 (hsound : s.zones.Sound) (earlier later : List StoreCall)
    (hroom : s.zones.active + begun s (earlier ++ later) < 2 ^ 32) :
    (after32 s earlier).zones.Sound ∧
      (after32 s earlier).zones.Follows (after32 s (earlier ++ later)).zones := by
  rw [begun_append] at hroom
  have hactive := active_after32 (s := s) earlier (by omega)
  rw [Nat.mod_eq_of_lt (by omega)] at hactive
  have hbefore : (after32 s earlier).zones.Sound := by
    rw [after32_eq hsound earlier (by omega)]
    exact (follows_after hsound earlier).1
  refine ⟨hbefore, ?_⟩
  rw [after32_append, after32_eq hbefore later (by omega)]
  exact (follows_after hbefore later).2

/-! ## Throughout a history -/

/-- Whatever has been asked of a store since it was new, its active zone is kept, with the number
that the counter has come to after one step for each zone begun; zones stand in the order of their
numbers; and each call does to the zones what it is to do and nothing else: the one text that grows
is that of the zone written to, and by what was built for its end.

As long as the counter has not come round, which takes 2 ^ 32 - 1 new zones, the store is the one
whose numbers have no end.  Its active zone has the greatest number that any zone has had; a zone
that was not there at some earlier time has a number that no zone had had by then, so that the
number of a zone that is gone is never given again; and texts have only grown at their ends, or,
once the store was closed, stayed as they were for as long as their zones are kept. -/
theorem zones_throughout (settings : Settings) (takesPart : Bool) (now : Timestamp)
    (history : List StoreCall) :
    let start := Store.create settings takesPart now
    let s := after32 start history
    (s.zones.active ∈ s.zones.ids ∧ s.zones.ids.Pairwise (· < ·) ∧
      s.zones.active = (Zones.firstZone + begun start history) % 2 ^ 32 ∧
      ∀ call : StoreCall, call.Does s) ∧
    (Zones.firstZone + begun start history < 2 ^ 32 →
      s = after start history ∧
      (∀ earlier later, history = earlier ++ later →
        let before := after32 start earlier
        before.zones.Follows s.zones ∧ (∀ id ∈ before.zones.ids, id ≤ s.zones.active) ∧
        (∀ id ∈ s.zones.ids, id ∉ before.zones.ids → before.zones.active < id) ∧
        (before.zones.isClosed = true → ∀ id ∈ before.zones.ids,
          s.zones.text? id = before.zones.text? id ∨ s.zones.text? id = none)) ∧
      (∀ earlier middle later, history = earlier ++ middle ++ later →
        ∀ id ∈ (after32 start earlier).zones.ids,
          id ∉ (after32 start (earlier ++ middle)).zones.ids → id ∉ s.zones.ids)) := by
  intro start s
  have hword : start.zones.active < 2 ^ 32 := by
    show 1 < 2 ^ 32
    decide
  have hsound : start.zones.Sound := Zones.sound_start
  have hordered : s.zones.Ordered := ordered_after32 (s := start) Zones.ordered_start history
  refine ⟨⟨hordered.kept, hordered.ascending, active_after32 history hword, does hordered⟩,
    fun hroom => ⟨after32_eq hsound history hroom, ?_, ?_⟩⟩
  · rintro earlier later rfl
    obtain ⟨hbefore, hfollows⟩ := follows_after32 hsound earlier later hroom
    exact ⟨hfollows, fun id hid => Nat.le_trans (hbefore.latest id hid) hfollows.active,
      fun id hid hnew => Nat.not_le.1 fun hle => hnew (hfollows.mem_ids hid hle),
      fun hclosed id hid => hfollows.text?_of_closed hbefore hclosed hid⟩
  · rintro earlier middle later rfl id hid hgone hback
    -- the number was given early on, so the zone that is back has been there all the time
    have hroom' : start.zones.active + begun start (earlier ++ middle) < 2 ^ 32 := by
      rw [begun_append] at hroom
      exact Nat.lt_of_le_of_lt (Nat.add_le_add_left (Nat.le_add_right _ _) _) hroom
    obtain ⟨hearlier, hmiddle⟩ := follows_after32 hsound earlier middle hroom'
    obtain ⟨-, hlater⟩ := follows_after32 hsound (earlier ++ middle) later hroom
    exact hgone (hlater.mem_ids hback (Nat.le_trans (hearlier.latest id hid) hmiddle.active))

/-- A text to be written. -/
def writing (commit : Commit) (text : String) : StoreCall :=
  write commit (fun _ _ => pure (text, ())) fun _ _ => .pure _

/-- A text that cannot be built. -/
def writingInVain (commit : Commit) : StoreCall :=
  write (α := Unit) commit (fun _ _ => throw (.fatal "no text")) fun _ _ => .throw _

/-- A history in which the store moves on for a text that cannot be built, a zone is deleted, and
the store is closed and moves on once more. -/
def eventful : List StoreCall :=
  [writing .plain "ab", writingInVain ⟨false, false, true⟩, writing .plain "c", delete 1, shift,
    didCommit ⟨true, false, false⟩, writing .plain "d", shift]

theorem zones_throughout_eventful :
    Zones.firstZone + begun (.create .forTrials true ⟨0⟩) eventful = 4 ∧
      (after32 (.create .forTrials true ⟨0⟩) (eventful.take 3)).zones =
        ⟨[⟨1, "ab"⟩, ⟨2, "c"⟩], 2, false⟩ ∧
      (after32 (.create .forTrials true ⟨0⟩) eventful).zones =
        ⟨[⟨2, "c"⟩, ⟨3, ""⟩, ⟨4, ""⟩], 4, true⟩ ∧
      after32 (.create .forTrials true ⟨0⟩) eventful =
        after (.create .forTrials true ⟨0⟩) eventful ∧
      (after32 (.create .forTrials true ⟨0⟩) (eventful.take 3)).zones.Follows
        (after32 (.create .forTrials true ⟨0⟩) eventful).zones := by
  obtain ⟨-, hlasts⟩ := zones_throughout .forTrials true ⟨0⟩ eventful
  have hbegun : Zones.firstZone + begun (.create .forTrials true ⟨0⟩) eventful = 4 := by rfl
  obtain ⟨hrunning, hfollows, -⟩ := hlasts (lt_of_eq_of_lt hbegun (by decide))
  obtain ⟨hsame, -⟩ := hfollows (eventful.take 3) (eventful.drop 3)
    (List.take_append_drop 3 eventful).symm
  exact ⟨hbegun, by rfl, by rfl, hrunning, hsame⟩

end StoreCall
end PageTree
