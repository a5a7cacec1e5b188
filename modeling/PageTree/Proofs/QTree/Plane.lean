import PageTree.Proofs.QTree.Slots

/-!
# Maps of the plane

What a Q-tree means: each key lies at one point at most and has a value there.  The operations
are given here on functions; the slots of a Q-tree stand for such a function in whatever order
they come (`Slots.plane`), and a change of the slots is an operation on it (`plane_change`).
-/

namespace PageTree

/-- Where a key lies, and its value. -/
structure Spot where
  x : Nat
  y : Nat
  value : Value
  deriving DecidableEq, Repr

/-- The spots of the keys of a map of the plane. -/
abbrev Plane := Value → Option Spot

namespace Plane

/-- No key has a spot. -/
def empty : Plane := fun _ => none

/-- Puts a key at a spot, wherever it has been. -/
def store (key : Value) (spot : Spot) (f : Plane) : Plane :=
  fun k => if k = key then some spot else f k

/-- Takes a key away, wherever it is. -/
def erase (key : Value) (f : Plane) : Plane :=
  fun k => if k = key then none else f k

/-- Takes a key away if it is at a point. -/
def eraseAt (key : Value) (x y : Nat) (f : Plane) : Plane :=
  fun k => if k = key then (f key).filter fun spot => ¬ (spot.x = x ∧ spot.y = y) else f k

/-- Stores a value under a key at a point; `absent` takes the key away from the point. -/
def put (key : Value) (x y : Nat) (value : Value) (f : Plane) : Plane :=
  if value.isDefined then f.store key ⟨x, y, value⟩ else f.eraseAt key x y

/-- Moves a key to a point and stores a value there; `absent` takes the key away from either
point. -/
def move (key : Value) (oldX oldY newX newY : Nat) (value : Value) (f : Plane) : Plane :=
  if value.isDefined then f.store key ⟨newX, newY, value⟩
  else (f.eraseAt key oldX oldY).eraseAt key newX newY

/-- The value of a key, if it lies at the point. -/
def valueAt? (f : Plane) (key : Value) (x y : Nat) : Option Value :=
  ((f key).filter fun spot => spot.x = x ∧ spot.y = y).map Spot.value

/-- The value of a key wherever it lies. -/
def value? (f : Plane) (key : Value) : Option Value :=
  (f key).map Spot.value

/-- The entry of a key wherever it lies. -/
def entry? (f : Plane) (key : Value) : Option PlaneEntry :=
  (f key).map fun spot => ⟨key, spot.x, spot.y, spot.value⟩

variable {f : Plane} {key value : Value} {x y oldX oldY : Nat}

/-- It does not matter where a key that is stored has been. -/
theorem put_erase (hdefined : value.isDefined = true) :
    (f.erase key).put key x y value = f.put key x y value := by
  unfold put
  rw [if_pos hdefined, if_pos hdefined]
  funext k
  by_cases hk : k = key <;> simp [store, erase, hk]

theorem eraseAt_eraseAt : (f.eraseAt key x y).eraseAt key x y = f.eraseAt key x y := by
  funext k
  by_cases hk : k = key
  · subst hk
    cases hf : f k <;> simp [eraseAt, hf, Option.filter_filter]
  · simp [eraseAt, hk]

/-- A key that lies at a point is taken away from there. -/
theorem eraseAt_of_at {spot : Spot} (hspot : f key = some spot) (hat : spot.x = x ∧ spot.y = y) :
    f.eraseAt key x y = f.erase key := by
  funext k
  by_cases hk : k = key <;> simp [eraseAt, erase, hk, hspot, hat]

/-- A key that does not lie at a point is not taken away from there. -/
theorem eraseAt_of_not_at (hnot : ∀ spot, f key = some spot → ¬ (spot.x = x ∧ spot.y = y)) :
    f.eraseAt key x y = f := by
  funext k
  by_cases hk : k = key
  · subst hk
    cases hf : f k with
    | none => simp [eraseAt, hf]
    | some spot =>
        rw [eraseAt, if_pos rfl, hf, Option.filter_some, if_pos (decide_eq_true (hnot spot hf))]
  · simp [eraseAt, hk]

/-- A key that has been taken from where it was is moved by being stored. -/
theorem move_of_at {spot : Spot} (hspot : f key = some spot)
    (hat : spot.x = oldX ∧ spot.y = oldY) :
    f.move key oldX oldY x y value = (f.erase key).put key x y value := by
  unfold move
  split
  · next hdefined => rw [put_erase hdefined, put, if_pos hdefined]
  · next habsent => rw [eraseAt_of_at hspot hat, put, if_neg habsent]

/-- A key that is not at the old point is moved by being stored. -/
theorem move_of_not_at (hnot : ∀ spot, f key = some spot → ¬ (spot.x = oldX ∧ spot.y = oldY)) :
    f.move key oldX oldY x y value = f.put key x y value := by
  unfold move put
  rw [eraseAt_of_not_at hnot]

/-- To move a key to the point where it may be already is to store it there. -/
theorem move_self : f.move key x y x y value = f.put key x y value := by
  unfold move put
  rw [eraseAt_eraseAt]

end Plane

/-- The spot of a slot. -/
def Slot.spot (slot : Slot) : Spot :=
  ⟨slot.x.base, slot.y.base, slot.value⟩

namespace Slots

variable {slots slots' : List Slot} {key value : Value} {x y : Nat} {spot : Spot}

/-- The map of the plane that slots stand for. -/
def plane (slots : List Slot) : Plane :=
  fun key => (slots.find? fun slot => slot.key = key).map Slot.spot

theorem plane_eq_some_iff (hplaced : WellPlaced slots) :
    plane slots key = some spot ↔ ∃ slot ∈ slots, slot.key = key ∧ slot.spot = spot := by
  unfold plane
  rw [Option.map_eq_some_iff]
  constructor
  · rintro ⟨slot, hfind, hspot⟩
    exact ⟨slot, List.mem_of_find?_eq_some hfind, by simpa using List.find?_some hfind, hspot⟩
  · rintro ⟨slot, hslot, rfl, hspot⟩
    cases hfind : slots.find? fun other => other.key = slot.key with
    | none =>
        have habsent := List.find?_eq_none.1 hfind slot hslot
        simp at habsent
    | some other =>
        have hkey : other.key = slot.key := by simpa using List.find?_some hfind
        have hsame := hplaced.eq_of_key (List.mem_of_find?_eq_some hfind) hslot hkey
        exact ⟨other, rfl, by rw [hsame, hspot]⟩

theorem plane_eq_none_iff : plane slots key = none ↔ ∀ slot ∈ slots, slot.key ≠ key := by
  unfold plane
  rw [Option.map_eq_none_iff, List.find?_eq_none]
  simp

/-- Well-placed slots stand for a map that has the spots of just those slots. -/
theorem plane_eq_of (hplaced : WellPlaced slots) {f : Plane}
    (hsome : ∀ slot ∈ slots, f slot.key = some slot.spot)
    (hnone : ∀ key, (∀ slot ∈ slots, slot.key ≠ key) → f key = none) : plane slots = f := by
  funext key
  cases hplane : plane slots key with
  | none => rw [hnone key (plane_eq_none_iff.1 hplane)]
  | some spot =>
      obtain ⟨slot, hslot, rfl, rfl⟩ := (plane_eq_some_iff hplaced).1 hplane
      rw [hsome slot hslot]

/-- The order of the slots does not matter. -/
theorem plane_perm (hplaced : WellPlaced slots) (hperm : slots'.Perm slots) :
    plane slots' = plane slots := by
  refine plane_eq_of (hplaced.perm hperm) ?_ ?_
  · intro slot hslot
    exact (plane_eq_some_iff hplaced).2 ⟨slot, hperm.mem_iff.1 hslot, rfl, rfl⟩
  · intro key hkey
    exact plane_eq_none_iff.2 fun slot hslot => hkey slot (hperm.mem_iff.2 hslot)

/-- The point of two coordinates that a tile can hold. -/
theorem valid_point (hx : x ≤ maxCoordinate) (hy : y ≤ maxCoordinate) :
    Point.Valid ⟨.point x, .point y⟩ :=
  ⟨x, y, hx, hy, rfl⟩

/-- A slot lies at the point of the coordinates of its spot. -/
theorem ofSlot_eq_iff {slot : Slot} (hvalid : (Point.ofSlot slot).Valid)
    (hx : x ≤ maxCoordinate) (hy : y ≤ maxCoordinate) :
    Point.ofSlot slot = ⟨.point x, .point y⟩ ↔ slot.spot.x = x ∧ slot.spot.y = y := by
  obtain ⟨x', y', hx', hy', heq⟩ := hvalid
  have hslotX : slot.x = .point x' := congrArg Point.x heq
  have hslotY : slot.y = .point y' := congrArg Point.y heq
  have hspotX : slot.spot.x = x' := by rw [Slot.spot, hslotX, Tile.base_point hx']
  have hspotY : slot.spot.y = y' := by rw [Slot.spot, hslotY, Tile.base_point hy']
  rw [heq, hspotX, hspotY]
  constructor
  · intro hpoint
    have hpointX := congrArg (fun p => p.x.base) hpoint
    have hpointY := congrArg (fun p => p.y.base) hpoint
    simp only [Tile.base_point, hx, hx', hy, hy'] at hpointX hpointY
    exact ⟨hpointX, hpointY⟩
  · rintro ⟨rfl, rfl⟩
    rfl

/-- A change to a defined value stores it at its key, whatever was there. -/
theorem plane_store (hplaced : WellPlaced slots) (hx : x ≤ maxCoordinate)
    (hy : y ≤ maxCoordinate) (hdefined : value.isDefined = true) :
    plane (change key ⟨.point x, .point y⟩ value slots) =
      (plane slots).store key ⟨x, y, value⟩ := by
  refine plane_eq_of (hplaced.change (valid_point hx hy)) ?_ ?_
  · intro slot hslot
    rw [change, if_pos hdefined] at hslot
    rcases List.mem_cons.1 hslot with rfl | hslot
    · simp [Plane.store, Slot.spot, Tile.base_point hx, Tile.base_point hy]
    · obtain ⟨hmem, hkey⟩ := List.mem_filter.1 hslot
      rw [Plane.store, if_neg (by simpa using hkey)]
      exact (plane_eq_some_iff hplaced).2 ⟨slot, hmem, rfl, rfl⟩
  · intro k hk
    rw [change, if_pos hdefined] at hk
    have hne : k ≠ key := fun heq => hk _ List.mem_cons_self heq.symm
    rw [Plane.store, if_neg hne]
    refine plane_eq_none_iff.2 fun slot hslot hkey => ?_
    refine hk slot (List.mem_cons_of_mem _ (List.mem_filter.2 ⟨hslot, ?_⟩)) hkey
    simpa [hkey] using hne

/-- A change to an undefined value erases the spot of its key if that lies at the point. -/
theorem plane_eraseAt (hplaced : WellPlaced slots) (hx : x ≤ maxCoordinate)
    (hy : y ≤ maxCoordinate) (habsent : ¬ value.isDefined = true) :
    plane (change key ⟨.point x, .point y⟩ value slots) = (plane slots).eraseAt key x y := by
  refine plane_eq_of (hplaced.change (valid_point hx hy)) ?_ ?_
  · intro slot hslot
    rw [change, if_neg habsent] at hslot
    obtain ⟨hmem, hat⟩ := List.mem_filter.1 hslot
    have hplane : plane slots slot.key = some slot.spot :=
      (plane_eq_some_iff hplaced).2 ⟨slot, hmem, rfl, rfl⟩
    rw [Plane.eraseAt]
    split
    · next hkey =>
        have hother : ¬ (slot.spot.x = x ∧ slot.spot.y = y) := by
          rw [← ofSlot_eq_iff (hplaced.valid slot hmem) hx hy]
          simpa [Slot.IsAt, hkey] using hat
        rw [← hkey, hplane, Option.filter_some, if_pos (decide_eq_true hother)]
    · exact hplane
  · intro k hk
    rw [change, if_neg habsent] at hk
    rw [Plane.eraseAt]
    split
    · next hkey =>
        subst hkey
        rw [Option.filter_eq_none_iff]
        intro spot hspot
        obtain ⟨slot, hslot, hkey, rfl⟩ := (plane_eq_some_iff hplaced).1 hspot
        -- the slot of the key has been taken away, so it was at the point
        have hthere : slot.IsAt k ⟨.point x, .point y⟩ := by
          by_contra hnot
          exact hk slot (List.mem_filter.2 ⟨hslot, by simpa using hnot⟩) hkey
        simpa using (ofSlot_eq_iff (hplaced.valid slot hslot) hx hy).1 hthere.2
    · next hne =>
        refine plane_eq_none_iff.2 fun slot hslot hkey => ?_
        refine hk slot (List.mem_filter.2 ⟨hslot, ?_⟩) hkey
        simp [Slot.IsAt, hkey, hne]

/-- A change of slots puts a value at a key and a point of the map that they stand for. -/
theorem plane_change (hplaced : WellPlaced slots) (hx : x ≤ maxCoordinate)
    (hy : y ≤ maxCoordinate) :
    plane (change key ⟨.point x, .point y⟩ value slots) = (plane slots).put key x y value := by
  unfold Plane.put
  split
  · next hdefined => exact plane_store hplaced hx hy hdefined
  · next habsent => exact plane_eraseAt hplaced hx hy habsent

end Slots
end PageTree
