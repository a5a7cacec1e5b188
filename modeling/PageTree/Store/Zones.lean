import PageTree.Error
import PageTree.Text.Basic

/-!
# Zones

A store keeps its pages in zones, texts that only ever grow at the end.  One zone is active
and takes what is written; older zones are kept until they are deleted.  Their numbers go on without
an end here; `Zones.shift32` numbers them with 32 bits, which is the same until these come round
(`StoreCall.after32_eq`).
-/

namespace PageTree

/-- A zone: its number and its text. -/
structure Zone where
  id : Nat
  text : String
  deriving DecidableEq, Repr

/-- The zones of a store, oldest first. -/
structure Zones where
  zones : List Zone
  /-- The number of the zone that is written to. -/
  active : Nat
  /-- The store has been closed. -/
  isClosed : Bool
  deriving DecidableEq, Repr

namespace Zones

/-- The number of the first zone of a store. -/
def firstZone : Nat := 1

/-- One empty zone. -/
def start : Zones := ⟨[⟨firstZone, ""⟩], firstZone, false⟩

/-- The zone of a number. -/
def find? (z : Zones) (id : Nat) : Option Zone :=
  z.zones.find? (·.id == id)

/-- The text of a zone. -/
def text? (z : Zones) (id : Nat) : Option String :=
  (z.find? id).map Zone.text

/-- The size of a zone in bytes. -/
def size? (z : Zones) (id : Nat) : Option Nat :=
  (z.text? id).map String.utf8ByteSize

/-- The numbers of the zones, oldest first. -/
def ids (z : Zones) : List Nat :=
  z.zones.map Zone.id

/-- The oldest zone. -/
def oldest (z : Zones) : Nat :=
  z.ids.head?.getD firstZone

/-- The size of all zones. -/
def totalSize (z : Zones) : Nat :=
  (z.zones.map fun zone => zone.text.utf8ByteSize).foldr (· + ·) 0

/-- Moves on to a new zone. -/
def shift (z : Zones) : Zones :=
  { z with zones := z.zones ++ [⟨z.active + 1, ""⟩], active := z.active + 1 }

/-- Deletes a zone other than the active one; says whether there was such a zone. -/
def delete (z : Zones) (id : Nat) : Bool × Zones :=
  if id ≠ z.active ∧ id ∈ z.ids then
    (true, { z with zones := z.zones.filter (·.id != id) })
  else
    (false, z)

/-- Appends to the active zone. -/
def append (z : Zones) (text : String) : Zones :=
  { z with zones := z.zones.map fun zone =>
      if zone.id = z.active then { zone with text := zone.text ++ text } else zone }

/-- Closes the store: nothing is read or written any more. -/
def close (z : Zones) : Zones :=
  { z with isClosed := true }

/-- Fails if the store is closed. -/
def checkOpen (z : Zones) : Except StoreError Unit :=
  if z.isClosed then .error .closed else .ok ()

/-- The text of `size` bytes that ends just before an offset of a zone. -/
def slice (z : Zones) (zone base size : Nat) : Except StoreError String := do
  z.checkOpen
  let some text := z.text? zone | throw (.zoneNotFound zone)
  if base < size then
    throw (.pageNotFound zone base)
  match Text.between? (base - size) base text with
  | some page => return page
  | none => throw (.pageNotFound zone base)

/-- The printed list of zones. -/
def describeIds (z : Zones) : String :=
  "[" ++ ", ".intercalate (z.ids.map toString) ++ "]"

end Zones
end PageTree
