/-!
# Points of time

A `Timestamp` counts milliseconds since the epoch.  A tree's seed keeps when the tree was
created and last written.
-/

namespace PageTree

/-- Milliseconds since the epoch. -/
structure Timestamp where
  millis : Nat
  deriving DecidableEq, Repr, Inhabited

namespace Timestamp

/-- The epoch. -/
def zero : Timestamp := ⟨0⟩

/-- The later of two points of time, so that a clock that runs back never takes a stamp back. -/
def latest (a b : Timestamp) : Timestamp :=
  if a.millis < b.millis then b else a

/-- One point of time is before another. -/
def isBefore (a b : Timestamp) : Bool :=
  a.millis < b.millis

/-- The printed form, a count of milliseconds. -/
def toText (t : Timestamp) : String :=
  toString t.millis

/-- The form that names the unit. -/
def describe (t : Timestamp) : String :=
  "Timestamp(" ++ toString t.millis ++ "ms)"

end Timestamp
end PageTree
