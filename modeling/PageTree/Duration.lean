import PageTree.Text.Basic
import PageTree.Text.Digits

/-!
# Spans of time

A `Duration` counts nanoseconds.  Its text is a sequence of counts, each with a unit: when
printed, the units go from years down to nanoseconds and counts of zero are left out; when
read, units come in any order, have several names, and add up.  A count that is read may have a
decimal fraction, if the unit divides by it without a remainder, and `0` alone needs no unit.
-/

namespace PageTree

/-- A span of time. -/
structure Duration where
  nanos : Nat
  deriving DecidableEq, Repr, Inhabited

namespace Duration

def ofMillis (n : Nat) : Duration := ⟨n * 1000000⟩

def ofSeconds (n : Nat) : Duration := ⟨n * 1000000000⟩

/-! ## Printing -/

/-- A printed unit: its length in nanoseconds, its name, and whether it takes a plural `s`. -/
structure PrintedUnit where
  nanos : Nat
  name : String
  hasPlural : Bool

/-- The units of printed durations, longest first. -/
def printedUnits : List PrintedUnit :=
  [⟨31557600 * 1000000000, "year", true⟩, ⟨2630016 * 1000000000, "month", true⟩,
   ⟨86400 * 1000000000, "day", true⟩, ⟨3600 * 1000000000, "h", false⟩,
   ⟨60 * 1000000000, "m", false⟩, ⟨1000000000, "s", false⟩, ⟨1000000, "ms", false⟩,
   ⟨1000, "us", false⟩, ⟨1, "ns", false⟩]

/-- A count of a unit; a count of zero is left out. -/
def renderCount (count : Nat) (unit : PrintedUnit) : List (List Char) :=
  if count = 0 then []
  else
    [Text.decimal count ++ unit.name.toList ++
      (if unit.hasPlural && 1 < count then ['s'] else [])]

/-- The counts of a span in ever smaller units. -/
def renderCounts : List PrintedUnit → Nat → List (List Char)
  | [], _ => []
  | unit :: units, nanos =>
    renderCount (nanos / unit.nanos) unit ++ renderCounts units (nanos % unit.nanos)

/-- The text of a span; no time at all is `0s`. -/
def toText (d : Duration) : String :=
  if d.nanos = 0 then "0s"
  else String.ofList (Text.joinWith ' ' (renderCounts printedUnits d.nanos))

/-! ## Reading -/

/-- The characters that may stand between counts and units: the blanks of Unicode. -/
def isBlank (c : Char) : Bool :=
  let n := c.toNat
  (9 ≤ n && n ≤ 13) || n == 0x20 || n == 0x85 || n == 0xA0 || n == 0x1680 ||
    (0x2000 ≤ n && n ≤ 0x200A) || n == 0x2028 || n == 0x2029 || n == 0x202F || n == 0x205F ||
    n == 0x3000

/-- The length of a unit: whole seconds, or nanoseconds below the second. -/
inductive UnitLength where
  | seconds (n : Nat)
  | nanos (n : Nat)

/-- The characters of names of units. -/
def isUnitChar (c : Char) : Bool :=
  c.isAlpha || c == 'µ'

/-- The unit that a name stands for. -/
def unitLength? (name : String) : Option UnitLength :=
  if name ∈ ["nanos", "nsec", "ns"] then some (.nanos 1)
  else if name ∈ ["usec", "us", "µs"] then some (.nanos 1000)
  else if name ∈ ["millis", "msec", "ms"] then some (.nanos 1000000)
  else if name ∈ ["seconds", "second", "secs", "sec", "s"] then some (.seconds 1)
  else if name ∈ ["minutes", "minute", "min", "mins", "m"] then some (.seconds 60)
  else if name ∈ ["hours", "hour", "hrs", "hr", "h"] then some (.seconds 3600)
  else if name ∈ ["days", "day", "d"] then some (.seconds 86400)
  else if name ∈ ["weeks", "week", "wks", "wk", "w"] then some (.seconds 604800)
  else if name ∈ ["months", "month", "M"] then some (.seconds 2630016)
  else if name ∈ ["years", "year", "yrs", "yr", "y"] then some (.seconds 31557600)
  else none

/-- A number that fits 64 bits. -/
def fits (n : Nat) : Option Nat :=
  if n < UInt64.size then some n else none

/-- A span as whole seconds and the nanoseconds beyond them. -/
structure Parts where
  seconds : Nat
  nanos : Nat

/-- Adds seconds and nanoseconds; a part that outgrows 64 bits is refused. -/
def Parts.add (total : Parts) (seconds nanos : Nat) : Option Parts := do
  let nanos ← fits (total.nanos + nanos)
  let seconds ← fits (seconds + nanos / 1000000000)
  return ⟨← fits (total.seconds + seconds), nanos % 1000000000⟩

/-- The fraction that follows the point of a count. -/
structure Fraction where
  numerator : Nat
  denominator : Nat

namespace Fraction

/-- The fraction of no digits. -/
def none : Fraction := ⟨0, 1⟩

/-- The fraction with one more digit. -/
def push (f : Fraction) (digit : Nat) : Option Fraction :=
  return ⟨← fits (10 * f.numerator + digit), ← fits (10 * f.denominator)⟩

/-- The fraction of a length, which has to be a whole number. -/
def of? (f : Fraction) (length : Nat) : Option Nat := do
  let product ← fits (f.numerator * length)
  if product % f.denominator = 0 then some (product / f.denominator) else .none

end Fraction

/-- Adds a fraction of a unit.  Below the hour it is counted in nanoseconds, from there on in
seconds; a nanosecond has no fractions. -/
def Parts.addFraction (total : Parts) (f : Fraction) (unit : UnitLength) : Option Parts := do
  match unit with
  | .nanos length => if length = 1 then none else total.add 0 (← f.of? length)
  | .seconds length =>
    if length < 3600 then total.add 0 (← f.of? (length * 1000000000))
    else total.add (← f.of? length) 0

/-- Adds a count of a unit, which may have a fraction. -/
def Parts.addCount (total : Parts) (count : Nat) (fraction : Option Fraction)
    (name : List Char) : Option Parts := do
  let unit ← unitLength? (String.ofList name)
  let total ← match unit with
    | .seconds length => total.add (← fits (count * length)) 0
    | .nanos length => total.add 0 (← fits (count * length))
  match fraction with
  | some f => total.addFraction f unit
  | none => return total

/-- Where a reader of durations stands: before a count, in one, behind its point, or in a
unit's name, of which it has the characters so far in reverse. -/
inductive ReadState where
  | beforeCount
  | inCount (count : Nat)
  | inFraction (count : Nat) (fraction : Fraction)
  | inUnit (count : Nat) (fraction : Option Fraction) (name : List Char)

/-- Reads the rest of a text after the parts read so far. -/
def readParts : List Char → ReadState → Parts → Option Parts
  | [], .beforeCount, total => some total
  | [], .inCount _, _ => none
  | [], .inFraction _ _, _ => none
  | [], .inUnit count fraction name, total => total.addCount count fraction name.reverse
  | c :: cs, .beforeCount, total =>
    if c.isDigit then readParts cs (.inCount (c.toNat - 48)) total
    else if isBlank c then readParts cs .beforeCount total
    else none
  | c :: cs, .inCount count, total =>
    if c.isDigit then do readParts cs (.inCount (← fits (10 * count + (c.toNat - 48)))) total
    else if isBlank c then readParts cs (.inCount count) total
    else if isUnitChar c then readParts cs (.inUnit count none [c]) total
    else if c == '.' then readParts cs (.inFraction count .none) total
    else none
  | c :: cs, .inFraction count fraction, total =>
    if c.isDigit then do
      readParts cs (.inFraction count (← fraction.push (c.toNat - 48))) total
    else if isBlank c then readParts cs (.inFraction count fraction) total
    else if isUnitChar c && 1 < fraction.denominator then
      readParts cs (.inUnit count (some fraction) [c]) total
    else none
  | c :: cs, .inUnit count fraction name, total =>
    if c.isDigit then do
      readParts cs (.inCount (c.toNat - 48)) (← total.addCount count fraction name.reverse)
    else if isBlank c then do
      readParts cs .beforeCount (← total.addCount count fraction name.reverse)
    else if isUnitChar c then readParts cs (.inUnit count fraction (c :: name)) total
    else none

/-- The span that a text spells.  Zero needs no unit; a text of blanks spells no span. -/
def parse? (text : String) : Option Duration :=
  if text = "0" then some ⟨0⟩
  else if text.toList.all isBlank then none
  else do
    let total ← readParts text.toList .beforeCount ⟨0, 0⟩
    return ⟨total.seconds * 1000000000 + total.nanos⟩

end Duration
end PageTree
