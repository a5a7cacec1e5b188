import PageTree.Value.Basic

/-!
# The order of values

Values are ordered by kind, `absent`, booleans, integers, texts, data, lists, and within a
kind by content: integers by size, texts by their bytes in UTF-8, data by bytes and lists by
items, a proper prefix coming first.  Main statement: two values compare equal exactly when
they are the same (`Value.compare_eq_iff`), which also decides equality.
-/

namespace PageTree
namespace Value

/-- The place of a value's kind in the order. -/
def rank : Value → Nat
  | absent => 0
  | bool _ => 1
  | int _ => 2
  | text _ => 3
  | data _ => 4
  | list _ => 5

/-- The order of bytes, item by item, a proper prefix coming first. -/
def compareBytes : List UInt8 → List UInt8 → Ordering
  | [], [] => .eq
  | [], _ :: _ => .lt
  | _ :: _, [] => .gt
  | a :: as, b :: bs => (Ord.compare a.toNat b.toNat).then (compareBytes as bs)

/-- The bytes of a text in UTF-8. -/
def textBytes (s : String) : List UInt8 :=
  s.toByteArray.data.toList

mutual

/-- The order of two values. -/
def compare : Value → Value → Ordering
  | bool a, bool b => Ord.compare a.toNat b.toNat
  | int a, int b => Ord.compare a.toInt b.toInt
  | text a, text b => compareBytes (textBytes a) (textBytes b)
  | data a, data b => compareBytes a b
  | list as, list bs => compareAll as bs
  | a, b => Ord.compare a.rank b.rank

/-- The order of two lists of values, item by item, a proper prefix coming first. -/
def compareAll : List Value → List Value → Ordering
  | [], [] => .eq
  | [], _ :: _ => .lt
  | _ :: _, [] => .gt
  | a :: as, b :: bs => (compare a b).then (compareAll as bs)

end

instance : Ord Value := ⟨Value.compare⟩

/-! ## Equality -/

theorem compareBytes_eq_iff (as bs : List UInt8) : compareBytes as bs = .eq ↔ as = bs := by
  induction as generalizing bs with
  | nil => cases bs <;> simp [compareBytes]
  | cons a as ih =>
    cases bs with
    | nil => simp [compareBytes]
    | cons b bs =>
      simp [compareBytes, Ordering.then_eq_eq, ih, UInt8.toNat_inj]

theorem textBytes_inj {s t : String} : textBytes s = textBytes t ↔ s = t := by
  constructor
  · intro h
    have data : s.toByteArray.data = t.toByteArray.data := Array.toList_inj.1 h
    exact String.toByteArray_inj.1 (ByteArray.ext data)
  · rintro rfl
    rfl

mutual

theorem compare_eq_iff (a b : Value) : compare a b = .eq ↔ a = b := by
  cases a <;> cases b <;>
    simp [compare, rank, compareBytes_eq_iff, textBytes_inj, Int64.toInt_inj]
  case bool.bool a b => cases a <;> cases b <;> simp
  case list.list as bs => exact compareAll_eq_iff as bs

theorem compareAll_eq_iff (as bs : List Value) : compareAll as bs = .eq ↔ as = bs := by
  cases as with
  | nil => cases bs <;> simp [compareAll]
  | cons a as =>
    cases bs with
    | nil => simp [compareAll]
    | cons b bs =>
      simp [compareAll, Ordering.then_eq_eq, compare_eq_iff a b, compareAll_eq_iff as bs]

end

instance : DecidableEq Value := fun a b => decidable_of_iff _ (compare_eq_iff a b)

/-- One value comes before another. -/
def before (a b : Value) : Bool :=
  compare a b == .lt

/-- One value comes before another or is the same. -/
def atMost (a b : Value) : Bool :=
  compare a b != .gt

end Value
end PageTree
