import Mathlib.Algebra.Ring.Nat
import PageTree.Value.Order

/-!
# The order of values

Both trees keep their keys in the order of `Value.compare` and search them by bisection, which
needs the laws of a total order.  They are proved along the structure of values: swapping the
operands swaps the outcome (`Value.compare_swap`), and the order is transitive
(`Value.compare_lt_trans`).

How two values compare is settled by their kinds, and within a kind by their contents: numbers by
size, and texts, data and lists from the front, by the first place where they differ
(`Value.compare_list_lt_iff`).  With the laws of a total order this says all there is to say about
the order that keys are kept in (`Value.order_lawful`).
-/

namespace PageTree
namespace Value

/-! ## Outcomes of a comparison -/

/-- A chain of comparisons is less where the first one that decides is less. -/
theorem then_eq_lt_iff {a b : Ordering} :
    a.then b = .lt ↔ a = .lt ∨ a = .eq ∧ b = .lt := by
  cases a <;> simp [Ordering.then]

theorem natCompare_lt_trans {a b c : Nat} (hab : Ord.compare a b = .lt)
    (hbc : Ord.compare b c = .lt) : Ord.compare a c = .lt := by
  rw [Nat.compare_eq_lt] at *
  omega

theorem intCompare_lt_trans {a b c : Int} (hab : Ord.compare a b = .lt)
    (hbc : Ord.compare b c = .lt) : Ord.compare a c = .lt := by
  rw [Std.compare_eq_lt] at *
  omega

/-! ## Bytes -/

theorem compareBytes_swap (as bs : List UInt8) :
    (compareBytes as bs).swap = compareBytes bs as := by
  induction as generalizing bs with
  | nil => cases bs <;> rfl
  | cons a as ih =>
      cases bs with
      | nil => rfl
      | cons b bs =>
          rw [compareBytes, compareBytes, Ordering.swap_then, ih, Nat.compare_swap]

theorem compareBytes_lt_trans {as bs cs : List UInt8} (hab : compareBytes as bs = .lt)
    (hbc : compareBytes bs cs = .lt) : compareBytes as cs = .lt := by
  induction as generalizing bs cs with
  | nil =>
      cases cs with
      | nil => cases bs <;> simp [compareBytes] at hab hbc
      | cons c cs => rfl
  | cons a as ih =>
      cases bs with
      | nil => simp [compareBytes] at hab
      | cons b bs =>
          cases cs with
          | nil => simp [compareBytes] at hbc
          | cons c cs =>
              rw [compareBytes, then_eq_lt_iff] at *
              rcases hab with hab | ⟨hab, hrest⟩
              · rcases hbc with hbc | ⟨hbc, -⟩
                · exact Or.inl (natCompare_lt_trans hab hbc)
                · rw [Nat.compare_eq_eq] at hbc
                  exact Or.inl (hbc ▸ hab)
              · rw [Nat.compare_eq_eq] at hab
                rcases hbc with hbc | ⟨hbc, hrest'⟩
                · exact Or.inl (hab ▸ hbc)
                · exact Or.inr ⟨hab ▸ hbc, ih hrest hrest'⟩

/-! ## Values -/

mutual

/-- Swapping two values swaps how they compare. -/
theorem compare_swap (a b : Value) : (compare a b).swap = compare b a := by
  cases a <;> cases b <;>
    first
      | exact Nat.compare_swap _ _
      | exact Std.OrientedOrd.eq_swap.symm
      | exact compareBytes_swap _ _
      | exact compareAll_swap _ _

theorem compareAll_swap (as bs : List Value) :
    (compareAll as bs).swap = compareAll bs as := by
  cases as with
  | nil => cases bs <;> rfl
  | cons a as =>
      cases bs with
      | nil => rfl
      | cons b bs =>
          rw [compareAll, compareAll, Ordering.swap_then, compare_swap a b,
            compareAll_swap as bs]

end

/-- Values of different kinds compare by the ranks of their kinds. -/
theorem compare_of_rank_ne {a b : Value} (hne : a.rank ≠ b.rank) :
    compare a b = Ord.compare a.rank b.rank := by
  cases a <;> cases b <;> first | rfl | exact absurd rfl hne

theorem rank_le_of_compare_lt {a b : Value} (hlt : compare a b = .lt) : a.rank ≤ b.rank := by
  by_cases hrank : a.rank = b.rank
  · exact Nat.le_of_eq hrank
  · rw [compare_of_rank_ne hrank, Nat.compare_eq_lt] at hlt
    exact Nat.le_of_lt hlt

mutual

/-- The order of values is transitive. -/
theorem compare_lt_trans {a b c : Value} (hab : compare a b = .lt) (hbc : compare b c = .lt) :
    compare a c = .lt := by
  by_cases hrank : a.rank = c.rank
  · -- all three values are of one kind, and their contents are compared
    have hab' := rank_le_of_compare_lt hab
    have hbc' := rank_le_of_compare_lt hbc
    cases a <;> cases c <;> cases b <;> simp only [rank] at hrank hab' hbc' <;>
      first
        | omega
        | exact natCompare_lt_trans hab hbc
        | exact intCompare_lt_trans hab hbc
        | exact compareBytes_lt_trans hab hbc
        | exact compareAll_lt_trans hab hbc
  · rw [compare_of_rank_ne hrank, Nat.compare_eq_lt]
    have hab' := rank_le_of_compare_lt hab
    have hbc' := rank_le_of_compare_lt hbc
    omega

theorem compareAll_lt_trans {as bs cs : List Value} (hab : compareAll as bs = .lt)
    (hbc : compareAll bs cs = .lt) : compareAll as cs = .lt := by
  cases as with
  | nil =>
      cases cs with
      | nil => cases bs <;> simp [compareAll] at hab hbc
      | cons c cs => rfl
  | cons a as =>
      cases bs with
      | nil => simp [compareAll] at hab
      | cons b bs =>
          cases cs with
          | nil => simp [compareAll] at hbc
          | cons c cs =>
              rw [compareAll, then_eq_lt_iff] at *
              rcases hab with hab | ⟨hab, hrest⟩
              · rcases hbc with hbc | ⟨hbc, -⟩
                · exact Or.inl (compare_lt_trans hab hbc)
                · rw [compare_eq_iff] at hbc
                  exact Or.inl (hbc ▸ hab)
              · rw [compare_eq_iff] at hab
                rcases hbc with hbc | ⟨hbc, hrest'⟩
                · exact Or.inl (hab ▸ hbc)
                · exact Or.inr ⟨hab ▸ hbc, compareAll_lt_trans hrest hrest'⟩

end

/-! ## The laws by name -/

@[simp] theorem compare_self (a : Value) : compare a a = .eq :=
  (compare_eq_iff a a).2 rfl

/-- One value is greater than another where the other is less. -/
theorem compare_gt_iff {a b : Value} : compare a b = .gt ↔ compare b a = .lt := by
  rw [← compare_swap a b]
  cases compare a b <;> simp

theorem compare_lt_irrefl (a : Value) : compare a a ≠ .lt := by
  simp

/-- A value that is not greater than another is less or the same. -/
theorem compare_ne_gt_iff {a b : Value} : compare a b ≠ .gt ↔ compare a b = .lt ∨ a = b := by
  rw [← compare_eq_iff]
  cases compare a b <;> simp

theorem compare_lt_of_lt_of_ne_gt {a b c : Value} (hab : compare a b = .lt)
    (hbc : compare b c ≠ .gt) : compare a c = .lt := by
  rcases compare_ne_gt_iff.1 hbc with hbc | rfl
  · exact compare_lt_trans hab hbc
  · exact hab

theorem compare_lt_of_ne_gt_of_lt {a b c : Value} (hab : compare a b ≠ .gt)
    (hbc : compare b c = .lt) : compare a c = .lt := by
  rcases compare_ne_gt_iff.1 hab with hab | rfl
  · exact compare_lt_trans hab hbc
  · exact hbc

/-! ## Lists in the order of keys -/

variable {α : Type}

/-- A key cuts a list in the order of its keys: what lies in front is less, what lies behind is
greater, and between them is the item of the key, if there is one. -/
theorem cut_of_pairwise (keyOf : α → Value) {l : List α}
    (hsorted : l.Pairwise fun a b => compare (keyOf a) (keyOf b) = .lt) (key : Value) :
    ∃ as mid cs, l = as ++ mid ++ cs ∧ (∀ a ∈ as, compare (keyOf a) key = .lt) ∧
      (∀ c ∈ cs, compare (keyOf c) key = .gt) ∧ (mid = [] ∨ ∃ b, keyOf b = key ∧ mid = [b]) := by
  induction l with
  | nil => exact ⟨[], [], [], rfl, by simp, by simp, Or.inl rfl⟩
  | cons a l ih =>
      obtain ⟨hfirst, hrest⟩ := List.pairwise_cons.1 hsorted
      cases horder : compare (keyOf a) key with
      | lt =>
          obtain ⟨as, mid, cs, rfl, has, hcs, hmid⟩ := ih hrest
          refine ⟨a :: as, mid, cs, rfl, ?_, hcs, hmid⟩
          intro b hb
          rcases List.mem_cons.1 hb with rfl | hb
          · exact horder
          · exact has b hb
      | eq =>
          have hkey : keyOf a = key := (compare_eq_iff _ _).1 horder
          refine ⟨[], [a], l, rfl, by simp, ?_, Or.inr ⟨a, hkey, rfl⟩⟩
          intro b hb
          exact compare_gt_iff.2 (hkey ▸ hfirst b hb)
      | gt =>
          refine ⟨[], [], a :: l, rfl, by simp, ?_, Or.inl rfl⟩
          intro b hb
          rcases List.mem_cons.1 hb with rfl | hb
          · exact horder
          · exact compare_gt_iff.2 (compare_lt_trans (compare_gt_iff.1 horder) (hfirst b hb))

/-! ## The laws as instances -/

theorem compare_ne_gt_trans {a b c : Value} (hab : compare a b ≠ .gt) (hbc : compare b c ≠ .gt) :
    compare a c ≠ .gt := by
  rcases compare_ne_gt_iff.1 hab with hlt | rfl
  · exact compare_ne_gt_iff.2 (Or.inl (compare_lt_of_lt_of_ne_gt hlt hbc))
  · exact hbc

instance : Std.TransCmp compare where
  eq_swap {a b} := (compare_swap b a).symm
  isLE_trans hab hbc := Ordering.isLE_iff_ne_gt.2
    (compare_ne_gt_trans (Ordering.isLE_iff_ne_gt.1 hab) (Ordering.isLE_iff_ne_gt.1 hbc))

instance : Std.LawfulEqCmp compare where
  compare_self := compare_self _
  eq_of_compare heq := (compare_eq_iff _ _).1 heq

/-! ## Contents from the front -/

/-- A sequence that goes on comes behind the one that ends. -/
theorem lex_append {α : Type} {r : α → α → Prop} (as : List α) {bs : List α} (hne : bs ≠ []) :
    List.Lex r as (as ++ bs) := by
  induction as with
  | nil =>
      obtain ⟨b, bs, rfl⟩ := List.exists_cons_of_ne_nil hne
      exact .nil
  | cons a as ih => exact .cons ih

/-- Bytes are less where they are in lexicographic order. -/
theorem compareBytes_lt_iff (as bs : List UInt8) : compareBytes as bs = .lt ↔ as < bs := by
  induction as generalizing bs with
  | nil => cases bs <;> simp [compareBytes]
  | cons a as ih =>
      cases bs with
      | nil => simp [compareBytes]
      | cons b bs =>
          rw [compareBytes, then_eq_lt_iff, Nat.compare_eq_lt, Nat.compare_eq_eq, ih,
            List.cons_lt_cons_iff, UInt8.lt_iff_toNat_lt, UInt8.toNat_inj]

/-- Lists are less where their items are in lexicographic order. -/
theorem compareAll_lt_iff (as bs : List Value) :
    compareAll as bs = .lt ↔ List.Lex (fun a b => compare a b = .lt) as bs := by
  induction as generalizing bs with
  | nil =>
      cases bs with
      | nil => simp [compareAll]
      | cons b bs => exact iff_of_true rfl .nil
  | cons a as ih =>
      cases bs with
      | nil => simp [compareAll]
      | cons b bs =>
          rw [compareAll, then_eq_lt_iff, compare_eq_iff, ih, List.cons_lex_cons_iff]

/-- The bytes of a text are those of its characters in turn. -/
theorem textBytes_eq (s : String) : textBytes s = s.toList.flatMap String.utf8EncodeChar := by
  have hbytes : s.toByteArray = s.toList.utf8Encode := by
    rw [← String.toByteArray_ofList, String.ofList_toList]
  rw [textBytes, hbytes, List.utf8Encode, List.data_toByteArray]

/-! ## Kinds and contents -/

/-- Values of different kinds are in the order of their kinds. -/
theorem compare_lt_of_rank_lt {a b : Value} (hlt : a.rank < b.rank) : compare a b = .lt := by
  rw [compare_of_rank_ne (Nat.ne_of_lt hlt), Nat.compare_eq_lt]
  exact hlt

theorem compare_bool_lt_iff (a b : Bool) : compare (.bool a) (.bool b) = .lt ↔ a < b := by
  cases a <;> cases b <;> decide

theorem compare_int_lt_iff (a b : Int64) : compare (.int a) (.int b) = .lt ↔ a.toInt < b.toInt :=
  Std.compare_eq_lt

theorem compare_text_lt_iff (s t : String) :
    compare (.text s) (.text t) = .lt ↔
      s.toList.flatMap String.utf8EncodeChar < t.toList.flatMap String.utf8EncodeChar := by
  rw [compare, compareBytes_lt_iff, textBytes_eq, textBytes_eq]

theorem compare_data_lt_iff (as bs : List UInt8) :
    compare (.data as) (.data bs) = .lt ↔ as < bs :=
  compareBytes_lt_iff as bs

theorem compare_list_lt_iff (as bs : List Value) :
    compare (.list as) (.list bs) = .lt ↔ List.Lex (fun a b => compare a b = .lt) as bs :=
  compareAll_lt_iff as bs

/-! ## The order -/

/-- The order of values is a total order: values compare equal only if they are the same, swapping
them swaps how they compare, and it is transitive.  Kinds come one after another, whatever the
values of a kind hold.  Within a kind, booleans and integers are in the order of numbers, texts in
that of their bytes in UTF-8, data in that of bytes and lists in that of their items, from the front
on, what goes on coming behind what ends. -/
theorem order_lawful :
    (∀ a b, compare a b = .eq ↔ a = b) ∧
    (∀ a b, compare b a = (compare a b).swap) ∧
    (∀ a b c, compare a b = .lt → compare b c = .lt → compare a c = .lt) ∧
    (∀ a b c, compare a b ≠ .gt → compare b c ≠ .gt → compare a c ≠ .gt) ∧
    (∀ b n s bytes items, [absent, bool b, int n, text s, data bytes, list items].Pairwise
      fun v w => compare v w = .lt) ∧
    (∀ a b, compare (bool a) (bool b) = .lt ↔ a < b) ∧
    (∀ a b, compare (int a) (int b) = .lt ↔ a.toInt < b.toInt) ∧
    (∀ s t, compare (text s) (text t) = .lt ↔
      s.toList.flatMap String.utf8EncodeChar < t.toList.flatMap String.utf8EncodeChar) ∧
    (∀ as bs, compare (data as) (data bs) = .lt ↔ as < bs) ∧
    (∀ as bs, compare (list as) (list bs) = .lt ↔
      List.Lex (fun a b => compare a b = .lt) as bs) ∧
    (∀ as bs, bs ≠ [] → compare (data as) (data (as ++ bs)) = .lt) ∧
    (∀ as bs, bs ≠ [] → compare (list as) (list (as ++ bs)) = .lt) ∧
    ∀ s t, t ≠ "" → compare (text s) (text (s ++ t)) = .lt := by
  refine ⟨fun _ _ => Std.LawfulEqCmp.compare_eq_iff_eq, fun _ _ => Std.OrientedCmp.eq_swap,
    fun _ _ _ => Std.TransCmp.lt_trans, fun _ _ _ => compare_ne_gt_trans, ?_, compare_bool_lt_iff,
    compare_int_lt_iff, compare_text_lt_iff, compare_data_lt_iff, compare_list_lt_iff, ?_, ?_, ?_⟩
  · intro b n s bytes items
    exact List.Pairwise.imp compare_lt_of_rank_lt (by simp [rank])
  · intro as bs hne
    exact (compare_data_lt_iff _ _).2 (lex_append as hne)
  · intro as bs hne
    exact (compare_list_lt_iff _ _).2 (lex_append as hne)
  · intro s t hne
    rw [compare_text_lt_iff, String.toList_append, List.flatMap_append]
    refine lex_append _ ?_
    obtain ⟨c, cs, hcs⟩ := List.exists_cons_of_ne_nil fun h => hne (String.toList_eq_nil_iff.1 h)
    have hsize := String.length_utf8EncodeChar c
    intro hnil
    rw [hcs, List.flatMap_cons, List.append_eq_nil_iff] at hnil
    rw [hnil.1] at hsize
    exact absurd hsize (Nat.ne_of_lt c.utf8Size_pos)

end Value
end PageTree
