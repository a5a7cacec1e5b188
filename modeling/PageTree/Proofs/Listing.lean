import PageTree.BTree.Entries
import PageTree.Proofs.ValueOrder

/-!
# Listings

A listing is what an ordered map means: the list of its entries in strictly increasing order of
their keys.  The operations are given here without any bisection; on a sorted list the
operations of a leaf agree with them (`Entries.update_eq`, `Entries.find?_eq`).  A change of a
key only touches the stretch of a listing where the key belongs (`update_between`), which is
what lets a tree pass a change down to one child.
-/

namespace PageTree
namespace Listing

/-- The entries with lesser keys. -/
def lesser (key : Value) (es : List Entry) : List Entry :=
  es.filter fun e => Value.compare e.1 key == .lt

/-- The entries with greater keys. -/
def greater (key : Value) (es : List Entry) : List Entry :=
  es.filter fun e => Value.compare e.1 key == .gt

/-- Inserts an entry at its place, instead of the one that has its key. -/
def put (key value : Value) (es : List Entry) : List Entry :=
  lesser key es ++ (key, value) :: greater key es

/-- Takes the entry of a key out. -/
def erase (key : Value) (es : List Entry) : List Entry :=
  lesser key es ++ greater key es

/-- Stores a value under a key, where `absent` stands for none. -/
def update (key value : Value) (es : List Entry) : List Entry :=
  if value.isDefined then put key value es else erase key es

/-- The value of a key. -/
def lookup (key : Value) (es : List Entry) : Option Value :=
  (es.find? fun e => e.1 = key).map Prod.snd

/-- The position of a key. -/
def indexOf? (key : Value) (es : List Entry) : Option Nat :=
  es.findIdx? fun e => e.1 = key

/-- The first entry with a greater key. -/
def next? (key : Value) (es : List Entry) : Option Entry :=
  (greater key es).head?

/-- The last entry with a lesser key. -/
def previous? (key : Value) (es : List Entry) : Option Entry :=
  (lesser key es).getLast?

end Listing

namespace Entries

open Listing

/-- The keys of all entries are less than a key. -/
def AllBelow (key : Value) (es : List Entry) : Prop :=
  ∀ e ∈ es, Value.compare e.1 key = .lt

/-- The keys of all entries are greater than a key. -/
def AllAbove (key : Value) (es : List Entry) : Prop :=
  ∀ e ∈ es, Value.compare e.1 key = .gt

/-! ## Sorted lists -/

theorem Sorted.nil : Sorted [] := List.Pairwise.nil

theorem sorted_append {as bs : List Entry} :
    Sorted (as ++ bs) ↔ Sorted as ∧ Sorted bs ∧
      ∀ a ∈ as, ∀ b ∈ bs, Value.compare a.1 b.1 = .lt :=
  List.pairwise_append

theorem sorted_cons {e : Entry} {es : List Entry} :
    Sorted (e :: es) ↔ (∀ a ∈ es, Value.compare e.1 a.1 = .lt) ∧ Sorted es :=
  List.pairwise_cons

theorem Sorted.sublist {as bs : List Entry} (hsorted : Sorted bs) (hsub : as.Sublist bs) :
    Sorted as :=
  List.Pairwise.sublist hsub hsorted

/-- A key cuts a sorted list: the entries in front are less, those behind are greater, and
between them is the entry of the key, if there is one. -/
theorem Sorted.cut {es : List Entry} (hsorted : Sorted es) (key : Value) :
    ∃ as mid cs, es = as ++ mid ++ cs ∧ AllBelow key as ∧ AllAbove key cs ∧
      (mid = [] ∨ ∃ value, mid = [(key, value)]) := by
  obtain ⟨as, mid, cs, rfl, has, hcs, hmid⟩ := Value.cut_of_pairwise Prod.fst hsorted key
  refine ⟨as, mid, cs, rfl, has, hcs, ?_⟩
  rcases hmid with rfl | ⟨⟨k, value⟩, rfl, rfl⟩
  · exact Or.inl rfl
  · exact Or.inr ⟨value, rfl⟩

/-! ## Changes within a stretch -/

@[simp] theorem lesser_append (key : Value) (as bs : List Entry) :
    lesser key (as ++ bs) = lesser key as ++ lesser key bs := by
  simp [lesser]

@[simp] theorem greater_append (key : Value) (as bs : List Entry) :
    greater key (as ++ bs) = greater key as ++ greater key bs := by
  simp [greater]

theorem AllBelow.lesser_eq {key : Value} {es : List Entry} (hall : AllBelow key es) :
    lesser key es = es :=
  List.filter_eq_self.2 fun e he => by simp [hall e he]

theorem AllBelow.greater_eq {key : Value} {es : List Entry} (hall : AllBelow key es) :
    greater key es = [] :=
  List.filter_eq_nil_iff.2 fun e he => by simp [hall e he]

theorem AllAbove.lesser_eq {key : Value} {es : List Entry} (hall : AllAbove key es) :
    lesser key es = [] :=
  List.filter_eq_nil_iff.2 fun e he => by simp [hall e he]

theorem AllAbove.greater_eq {key : Value} {es : List Entry} (hall : AllAbove key es) :
    greater key es = es :=
  List.filter_eq_self.2 fun e he => by simp [hall e he]

/-- A change of a key leaves alone what lies before and behind the stretch where the key
belongs. -/
theorem update_between {key value : Value} {as bs cs : List Entry} (has : AllBelow key as)
    (hcs : AllAbove key cs) :
    Listing.update key value (as ++ bs ++ cs) = as ++ Listing.update key value bs ++ cs := by
  unfold Listing.update
  split <;>
    simp [put, erase, has.lesser_eq, has.greater_eq, hcs.lesser_eq, hcs.greater_eq]

theorem AllBelow.ne {key : Value} {es : List Entry} (hall : AllBelow key es) :
    ∀ e ∈ es, e.1 ≠ key := by
  intro e he heq
  simpa [heq] using hall e he

theorem AllAbove.ne {key : Value} {es : List Entry} (hall : AllAbove key es) :
    ∀ e ∈ es, e.1 ≠ key := by
  intro e he heq
  simpa [heq] using hall e he

theorem lookup_between {key : Value} {as bs cs : List Entry} (has : AllBelow key as)
    (hcs : AllAbove key cs) : lookup key (as ++ bs ++ cs) = lookup key bs := by
  have hbefore : as.find? (fun e => decide (e.1 = key)) = none :=
    List.find?_eq_none.2 fun e he => by simpa using has.ne e he
  have hbehind : cs.find? (fun e => decide (e.1 = key)) = none :=
    List.find?_eq_none.2 fun e he => by simpa using hcs.ne e he
  simp [lookup, List.find?_append, hbefore, hbehind]

theorem indexOf_between {key : Value} {as bs cs : List Entry} (has : AllBelow key as)
    (hcs : AllAbove key cs) :
    Listing.indexOf? key (as ++ bs ++ cs) = (Listing.indexOf? key bs).map (as.length + ·) := by
  have hbefore : as.findIdx? (fun e => decide (e.1 = key)) = none :=
    List.findIdx?_eq_none_iff.2 fun e he => by simpa using has.ne e he
  have hbehind : cs.findIdx? (fun e => decide (e.1 = key)) = none :=
    List.findIdx?_eq_none_iff.2 fun e he => by simpa using hcs.ne e he
  simp [Listing.indexOf?, List.findIdx?_append, hbefore, hbehind, Nat.add_comm]

/-! ## Neighbours of a key -/

/-- The entry after a key is looked for part by part. -/
theorem next_flatten (key : Value) (parts : List (List Entry)) :
    Listing.next? key parts.flatten = parts.findSome? (Listing.next? key) := by
  rw [Listing.next?, greater, List.filter_flatten, List.head?_flatten, List.findSome?_map]
  rfl

/-- The entry before a key is looked for part by part, from the last one on. -/
theorem previous_flatten (key : Value) (parts : List (List Entry)) :
    Listing.previous? key parts.flatten = parts.reverse.findSome? (Listing.previous? key) := by
  rw [Listing.previous?, lesser, List.filter_flatten, List.getLast?_flatten, ← List.map_reverse,
    List.findSome?_map]
  rfl

/-- No entry of a stretch of lesser keys is after the key. -/
theorem next_append {key : Value} {as bs : List Entry} (has : AllBelow key as) :
    Listing.next? key (as ++ bs) = Listing.next? key bs := by
  rw [Listing.next?, greater_append, has.greater_eq, List.nil_append, Listing.next?]

/-- No entry of a stretch without lesser keys is before the key. -/
theorem previous_append {key : Value} {as bs : List Entry}
    (hbs : ∀ e ∈ bs, Value.compare e.1 key ≠ .lt) :
    Listing.previous? key (as ++ bs) = Listing.previous? key as := by
  have hnone : lesser key bs = [] :=
    List.filter_eq_nil_iff.2 fun e he => by simpa using hbs e he
  rw [Listing.previous?, lesser_append, hnone, List.append_nil, Listing.previous?]

/-- What is found after a change of a key. -/
theorem lookup_update (key value : Value) (es : List Entry) :
    lookup key (Listing.update key value es) = if value.isDefined then some value else none := by
  have hlesser : ∀ e ∈ lesser key es, ¬ e.1 = key := by
    intro e he heq
    simpa [heq] using (List.mem_filter.1 he).2
  have hgreater : ∀ e ∈ greater key es, ¬ e.1 = key := by
    intro e he heq
    simpa [heq] using (List.mem_filter.1 he).2
  have hbefore : (lesser key es).find? (fun e => decide (e.1 = key)) = none :=
    List.find?_eq_none.2 fun e he => by simpa using hlesser e he
  have hbehind : (greater key es).find? (fun e => decide (e.1 = key)) = none :=
    List.find?_eq_none.2 fun e he => by simpa using hgreater e he
  unfold Listing.update
  split <;> simp [lookup, put, erase, List.find?_append, hbefore, hbehind]

/-- A change that finds what it would store changes nothing, and no other change does so. -/
theorem update_eq_self_iff {key value : Value} {es : List Entry} (hsorted : Sorted es) :
    Listing.update key value es = es ↔
      lookup key es = if value.isDefined then some value else none := by
  constructor
  · intro heq
    rw [← lookup_update key value es, heq]
  · intro hlookup
    obtain ⟨as, mid, cs, rfl, has, hcs, hmid⟩ := hsorted.cut key
    rw [lookup_between has hcs] at hlookup
    rw [update_between has hcs]
    rcases hmid with rfl | ⟨stored, rfl⟩
    · cases hdefined : value.isDefined with
      | false => simp [Listing.update, erase, lesser, greater, hdefined]
      | true => simp [lookup, hdefined] at hlookup
    · cases hdefined : value.isDefined with
      | false => simp [lookup, hdefined] at hlookup
      | true =>
          obtain rfl : stored = value := by simpa [lookup, hdefined] using hlookup
          simp [Listing.update, put, lesser, greater, hdefined]

/-- The entries before a key are sorted with it. -/
theorem Sorted.update {key value : Value} {es : List Entry} (hsorted : Sorted es) :
    Sorted (Listing.update key value es) := by
  have hlesser : Sorted (lesser key es) := hsorted.sublist List.filter_sublist
  have hgreater : Sorted (greater key es) := hsorted.sublist List.filter_sublist
  have hlt : ∀ a ∈ lesser key es, Value.compare a.1 key = .lt := by
    intro a ha
    simpa using (List.mem_filter.1 ha).2
  have hgt : ∀ b ∈ greater key es, Value.compare key b.1 = .lt := by
    intro b hb
    exact Value.compare_gt_iff.1 (by simpa using (List.mem_filter.1 hb).2)
  unfold Listing.update
  split
  · refine sorted_append.2 ⟨hlesser, sorted_cons.2 ⟨hgt, hgreater⟩, ?_⟩
    intro a ha b hb
    rcases List.mem_cons.1 hb with rfl | hb
    · exact hlt a ha
    · exact Value.compare_lt_trans (hlt a ha) (hgt b hb)
  · exact sorted_append.2 ⟨hlesser, hgreater, fun a ha b hb =>
      Value.compare_lt_trans (hlt a ha) (hgt b hb)⟩

/-! ## The operations of a leaf -/

theorem insertIdx_length_append {α : Type} (as cs : List α) (b : α) :
    (as ++ cs).insertIdx as.length b = as ++ b :: cs := by
  induction as with
  | nil => rfl
  | cons a as ih => simp [ih]

theorem modify_length_append {α : Type} (as cs : List α) (b : α) (f : α → α) :
    (as ++ b :: cs).modify as.length f = as ++ f b :: cs := by
  induction as with
  | nil => rfl
  | cons a as ih => simp [ih]

/-- The bisection ends where the key cuts the list. -/
theorem place_of_cut {key : Value} {as mid cs : List Entry} (has : AllBelow key as)
    (hcs : AllAbove key cs) (hmid : mid = [] ∨ ∃ value, mid = [(key, value)]) :
    place (as ++ mid ++ cs) key =
      if mid = [] then .gap as.length else .found as.length := by
  rcases hmid with rfl | ⟨value, rfl⟩
  · simpa [place] using Bisection.search_gap as cs has hcs
  · simpa [place] using
      Bisection.search_found as (key, value) cs has (Value.compare_self key) hcs

theorem update_eq {es : List Entry} (hsorted : Sorted es) (key value : Value) :
    update key value es = Listing.update key value es := by
  obtain ⟨as, mid, cs, rfl, has, hcs, hmid⟩ := hsorted.cut key
  rw [update_between has hcs]
  unfold update
  rw [place_of_cut has hcs hmid]
  rcases hmid with rfl | ⟨old, rfl⟩
  · cases hdef : value.isDefined with
    | false => simp [Listing.update, erase, lesser, greater, hdef]
    | true => simp [Listing.update, put, lesser, greater, hdef, insertIdx_length_append]
  · cases hdef : value.isDefined with
    | false =>
        simp [Listing.update, erase, lesser, greater, hdef,
          List.eraseIdx_append_of_length_le (Nat.le_refl as.length)]
    | true => simp [Listing.update, put, lesser, greater, hdef, modify_length_append]

theorem find?_eq {es : List Entry} (hsorted : Sorted es) (key : Value) :
    find? es key = lookup key es := by
  obtain ⟨as, mid, cs, rfl, has, hcs, hmid⟩ := hsorted.cut key
  rw [lookup_between has hcs]
  unfold find? indexOf?
  rw [place_of_cut has hcs hmid]
  rcases hmid with rfl | ⟨old, rfl⟩
  · simp [lookup, Place.found?]
  · simp [lookup, Place.found?]

theorem indexOf?_eq {es : List Entry} (hsorted : Sorted es) (key : Value) :
    indexOf? es key = Listing.indexOf? key es := by
  obtain ⟨as, mid, cs, rfl, has, hcs, hmid⟩ := hsorted.cut key
  rw [indexOf_between has hcs]
  unfold indexOf?
  rw [place_of_cut has hcs hmid]
  rcases hmid with rfl | ⟨old, rfl⟩
  · simp [Listing.indexOf?, Place.found?]
  · simp [Listing.indexOf?, Place.found?]

theorem next?_eq {es : List Entry} (hsorted : Sorted es) (key : Value) :
    next? es key = Listing.next? key es := by
  obtain ⟨as, mid, cs, rfl, has, hcs, hmid⟩ := hsorted.cut key
  have hupTo : upTo (as ++ mid ++ cs) key = (as ++ mid).length := by
    apply Bisection.boundary_append
    · intro e he
      rcases List.mem_append.1 he with he | he
      · simp [has e he]
      · rcases hmid with rfl | ⟨value, rfl⟩
        · cases he
        · simp [List.mem_singleton.1 he]
    · intro e he
      simp [hcs e he]
  have hnone : greater key mid = [] := by
    rcases hmid with rfl | ⟨value, rfl⟩ <;> simp [greater]
  rw [next?, hupTo, List.getElem?_append_right (Nat.le_refl _), Nat.sub_self, Listing.next?,
    greater_append, greater_append, has.greater_eq, hnone, hcs.greater_eq]
  simp [List.head?_eq_getElem?]

theorem previous?_eq {es : List Entry} (hsorted : Sorted es) (key : Value) :
    previous? es key = Listing.previous? key es := by
  obtain ⟨as, mid, cs, rfl, has, hcs, hmid⟩ := hsorted.cut key
  have hrest : ∀ e ∈ mid ++ cs, Value.compare e.1 key ≠ .lt := by
    intro e he
    rcases List.mem_append.1 he with he | he
    · rcases hmid with rfl | ⟨value, rfl⟩
      · cases he
      · simp [List.mem_singleton.1 he]
    · simp [hcs e he]
  have hbelow : below (as ++ (mid ++ cs)) key = as.length := by
    apply Bisection.boundary_append
    · intro e he
      simp [has e he]
    · intro e he
      simpa using hrest e he
  rw [List.append_assoc, previous_append hrest, previous?, hbelow, List.take_left' rfl,
    Listing.previous?, has.lesser_eq]

end Entries
end PageTree
