import Mathlib.Data.List.Nodup
import PageTree.Proofs.Listing
import PageTree.Proofs.Tiles
import PageTree.QTree.Slots

/-!
# The slots of a plane map

A map of the plane means a list of slots with distinct keys, each at a point; the order of the
slots does not matter.  `Slots.change` is the effect of a change on such a list.  The operations
of a leaf, which keeps its slots in the order of their keys, have the same effect
(`Slots.update?_spec`), and a change only touches the stretch of the list that has the key
(`Slots.change_between`).
-/

namespace PageTree

/-- The coordinates of the point are some that a tile can hold. -/
def Point.Valid (p : Point) : Prop :=
  ∃ x y, x ≤ maxCoordinate ∧ y ≤ maxCoordinate ∧ p = ⟨.point x, .point y⟩

/-- The slot has the key and lies at the point. -/
def Slot.IsAt (slot : Slot) (key : Value) (point : Point) : Prop :=
  slot.key = key ∧ Point.ofSlot slot = point

instance (slot : Slot) (key : Value) (point : Point) : Decidable (slot.IsAt key point) :=
  inferInstanceAs (Decidable (_ ∧ _))

namespace Slots

variable {slots slots' as bs cs : List Slot} {key value : Value} {point : Point}

/-- The keys are distinct and the slots lie at points. -/
structure WellPlaced (slots : List Slot) : Prop where
  distinct : (slots.map Slot.key).Nodup
  valid : ∀ slot ∈ slots, (Point.ofSlot slot).Valid

namespace WellPlaced

theorem perm (hplaced : WellPlaced slots) (hperm : slots'.Perm slots) : WellPlaced slots' :=
  ⟨(hperm.map Slot.key).nodup_iff.2 hplaced.distinct,
    fun slot hslot => hplaced.valid slot (hperm.mem_iff.1 hslot)⟩

theorem sublist (hplaced : WellPlaced slots) (hsub : slots'.Sublist slots) : WellPlaced slots' :=
  ⟨hplaced.distinct.sublist (hsub.map Slot.key),
    fun slot hslot => hplaced.valid slot (hsub.subset hslot)⟩

/-- A key is that of one slot only. -/
theorem eq_of_key (hplaced : WellPlaced slots) {a b : Slot} (ha : a ∈ slots) (hb : b ∈ slots)
    (hkey : a.key = b.key) : a = b :=
  List.inj_on_of_nodup_map hplaced.distinct ha hb hkey

/-- A key that one stretch has is in no other. -/
theorem key_ne (hplaced : WellPlaced (as ++ bs)) {a b : Slot} (ha : a ∈ as) (hb : b ∈ bs) :
    a.key ≠ b.key := by
  have hdistinct := hplaced.distinct
  rw [List.map_append, List.nodup_append] at hdistinct
  exact hdistinct.2.2 _ (List.mem_map_of_mem ha) _ (List.mem_map_of_mem hb)

end WellPlaced

/-! ## Changes -/

/-- The slots after a value has been put at a key and a point, where `absent` takes away the slot
of the key at the point. -/
def change (key : Value) (point : Point) (value : Value) (slots : List Slot) : List Slot :=
  if value.isDefined then
    ⟨key, point.x, point.y, value⟩ :: slots.filter fun slot => slot.key ≠ key
  else slots.filter fun slot => ¬ slot.IsAt key point

theorem change_perm (hperm : slots.Perm slots') :
    (change key point value slots).Perm (change key point value slots') := by
  unfold change
  split
  · exact (hperm.filter _).cons _
  · exact hperm.filter _

theorem WellPlaced.change (hplaced : WellPlaced slots) (hvalid : point.Valid) :
    WellPlaced (change key point value slots) := by
  unfold Slots.change
  split
  · have hrest : WellPlaced (slots.filter fun slot => slot.key ≠ key) :=
      hplaced.sublist List.filter_sublist
    refine ⟨?_, ?_⟩
    · rw [List.map_cons, List.nodup_cons]
      refine ⟨?_, hrest.distinct⟩
      intro hmem
      obtain ⟨slot, hslot, hkey⟩ := List.mem_map.1 hmem
      simpa [hkey] using (List.mem_filter.1 hslot).2
    · intro slot hslot
      rcases List.mem_cons.1 hslot with rfl | hslot
      · exact hvalid
      · exact hrest.valid slot hslot
  · exact hplaced.sublist List.filter_sublist

/-- A change leaves alone what lies before and behind the stretch that has the key. -/
theorem change_between (has : ∀ slot ∈ as, slot.key ≠ key) (hcs : ∀ slot ∈ cs, slot.key ≠ key) :
    (change key point value (as ++ bs ++ cs)).Perm (as ++ change key point value bs ++ cs) := by
  unfold change
  split
  · have hbefore : as.filter (fun slot => slot.key ≠ key) = as :=
      List.filter_eq_self.2 fun slot hslot => by simpa using has slot hslot
    have hbehind : cs.filter (fun slot => slot.key ≠ key) = cs :=
      List.filter_eq_self.2 fun slot hslot => by simpa using hcs slot hslot
    rw [List.filter_append, List.filter_append, hbefore, hbehind]
    rw [List.append_assoc, List.append_assoc, List.cons_append]
    exact List.perm_middle.symm
  · have hbefore : as.filter (fun slot => ¬ slot.IsAt key point) = as :=
      List.filter_eq_self.2 fun slot hslot => by simp [Slot.IsAt, has slot hslot]
    have hbehind : cs.filter (fun slot => ¬ slot.IsAt key point) = cs :=
      List.filter_eq_self.2 fun slot hslot => by simp [Slot.IsAt, hcs slot hslot]
    rw [List.filter_append, List.filter_append, hbefore, hbehind]

/-! ## Leaves -/

/-- The keys increase. -/
def Sorted (slots : List Slot) : Prop :=
  slots.Pairwise fun a b => Value.compare a.key b.key = .lt

theorem sorted_nil : Sorted [] := List.Pairwise.nil

theorem sorted_append : Sorted (as ++ bs) ↔ Sorted as ∧ Sorted bs ∧
    ∀ a ∈ as, ∀ b ∈ bs, Value.compare a.key b.key = .lt :=
  List.pairwise_append

theorem sorted_cons {slot : Slot} : Sorted (slot :: slots) ↔
    (∀ a ∈ slots, Value.compare slot.key a.key = .lt) ∧ Sorted slots :=
  List.pairwise_cons

theorem Sorted.sublist (hsorted : Sorted slots) (hsub : slots'.Sublist slots) : Sorted slots' :=
  List.Pairwise.sublist hsub hsorted

/-- Sorting slots of distinct keys makes the keys increase. -/
theorem sorted_sort (hdistinct : (slots.map Slot.key).Nodup) : Sorted (sort slots) := by
  have hperm : (sort slots).Perm slots := List.mergeSort_perm slots _
  have hweak : (sort slots).Pairwise fun a b => a.key.atMost b.key = true := by
    refine List.pairwise_mergeSort (fun a b c hab hbc => ?_) (fun a b => ?_) slots
    · simp only [Value.atMost, bne_iff_ne] at hab hbc ⊢
      rcases Value.compare_ne_gt_iff.1 hab with hlt | heq
      · rw [Value.compare_lt_of_lt_of_ne_gt hlt hbc]
        decide
      · rwa [heq]
    · simp only [Value.atMost, Bool.or_eq_true, bne_iff_ne]
      by_cases hgt : Value.compare a.key b.key = .gt
      · right
        rw [Value.compare_gt_iff.1 hgt]
        decide
      · exact Or.inl hgt
  have hne : (sort slots).Pairwise fun a b => a.key ≠ b.key :=
    List.pairwise_map.1 ((hperm.map Slot.key).nodup_iff.2 hdistinct)
  refine (hweak.and hne).imp ?_
  rintro a b ⟨hle, hkey⟩
  simp only [Value.atMost, bne_iff_ne] at hle
  rcases Value.compare_ne_gt_iff.1 hle with hlt | heq
  · exact hlt
  · exact absurd heq hkey

/-- A key cuts a leaf, and there the bisection ends: at the slot of the key or else at the gap
where it belongs. -/
theorem Sorted.cut (hsorted : Sorted slots) (key : Value) :
    ∃ as cs, (∀ a ∈ as, Value.compare a.key key = .lt) ∧
      (∀ c ∈ cs, Value.compare c.key key = .gt) ∧
      (slots = as ++ cs ∧ place slots key = .gap as.length ∨
        ∃ slot, slot.key = key ∧ slots = as ++ slot :: cs ∧
          place slots key = .found as.length) := by
  obtain ⟨as, mid, cs, rfl, has, hcs, hmid⟩ := Value.cut_of_pairwise Slot.key hsorted key
  refine ⟨as, cs, has, hcs, ?_⟩
  rcases hmid with rfl | ⟨slot, rfl, rfl⟩
  · refine Or.inl ⟨by rw [List.append_nil], ?_⟩
    simpa [place] using Bisection.search_gap as cs has hcs
  · refine Or.inr ⟨slot, rfl, by simp, ?_⟩
    simpa [place] using Bisection.search_found as slot cs has (Value.compare_self slot.key) hcs

theorem ne_of_lt (has : ∀ a ∈ as, Value.compare a.key key = .lt) : ∀ a ∈ as, a.key ≠ key := by
  rintro a ha rfl
  exact Value.compare_lt_irrefl _ (has a ha)

theorem ne_of_gt (hcs : ∀ c ∈ cs, Value.compare c.key key = .gt) : ∀ c ∈ cs, c.key ≠ key := by
  rintro c hc rfl
  exact Value.compare_lt_irrefl _ (Value.compare_gt_iff.1 (hcs c hc))

/-- Between lesser and greater slots there is room for the slot of a key. -/
theorem sorted_insert (has : Sorted as) (hcs : Sorted cs)
    (hbelow : ∀ a ∈ as, Value.compare a.key key = .lt)
    (habove : ∀ c ∈ cs, Value.compare c.key key = .gt) {slot : Slot} (hkey : slot.key = key) :
    Sorted (as ++ slot :: cs) := by
  have hgt : ∀ c ∈ cs, Value.compare key c.key = .lt := fun c hc =>
    Value.compare_gt_iff.1 (habove c hc)
  refine sorted_append.2 ⟨has, sorted_cons.2 ⟨by rwa [hkey], hcs⟩, ?_⟩
  intro a ha c hc
  rcases List.mem_cons.1 hc with rfl | hc
  · rw [hkey]
    exact hbelow a ha
  · exact Value.compare_lt_trans (hbelow a ha) (hgt c hc)

/-- A look-up in a leaf finds the slot of the key. -/
theorem find?_eq_some_iff (hsorted : Sorted slots) (key : Value) (slot : Slot) :
    find? slots key = some slot ↔ slot ∈ slots ∧ slot.key = key := by
  obtain ⟨as, cs, has, hcs, ⟨rfl, hplace⟩ | ⟨stored, hkey, rfl, hplace⟩⟩ := hsorted.cut key
  · have hnone : find? (as ++ cs) key = none := by
      simp [find?, hplace, Place.found?]
    rw [hnone, List.mem_append]
    constructor
    · intro habsurd
      cases habsurd
    · rintro ⟨hmem | hmem, hkey⟩
      · exact absurd hkey (ne_of_lt has slot hmem)
      · exact absurd hkey (ne_of_gt hcs slot hmem)
  · have hfound : find? (as ++ stored :: cs) key = some stored := by
      simp [find?, hplace, Place.found?]
    rw [hfound, Option.some.injEq, List.mem_append, List.mem_cons]
    constructor
    · rintro rfl
      exact ⟨Or.inr (Or.inl rfl), hkey⟩
    · rintro ⟨hmem | rfl | hmem, hkey'⟩
      · exact absurd hkey' (ne_of_lt has slot hmem)
      · rfl
      · exact absurd hkey' (ne_of_gt hcs slot hmem)

/-- What may come of a change to a leaf: slots in the order of their keys with the effect of the
change, or none if the change has no effect. -/
def Updates (key : Value) (point : Point) (value : Value) (slots : List Slot) :
    Option (List Slot) → Prop
  | some slots' => Sorted slots' ∧ slots'.Perm (change key point value slots)
  | none => slots.Perm (change key point value slots)

/-- Where the key has no slot, a value is put into the gap. -/
theorem updates_gap (hsorted : Sorted (as ++ cs)) (has : ∀ a ∈ as, Value.compare a.key key = .lt)
    (hcs : ∀ c ∈ cs, Value.compare c.key key = .gt)
    (hplace : place (as ++ cs) key = .gap as.length) :
    Updates key point value (as ++ cs) (update? key point value (as ++ cs)) := by
  obtain ⟨hfirst, hlast, -⟩ := sorted_append.1 hsorted
  have hbetween : (change key point value (as ++ [] ++ cs)).Perm
      (as ++ change key point value [] ++ cs) :=
    change_between (ne_of_lt has) (ne_of_gt hcs)
  rw [List.append_nil] at hbetween
  cases hdefined : value.isDefined with
  | true =>
      have hupdate : update? key point value (as ++ cs) =
          some (as ++ ⟨key, point.x, point.y, value⟩ :: cs) := by
        simp [update?, hplace, hdefined, Entries.insertIdx_length_append]
      rw [hupdate]
      refine ⟨sorted_insert hfirst hlast has hcs rfl, ?_⟩
      simpa [change, hdefined] using hbetween.symm
  | false =>
      have hupdate : update? key point value (as ++ cs) = none := by
        simp [update?, hplace, hdefined]
      rw [hupdate]
      simpa [Updates, change, hdefined] using hbetween.symm

/-- The slot of the key gives way to another, goes if it lies at the point, or stays. -/
theorem updates_found {stored : Slot} (hsorted : Sorted (as ++ stored :: cs))
    (has : ∀ a ∈ as, Value.compare a.key key = .lt)
    (hcs : ∀ c ∈ cs, Value.compare c.key key = .gt) (hkey : stored.key = key)
    (hplace : place (as ++ stored :: cs) key = .found as.length) :
    Updates key point value (as ++ stored :: cs)
      (update? key point value (as ++ stored :: cs)) := by
  obtain ⟨hfirst, hrest, -⟩ := sorted_append.1 hsorted
  obtain ⟨-, hlast⟩ := sorted_cons.1 hrest
  have hbetween : (change key point value (as ++ [stored] ++ cs)).Perm
      (as ++ change key point value [stored] ++ cs) :=
    change_between (ne_of_lt has) (ne_of_gt hcs)
  rw [List.append_assoc, List.singleton_append] at hbetween
  have hindex : (as ++ stored :: cs)[as.length]? = some stored := by simp
  cases hdefined : value.isDefined with
  | true =>
      have hput : (change key point value (as ++ stored :: cs)).Perm
          (as ++ ⟨key, point.x, point.y, value⟩ :: cs) := by
        simpa [change, hdefined, hkey] using hbetween
      by_cases hsame : stored = ⟨key, point.x, point.y, value⟩
      · have hupdate : update? key point value (as ++ stored :: cs) = none := by
          simp only [update?, hplace, hdefined, hindex, if_true]
          exact if_pos (congrArg some hsame)
        rw [hupdate]
        rw [← hsame] at hput
        exact hput.symm
      · have hupdate : update? key point value (as ++ stored :: cs) =
            some (as ++ ⟨key, point.x, point.y, value⟩ :: cs) := by
          simp [update?, hplace, hdefined, hsame]
        rw [hupdate]
        exact ⟨sorted_insert hfirst hlast has hcs rfl, hput.symm⟩
  | false =>
      by_cases hthere : Point.ofSlot stored = point
      · have hupdate : update? key point value (as ++ stored :: cs) = some (as ++ cs) := by
          simp [update?, hplace, hdefined, hthere,
            List.eraseIdx_append_of_length_le (Nat.le_refl as.length)]
        rw [hupdate]
        refine ⟨hsorted.sublist (List.Sublist.append_left (List.sublist_cons_self _ _) as), ?_⟩
        simpa [change, hdefined, Slot.IsAt, hkey, hthere] using hbetween.symm
      · have hupdate : update? key point value (as ++ stored :: cs) = none := by
          simp [update?, hplace, hdefined, hthere]
        rw [hupdate]
        simpa [Updates, change, hdefined, Slot.IsAt, hkey, hthere] using hbetween.symm

/-- A change of a leaf keeps the order of its keys and has the effect of a change, and where the
leaf stays as it is the change has none. -/
theorem update?_spec (hsorted : Sorted slots) (key : Value) (point : Point) (value : Value) :
    Updates key point value slots (update? key point value slots) := by
  obtain ⟨as, cs, has, hcs, ⟨rfl, hplace⟩ | ⟨stored, hkey, rfl, hplace⟩⟩ := hsorted.cut key
  · exact updates_gap hsorted has hcs hplace
  · exact updates_found hsorted has hcs hkey hplace

end Slots
end PageTree
