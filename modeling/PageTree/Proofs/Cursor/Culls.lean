import PageTree.Proofs.Cursor.Walk

/-!
# Positions of what a cursor yields

A policy may pass over whole subtrees and single entries, but what it passes over still counts: the
position behind an item is the number of entries of all stretches up to it
(`Cursor.Stands.marks_moves`).  So if the stretches of a tree stand for a list of items of which
some are yielded (`Stretch.Culls`), then the position behind each item that is yielded is one more
than its index in that list (`Cursor.Stands.track_moves`).
-/

namespace PageTree

variable {ι : Type}

/-! ## Marks -/

namespace Stretch

/-- What stretches yield, each item with the number of entries up to the end of its stretch. -/
def marks (start : Nat) : List (Stretch ι) → List (ι × Nat)
  | [] => []
  | ⟨n, item?⟩ :: l => (item?.map fun item => (item, start + n)).toList ++ marks (start + n) l

variable {l : List (Stretch ι)}

theorem marks_append (start : Nat) (l l' : List (Stretch ι)) :
    marks start (l ++ l') = marks start l ++ marks (start + total l) l' := by
  induction l generalizing start with
  | nil => rfl
  | cons x l ih =>
      rw [List.cons_append, marks, marks, ih, total_cons, Nat.add_assoc, List.append_assoc]

theorem Silent.marks (hsilent : Silent l) (start : Nat) : marks start l = [] := by
  induction l generalizing start with
  | nil => rfl
  | cons x l ih =>
      obtain ⟨n, item?⟩ := x
      obtain rfl : item? = none := hsilent _ List.mem_cons_self
      exact ih (fun y hy => hsilent y (List.mem_cons_of_mem _ hy)) _

end Stretch

/-- Takes up to so many items one after another, each with the position behind it. -/
def CursorM.track : (count : Nat) → CursorM ι (List (ι × Nat))
  | 0 => return []
  | count + 1 => do
    match ← next with
    | none => return []
    | some item => do
      let index := (← get).nextIndex
      return (item, index) :: (← track count)

namespace Cursor

variable {s : Store} {c : Chart} {scheme : Scheme ι} {r : PageRef} {k : Cursor ι}
  {before after : List (Stretch ι)}

/-- A cursor yields what is marked, each item with its mark. -/
theorem Stands.marks_moves (hrep : Represents s c) (hstands : k.Stands c scheme r before after)
    (count : Nat) :
    Moves (CursorM.track count) k s c
      (fun tracked _ _ => tracked = (Stretch.marks k.position after).take count)
      (fun _ _ => True) := by
  -- what is left to yield after an item is marked from the position that has been reached
  induction count generalizing k s c before after with
  | zero => exact Moves.pure hrep List.take_zero.symm
  | succ count ih =>
      refine ((hstands.advance_moves hrep .forward).mono (fun _ _ _ _ _ hpost => hpost)
        fun _ _ _ _ _ => trivial).bind ?_
      rintro (_ | item) k' s' c' hgrows harrives
      · have hsilent : Stretch.Silent after := harrives.1
        refine Moves.pure hgrows.represents ?_
        rw [hsilent.marks, List.take_nil]
      · obtain ⟨xs, n, hsilent, before', after', ⟨rfl, rfl⟩, hstands'⟩ := harrives
        have hposition : k'.position = k.position + Stretch.total xs + n := by
          rw [hstands'.position, hstands.position]
          simp [Nat.add_assoc]
        refine Moves.get ((ih hgrows.represents hstands').bind ?_)
        rintro _ k'' s'' c'' hgrows' rfl
        refine Moves.pure hgrows'.represents ?_
        rw [List.append_assoc, Stretch.marks_append, hsilent.marks]
        simp [Stretch.marks, nextIndex, hposition]

end Cursor

/-! ## Items that are kept -/

/-- Stretches that stand for items: those that are kept are yielded one at a time, and the others
are passed over, any number of neighbours at once. -/
inductive Stretch.Culls (keep : ι → Bool) : List (Stretch ι) → List ι → Prop where
  | nil : Culls keep [] []
  | pass {l rest} (passed : List ι) (dropped : ∀ item ∈ passed, keep item = false)
      (culls : Culls keep l rest) : Culls keep (⟨passed.length, none⟩ :: l) (passed ++ rest)
  | yield {l rest} (item : ι) (kept : keep item = true) (culls : Culls keep l rest) :
      Culls keep (single item :: l) (item :: rest)

namespace Stretch.Culls

variable {keep : ι → Bool} {l l' : List (Stretch ι)} {items items' : List ι}

/-- A single stretch may be passed over. -/
theorem passed (hdropped : ∀ item ∈ items, keep item = false) :
    Culls keep [⟨items.length, none⟩] items := by
  have hpass := Culls.nil.pass items hdropped
  rwa [List.append_nil] at hpass

theorem append (hculls : Culls keep l items) (hculls' : Culls keep l' items') :
    Culls keep (l ++ l') (items ++ items') := by
  induction hculls with
  | nil => exact hculls'
  | pass passed dropped _ ih =>
      rw [List.append_assoc]
      exact ih.pass passed dropped
  | yield item kept _ ih => exact ih.yield item kept

theorem flatten {parts : List (List (Stretch ι))} {lists : List (List ι)}
    (hparts : List.Forall₂ (Culls keep) parts lists) : Culls keep parts.flatten lists.flatten := by
  induction hparts with
  | nil => exact .nil
  | cons hpart _ ih => exact hpart.append ih

/-- Items taken one at a time. -/
theorem each (keep : ι → Bool) (items : List ι) :
    Culls keep (items.map fun item => ⟨1, if keep item then some item else none⟩) items := by
  induction items with
  | nil => exact .nil
  | cons item items ih =>
      rw [List.map_cons]
      cases hkeep : keep item with
      | true => exact ih.yield item hkeep
      | false => exact ih.pass [item] (by simp [hkeep])

/-- Every item may be kept. -/
theorem all (items : List ι) : Culls (fun _ => true) (items.map single) items :=
  each (fun _ => true) items

/-- The items that are kept are marked with their indices and one. -/
theorem marks (hculls : Culls keep l items) (start : Nat) :
    Stretch.marks start l = (items.zipIdx (start + 1)).filter fun x => keep x.1 := by
  induction hculls generalizing start with
  | nil => rfl
  | pass passed dropped _ ih =>
      have hnone : ((passed.zipIdx (start + 1)).filter fun x => keep x.1) = [] := by
        rw [List.filter_eq_nil_iff]
        intro x hx
        simp [dropped x.1 (List.fst_mem_of_mem_zipIdx hx)]
      rw [List.zipIdx_append, List.filter_append, hnone, Stretch.marks, ih,
        Nat.add_right_comm start 1]
      rfl
  | yield item kept _ ih =>
      rw [List.zipIdx_cons, List.filter_cons, if_pos kept, ← ih]
      rfl

end Stretch.Culls

/-- The items that are kept come in their order, each with its index and one. -/
theorem Cursor.Stands.track_moves {s : Store} {c : Chart} {scheme : Scheme ι} {r : PageRef}
    {k : Cursor ι} {before after : List (Stretch ι)} {keep : ι → Bool} {items : List ι}
    (hrep : Represents s c) (hstands : k.Stands c scheme r before after)
    (hculls : Stretch.Culls keep after items) (count : Nat) :
    Moves (CursorM.track count) k s c
      (fun tracked _ _ =>
        tracked = ((items.zipIdx (k.position + 1)).filter fun x => keep x.1).take count)
      (fun _ _ => True) := by
  rw [← hculls.marks]
  exact hstands.marks_moves hrep count

end PageTree
