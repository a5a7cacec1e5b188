/-!
# Bisection

A list in order is searched by halving: an item in the middle tells which half to go on with.
What is found in a list that is not in order is the outcome of the same halvings, so a search
has one result for every list.  On a list in order, `boundary` is the length of the part in
front that satisfies the predicate.
-/

namespace PageTree

/-- Where a search ends. -/
inductive Place where
  /-- At a matching item. -/
  | found (index : Nat)
  /-- At the gap where a matching item belongs. -/
  | gap (index : Nat)
  deriving DecidableEq, Repr

namespace Place

/-- The index of the matching item. -/
def found? : Place → Option Nat
  | found index => some index
  | gap _ => none

end Place

namespace Bisection

variable {α : Type}

/-- Does the work of `narrow`, with a bound on the number of halvings. -/
def narrowWithin (isPast : α → Bool) : (halvings : Nat) → List α → Nat
  | 0, _ => 0
  | halvings + 1, items =>
    let half := items.length / 2
    if half = 0 then 0
    else if items[half]?.any isPast then
      narrowWithin isPast halvings (items.take (items.length - half))
    else half + narrowWithin isPast halvings (items.drop half)

/-- Halves a list until one item is left, and gives its index.  The items from the middle on
are left out if the middle one lies past what is looked for, and else the items before it. -/
def narrow (isPast : α → Bool) (items : List α) : Nat :=
  narrowWithin isPast items.length items

/-- Looks for an item by how items compare with it. -/
def search (order : α → Ordering) (items : List α) : Place :=
  let index := narrow (fun item => order item == .gt) items
  match items[index]?.map order with
  | some .eq => .found index
  | some .lt => .gap (index + 1)
  | _ => .gap index

/-- The gap between the items in front that satisfy a predicate and the others. -/
def boundary (isBefore : α → Bool) (items : List α) : Nat :=
  let index := narrow (fun item => !isBefore item) items
  if items[index]?.any isBefore then index + 1 else index

/-! ## Lists in order -/

/-- A narrowing ends at the last item that is not past what is looked for. -/
theorem narrowWithin_append {isPast : α → Bool} (halvings : Nat) (as bs : List α)
    (before : ∀ a ∈ as, isPast a = false) (after : ∀ b ∈ bs, isPast b = true)
    (enough : (as ++ bs).length ≤ halvings) :
    narrowWithin isPast halvings (as ++ bs) = as.length - 1 := by
  induction halvings generalizing as bs with
  | zero => simp at enough; simp [narrowWithin, enough]
  | succ halvings ih =>
    simp only [narrowWithin, List.length_append] at enough ⊢
    split
    · omega
    · next middle =>
      -- the middle item lies in front of the boundary or behind it, so one half is let go of
      by_cases inFront : (as.length + bs.length) / 2 < as.length
      · have item : (as ++ bs)[(as.length + bs.length) / 2]?.any isPast = false := by
          rw [List.getElem?_append_left inFront, List.getElem?_eq_getElem inFront]
          exact before _ (List.getElem_mem inFront)
        rw [if_neg (by simp [item]), List.drop_append_of_le_length (by omega),
          ih _ _ (fun a h => before a (List.mem_of_mem_drop h)) after (by simp; omega)]
        simp only [List.length_drop]
        omega
      · have inBack : (as.length + bs.length) / 2 - as.length < bs.length := by omega
        have item : (as ++ bs)[(as.length + bs.length) / 2]?.any isPast = true := by
          rw [List.getElem?_append_right (by omega), List.getElem?_eq_getElem inBack]
          exact after _ (List.getElem_mem inBack)
        rw [if_pos item, List.take_append, List.take_of_length_le (by omega),
          ih _ _ before (fun b h => after b (List.mem_of_mem_take h)) (by simp; omega)]

/-- The boundary is the number of items in front that satisfy the predicate, if none of the
others does. -/
theorem boundary_append {isBefore : α → Bool} (as bs : List α)
    (before : ∀ a ∈ as, isBefore a = true) (after : ∀ b ∈ bs, isBefore b = false) :
    boundary isBefore (as ++ bs) = as.length := by
  have index : narrow (fun item => !isBefore item) (as ++ bs) = as.length - 1 :=
    narrowWithin_append _ as bs (fun a h => by simp [before a h])
      (fun b h => by simp [after b h]) (Nat.le_refl _)
  simp only [boundary, index]
  cases as with
  | nil =>
    cases bs with
    | nil => rfl
    | cons b bs => simp [after b List.mem_cons_self]
  | cons a as =>
    have last : as.length < (a :: as).length := Nat.lt_succ_self _
    have item : (a :: as ++ bs)[as.length]?.any isBefore = true := by
      rw [List.getElem?_append_left last, List.getElem?_eq_getElem last]
      exact before _ (List.getElem_mem last)
    simp only [List.length_cons, Nat.add_sub_cancel]
    rw [if_pos item]

/-- A search finds an item that lies between smaller and greater ones. -/
theorem search_found {order : α → Ordering} (as : List α) (b : α) (cs : List α)
    (before : ∀ a ∈ as, order a = .lt) (here : order b = .eq) (after : ∀ c ∈ cs, order c = .gt) :
    search order (as ++ b :: cs) = .found as.length := by
  have index : narrow (fun item => order item == .gt) (as ++ b :: cs) = as.length := by
    have h := @narrowWithin_append α (fun item => order item == .gt)
      (as ++ [b] ++ cs).length (as ++ [b]) cs
      (fun a h => by
        rcases List.mem_append.1 h with h | h
        · simp [before a h]
        · simp [List.mem_singleton.1 h, here])
      (fun c h => by simp [after c h]) (Nat.le_refl _)
    simpa [narrow] using h
  simp [search, index, here]

/-- A search finds the gap between smaller and greater items. -/
theorem search_gap {order : α → Ordering} (as bs : List α)
    (before : ∀ a ∈ as, order a = .lt) (after : ∀ b ∈ bs, order b = .gt) :
    search order (as ++ bs) = .gap as.length := by
  have index : narrow (fun item => order item == .gt) (as ++ bs) = as.length - 1 :=
    narrowWithin_append _ as bs (fun a h => by simp [before a h])
      (fun b h => by simp [after b h]) (Nat.le_refl _)
  simp only [search, index]
  cases as with
  | nil =>
    cases bs with
    | nil => rfl
    | cons b bs => simp [after b List.mem_cons_self]
  | cons a as =>
    have last : as.length < (a :: as).length := Nat.lt_succ_self _
    have item : ((a :: as ++ bs)[as.length]?).map order = some .lt := by
      rw [List.getElem?_append_left last, List.getElem?_eq_getElem last, Option.map_some,
        before _ (List.getElem_mem last)]
    simp only [List.length_cons, Nat.add_sub_cancel, item]

end Bisection
end PageTree
