import PageTree.Proofs.BTree.Refinement
import PageTree.Proofs.Cursor.Index
import PageTree.Proofs.QTree.Refinement

/-!
# A cursor is an index

Whatever calls are made of a cursor, it behaves as an index into the list of the entries of its
tree (`Cursor.play_index`): each call gives what it would give of the list and the index, and the
position of the cursor is the index.
-/

namespace PageTree

open StoreM

variable {ι α : Type}

theorem exec_lift (m : StateM Store α) (s : Store) :
    StoreM.exec (liftM m : StoreM α) s = (.ok (m.run s).1, (m.run s).2) := rfl

/-! ## Moves of another cursor -/

/-- A cursor of its own makes the move, and it is given up where the move fails. -/
theorem Cursor.exec_runOrFail (k : Cursor ι) (act : CursorM ι α) (s : Store) :
    StoreM.exec (k.runOrFail act) s =
      match act.exec k s with
      | ((.ok a, k'), s') => (.ok (a, k'), s')
      | ((.error e, _), s') => (.error e, s') := by
  rw [Cursor.runOrFail, StoreM.exec_bind, exec_lift]
  have hrun : ((k.run act).run s : (Except StoreError α × Cursor ι) × Store) = act.exec k s := rfl
  rw [hrun]
  generalize act.exec k s = outcome
  obtain ⟨⟨e | a, k'⟩, s'⟩ := outcome <;> rfl

namespace Moves

variable {k : Cursor ι} {s : Store} {c : Chart} {P : α → Cursor ι → Chart → Prop}
  {stop : Cursor ι → Chart → Prop}

/-- A glance leaves the cursor where it is. -/
theorem glance {act : CursorM ι α} (hmoves : Moves act k s c P stop) :
    Moves (CursorM.glance act) k s c (fun a k' c' => k' = k ∧ ∃ k'', P a k'' c')
      (fun k' _ => k' = k) := by
  have hexec : (CursorM.glance act).exec k s =
      (((act.exec k s).1.1, k), (act.exec k s).2) := rfl
  rcases hmoves.tallied with
    ⟨a, k', s', c', hok, hgrows, hsame, hpost⟩ | ⟨e, k', s', c', herror, hgrows, hfail, hlacks, -⟩
  · exact Moves.ok (by rw [hexec, hok]) hgrows hsame ⟨rfl, k', hpost⟩
  · exact Moves.error (by rw [hexec, herror]) hgrows hfail hlacks rfl

/-- Where a failed move leaves the cursor may not matter. -/
theorem weaken {act : CursorM ι α} (hmoves : Moves act k s c P stop) :
    Moves act k s c P fun _ _ => True :=
  hmoves.mono (fun _ _ _ _ _ hpost => hpost) fun _ _ _ _ _ => trivial

/-- Whether a move gives an item. -/
theorem isSome {act : CursorM ι (Option α)} {P : Option α → Cursor ι → Chart → Prop}
    (hmoves : Moves act k s c P stop) :
    Moves (do return (← act).isSome) k s c
      (fun b k' c' => ∃ item?, b = item?.isSome ∧ P item? k' c') stop :=
  hmoves.bind fun item? _ _ _ hgrows hpost => Moves.pure hgrows.represents ⟨item?, rfl, hpost⟩

/-- A move of a cursor of its own. -/
theorem runOrFail {act : CursorM ι α} (hmoves : Moves act k s c P stop) :
    Runs (k.runOrFail act) s c fun outcome _ c' => P outcome.1 outcome.2 c' := by
  rcases hmoves.tallied with
    ⟨a, k', s', c', hok, hgrows, hsame, hpost⟩ | ⟨e, k', s', c', herror, hgrows, hfail, hlacks, -⟩
  · exact Runs.ok (by rw [k.exec_runOrFail, hok]) hgrows hsame hpost
  · exact Runs.error (by rw [k.exec_runOrFail, herror]) hgrows hfail hlacks

end Moves

/-! ## Cursors over trees of a kind -/

/-- What the leaves of a tree hold, from left to right. -/
structure Chart.HasItems (c : Chart) (itemsOf : PageBody Unit → List ι) (r : PageRef)
    (items : List ι) : Prop where
  refs : c.refs r
  tours : c.Tours (.items itemsOf) none 0 0 r.site (items.map Stretch.single)
  reads : ∃ depth shapes, c.Reads depth r.site shapes ∧ shapes.flatMap itemsOf = items

section HasItems

variable {s : Store} {c c' : Chart} {policy : Policy ι} {kind : TreeKind}
  {itemsOf : PageBody Unit → List ι} {r : PageRef} {items : List ι}

theorem Chart.HasItems.mono (hfollows : policy.Follows (.items itemsOf)) (hle : c ≤ c')
    (hitems : c.HasItems itemsOf r items) : c'.HasItems itemsOf r items := by
  obtain ⟨hr, htours, depth, shapes, hreads, hshapes⟩ := hitems
  exact ⟨hle.refs r hr, htours.mono hfollows hle, depth, shapes, hreads.mono hle, hshapes⟩

/-- Every tree has entries. -/
theorem Represents.hasItems (hrep : Represents s c) (hall : policy.YieldsAll kind itemsOf)
    (hr : c.refs r) (hkind : r.tree = kind) : ∃ items, c.HasItems itemsOf r items := by
  obtain ⟨shapes, hreads, htours⟩ := (hrep.sound r hr).exists_reads hall
    (fun p hp => ((hrep.fits r p hr hp).1.symm.trans hkind)) (Nat.lt_succ_self _)
  exact ⟨_, hr, htours none 0 0, _, shapes, hreads, rfl⟩

/-- A tree has as many entries as its root says. -/
theorem Chart.HasItems.length_eq (hrep : Represents s c) (hitems : c.HasItems itemsOf r items) :
    items.length = r.span := by
  have htotal := hitems.tours.total (hrep.sound r hitems.refs)
  rwa [Stretch.total_map_single, PageRef.header_site] at htotal

/-- Reading the leaves of a tree gives what they hold. -/
theorem Chart.HasItems.leaves_runs (hrep : Represents s c) (hitems : c.HasItems itemsOf r items) :
    Runs r.leaves s c fun leaves _ _ =>
      leaves.flatMap (fun leaf => itemsOf leaf.body.shape) = items := by
  obtain ⟨hr, -, depth, shapes, hreads, rfl⟩ := hitems
  refine (PageRef.leaves_runs hrep hr).mono ?_
  rintro leaves s' c' hgrows ⟨depth', hreads'⟩
  rw [(hreads.mono hgrows.le).unique hreads', List.flatMap_map]

namespace Cursor

variable {k : Cursor ι} {front back : List ι}

/-- A new cursor stands before all entries. -/
theorem between_start (hfollows : policy.Follows (.items itemsOf))
    (hitems : c.HasItems itemsOf r items) : (start r policy).Between c itemsOf r [] items :=
  stands_start hfollows hitems.refs hitems.tours

/-- A cursor that is opened again stands behind as many entries as before, as far as there are
so many. -/
theorem reopened_runs (hrep : Represents s c) (hfollows : k.policy.Follows (.items itemsOf))
    (hitems : c.HasItems itemsOf r items) :
    Runs (k.reopened r) s c fun k' _ c' =>
      k'.Between c' itemsOf r (items.take k.position) (items.drop k.position) :=
  Runs.bind ((between_start hfollows hitems).skip_moves hrep k.position).runOrFail
    fun _ _ _ hgrows hpost => Runs.pure hgrows.represents hpost.2

/-- What one more item makes of a collection. -/
theorem run_collectWithin (take : CursorM ι (Option ι)) (bound : Nat) (k : Cursor ι) (s : Store) :
    ((CursorM.collectWithin take (bound + 1)).run k).run s =
      match take.exec k s with
      | ((.ok none, k'), s') => ((([], none), k'), s')
      | ((.ok (some item), k'), s') =>
        let outcome := ((CursorM.collectWithin take bound).run k').run s'
        (((item :: outcome.1.1.1, outcome.1.1.2), outcome.1.2), outcome.2)
      | ((.error e, k'), s') => ((([], some e), k'), s') := by
  simp only [CursorM.collectWithin, StateT.run_bind, CursorM.exec, Cursor.run]
  generalize ((((take.run).run k).run s : Id _)) = outcome
  obtain ⟨⟨e | (_ | item), k'⟩, s'⟩ := outcome <;> rfl

/-- All items that are left in a direction are collected, unless some page cannot be had. -/
theorem Stands.collectWithin_cases {scheme : Scheme ι} {before after : List (Stretch ι)}
    (hrep : Represents s c) (hstands : k.Stands c scheme r before after) (d : Direction)
    {bound : Nat} (hbound : (d.rest before after).length < bound) :
    ∃ l error k' s' c', ((CursorM.collectWithin (CursorM.advance d) bound).run k).run s =
        (((l, error), k'), s') ∧ Grows s c s' c' ∧
      (error = none ∧ s'.failures = s.failures ∧
          l = (d.rest before after).filterMap Stretch.item? ∨
        ∃ e, error = some e ∧ e.IsLoadFailure ∧ Lacks s c e s') := by
  -- an advance that finds an item passes it, so there is less left than before
  induction bound generalizing k s c before after with
  | zero => exact absurd hbound (Nat.not_lt_zero _)
  | succ bound ih =>
      rw [run_collectWithin]
      rcases (hstands.advance_moves hrep d).tallied with
        ⟨item?, k', s', c', hexec, hgrows, hsame, hpost⟩ |
          ⟨e, k', s', c', hexec, hgrows, hfail, hlacks, -⟩
      · rw [hexec]
        cases item? with
        | none =>
            obtain ⟨hsilent, -⟩ := hpost
            exact ⟨[], none, k', s', c', rfl, hgrows,
              Or.inl ⟨rfl, hsame, hsilent.filterMap_item.symm⟩⟩
        | some item =>
            obtain ⟨xs, n, hsilent, before', after', htravels, hstands'⟩ := hpost
            rw [htravels.rest_eq] at hbound ⊢
            simp only [List.length_append, List.length_cons] at hbound
            obtain ⟨l, error, k'', s'', c'', hrun, hgrows', hout⟩ :=
              ih hgrows.represents hstands' (by omega)
            refine ⟨item :: l, error, k'', s'', c'', by simp [hrun], hgrows.trans hgrows', ?_⟩
            rcases hout with ⟨rfl, hsame', rfl⟩ | ⟨e, rfl, hfail, hlacks⟩
            · refine Or.inl ⟨rfl, hsame'.trans hsame, ?_⟩
              simp [List.filterMap_append, hsilent.filterMap_item]
            · exact Or.inr ⟨e, rfl, hfail, hlacks.after hgrows hsame⟩
      · rw [hexec]
        exact ⟨[], some e, k', s', c', rfl, hgrows, Or.inr ⟨e, rfl, hfail, hlacks⟩⟩

/-- All items or none are what is collected without an error. -/
theorem exec_items (hroot : k.root? = some r) (d : Direction) (s : Store) :
    StoreM.exec (k.items d) s =
      match ((CursorM.collectWithin (CursorM.advance d) (s.walkBound r k.position)).run k).run s with
      | (((l, none), _), s') => (.ok l, s')
      | (((_, some e), _), s') => (.error e, s') := by
  have hcollect : (k.collect d).run s =
      let outcome := ((CursorM.collectWithin (CursorM.advance d)
        ((k.root?.map fun r => s.walkBound r k.position).getD 0)).run k).run s
      (outcome.1.1, outcome.2) := rfl
  rw [hroot, Option.map_some, Option.getD_some] at hcollect
  rw [Cursor.items, StoreM.exec_bind, exec_lift, hcollect]
  generalize (((CursorM.collectWithin (CursorM.advance d) (s.walkBound r k.position)).run
    k).run s : Id _) = outcome
  obtain ⟨⟨⟨l, _ | e⟩, k'⟩, s'⟩ := outcome <;> rfl

/-- What is left in a direction is collected, as far as it is yielded. -/
theorem Stands.items_runs {scheme : Scheme ι} {before after : List (Stretch ι)}
    (hrep : Represents s c) (hstands : k.Stands c scheme r before after) (d : Direction)
    (hbound : (d.rest before after).length < s.walkBound r k.position) :
    Runs (k.items d) s c
      fun items _ _ => items = (d.rest before after).filterMap Stretch.item? := by
  obtain ⟨items, error, k', s', c', hrun, hgrows, hout⟩ :=
    hstands.collectWithin_cases hrep d hbound
  have hexec := exec_items hstands.root_eq d s
  rw [hrun] at hexec
  rcases hout with ⟨rfl, hsame, rfl⟩ | ⟨e, rfl, hfail, hlacks⟩
  · exact Runs.ok hexec hgrows hsame rfl
  · exact Runs.error hexec hgrows hfail hlacks

/-- A new cursor collects what is yielded on the tour of its tree. -/
theorem items_tour_runs {scheme : Scheme ι} {l : List (Stretch ι)} (hrep : Represents s c)
    (hfollows : policy.Follows scheme) (hr : c.refs r)
    (htours : c.Tours scheme none 0 0 r.site l) (hbound : l.length < s.walkBound r 0) :
    Runs ((start r policy).items .forward) s c
      fun items _ _ => items = l.filterMap Stretch.item? :=
  (stands_start hfollows hr htours).items_runs hrep .forward hbound

/-- A new cursor collects every entry of its tree. -/
theorem items_start_runs (hrep : Represents s c) (hfollows : policy.Follows (.items itemsOf))
    (hitems : c.HasItems itemsOf r items) :
    Runs ((start r policy).items .forward) s c fun l _ _ => l = items := by
  have hbound : (items.map Stretch.single).length < s.walkBound r 0 := by
    have htotal := hitems.length_eq hrep
    have hpos := (hrep.sound r hitems.refs).area_pos
    rw [PageRef.header_site] at hpos
    change 0 < r.treeSize at hpos
    have hless : items.length < s.depthBound r + r.span + 0 := by
      rw [Store.depthBound]
      omega
    have hbase : 0 < s.depthBound r + r.span + 0 := Nat.zero_lt_of_lt hless
    rw [List.length_map, Store.walkBound]
    exact Nat.lt_of_lt_of_le hless (Nat.le_mul_of_pos_left _ (Nat.mul_pos hbase hbase))
  apply (items_tour_runs hrep hfollows hitems.refs hitems.tours hbound).mono
  rintro l s' c' - rfl
  rw [List.filterMap_map]
  exact List.filterMap_some

end Cursor
end HasItems

/-! ## Calls -/

/-- A call of a cursor. -/
inductive CursorCall where
  | next
  | previous
  | skip (count : Nat)
  | head
  | step
  | hasNext
  | hasPrevious
  | toEnd
  /-- The cursor is opened again over another tree. -/
  | reopen (root : PageRef)

/-- What a call gives. -/
inductive CursorAnswer (ι : Type) where
  | item (item? : Option ι)
  | count (entries : Nat)
  | flag (holds : Bool)
  | moved
  deriving DecidableEq

namespace CursorCall

/-- The tree that the cursor is opened over. -/
def root? : CursorCall → Option PageRef
  | reopen root => some root
  | _ => none

/-- Makes the call. -/
def make [PageLoader] : CursorCall → CursorM ι (CursorAnswer ι)
  | next => return .item (← CursorM.next)
  | previous => return .item (← CursorM.previous)
  | skip count => return .count (← CursorM.skip count)
  | head => return .item (← CursorM.head)
  | step => return .flag (← CursorM.step)
  | hasNext => return .flag (← CursorM.hasNext)
  | hasPrevious => return .flag (← CursorM.hasPrevious)
  | toEnd => do
    set (← get).toEnd
    return .moved
  | reopen root => do
    set (← CursorM.ofStore ((← get).reopened root))
    return .moved

end CursorCall

/-- Makes calls one after another.  Each answer comes with the index of the next entry. -/
def CursorM.play : List CursorCall → CursorM ι (List (CursorAnswer ι × Nat))
  | [] => return []
  | call :: calls => do
    let answer ← call.make
    let index := (← get).nextIndex
    return (answer, index) :: (← play calls)

/-- An index into a list. -/
structure CursorIndex (ι : Type) where
  items : List ι
  position : Nat

namespace CursorIndex

variable (lists : PageRef → List ι)

/-- The item at the index. -/
def here? (x : CursorIndex ι) : Option ι :=
  x.items[x.position]?

/-- The item before the index. -/
def before? (x : CursorIndex ι) : Option ι :=
  if x.position = 0 then none else x.items[x.position - 1]?

/-- The index past the item at it, if there is one. -/
def succ (x : CursorIndex ι) : CursorIndex ι :=
  if x.position < x.items.length then { x with position := x.position + 1 } else x

theorem items_succ (x : CursorIndex ι) : x.succ.items = x.items := by
  unfold succ
  split <;> rfl

/-- The index before the item before it, if there is one. -/
def pred (x : CursorIndex ι) : CursorIndex ι :=
  { x with position := x.position - 1 }

/-- What a call gives of an index, and the index after it. -/
def call (x : CursorIndex ι) : CursorCall → CursorAnswer ι × CursorIndex ι
  | .next => (.item x.here?, x.succ)
  | .previous => (.item x.before?, x.pred)
  | .skip count =>
    let moved := min count (x.items.length - x.position)
    (.count moved, { x with position := x.position + moved })
  | .head => (.item x.here?, x)
  | .step => (.flag (x.position < x.items.length), x.succ)
  | .hasNext => (.flag (x.position < x.items.length), x)
  | .hasPrevious => (.flag (0 < x.position), x)
  | .toEnd => (.moved, { x with position := x.items.length })
  | .reopen root => (.moved, ⟨lists root, min x.position (lists root).length⟩)

/-- The index after some calls. -/
def after (x : CursorIndex ι) (calls : List CursorCall) : CursorIndex ι :=
  calls.foldl (fun x call => (x.call lists call).2) x

/-- What calls give of an index, each answer with the index after it. -/
def play (x : CursorIndex ι) : List CursorCall → List (CursorAnswer ι × Nat)
  | [] => []
  | call :: calls =>
    let (answer, x') := x.call lists call
    (answer, x'.position) :: play x' calls

variable {lists}

theorem isSome_here? (x : CursorIndex ι) :
    x.here?.isSome = decide (x.position < x.items.length) := by
  by_cases hlt : x.position < x.items.length
  · simp [here?, hlt]
  · simp [here?, hlt]

theorem isSome_before? {x : CursorIndex ι} (hle : x.position ≤ x.items.length) :
    x.before?.isSome = decide (0 < x.position) := by
  unfold before?
  split
  · simp [*]
  · next hpos =>
      rw [List.getElem?_eq_getElem (by omega)]
      simpa using Nat.pos_of_ne_zero hpos

/-- An index stays within its list. -/
theorem call_position_le {x : CursorIndex ι} (hle : x.position ≤ x.items.length)
    (call : CursorCall) :
    (x.call lists call).2.position ≤ (x.call lists call).2.items.length := by
  cases call with
  | next | step =>
      simp only [CursorIndex.call, succ]
      split
      · assumption
      · exact hle
  | previous => exact Nat.le_trans (Nat.sub_le _ _) hle
  | skip count =>
      simp only [CursorIndex.call]
      omega
  | head | hasNext | hasPrevious => exact hle
  | toEnd => exact Nat.le_refl _
  | reopen root => exact Nat.min_le_right _ _

theorem after_position_le {x : CursorIndex ι} (hle : x.position ≤ x.items.length)
    (calls : List CursorCall) :
    (x.after lists calls).position ≤ (x.after lists calls).items.length := by
  induction calls generalizing x with
  | nil => exact hle
  | cons call calls ih => exact ih (call_position_le hle call)

end CursorIndex

/-! ## Cursors and indices -/

section AtIndex

variable {s : Store} {c c' : Chart} {itemsOf : PageBody Unit → List ι} {r : PageRef}
  {k k' : Cursor ι} {x : CursorIndex ι} {lists : PageRef → List ι}

namespace Cursor

/-- The cursor stands where an index is. -/
structure AtIndex (k : Cursor ι) (c : Chart) (itemsOf : PageBody Unit → List ι) (r : PageRef)
    (x : CursorIndex ι) : Prop where
  position_le : x.position ≤ x.items.length
  between : k.Between c itemsOf r (x.items.take x.position) (x.items.drop x.position)

namespace AtIndex

theorem mono (hat : k.AtIndex c itemsOf r x) (hle : c ≤ c') : k.AtIndex c' itemsOf r x :=
  ⟨hat.position_le, hat.between.mono hle⟩

/-- The position of the cursor is the index. -/
theorem position_eq (hat : k.AtIndex c itemsOf r x) : k.position = x.position := by
  rw [hat.between.position, List.length_take]
  exact Nat.min_eq_left hat.position_le

/-- To move on is to pass the next entry and to give it. -/
theorem next_moves (hrep : Represents s c) (hat : k.AtIndex c itemsOf r x) :
    Moves CursorM.next k s c
      (fun item? k' c' => item? = x.here? ∧ k'.AtIndex c' itemsOf r x.succ)
      (fun k' c' => k'.AtIndex c' itemsOf r x) := by
  refine (hat.between.next_moves hrep).mono ?_ fun _ _ _ _ hbetween =>
    ⟨hat.position_le, hbetween⟩
  rintro _ k' s' c' - ⟨rfl, hbetween⟩
  rw [List.head?_drop, ← List.take_add_one, List.tail_drop] at hbetween
  refine ⟨List.head?_drop, ?_⟩
  unfold CursorIndex.succ
  split
  · next hlt => exact ⟨hlt, hbetween⟩
  · next hend =>
      obtain hlength : x.position = x.items.length := by
        have hle := hat.position_le
        omega
      refine ⟨hat.position_le, ?_⟩
      rw [List.take_of_length_le (by omega), List.drop_of_length_le (by omega)] at hbetween ⊢
      exact hbetween

/-- To go back is to pass the entry before and to give it. -/
theorem previous_moves (hrep : Represents s c) (hat : k.AtIndex c itemsOf r x) :
    Moves CursorM.previous k s c
      (fun item? k' c' => item? = x.before? ∧ k'.AtIndex c' itemsOf r x.pred)
      (fun k' c' => k'.AtIndex c' itemsOf r x) := by
  refine (hat.between.previous_moves hrep).mono ?_ fun _ _ _ _ hbetween =>
    ⟨hat.position_le, hbetween⟩
  rintro _ k' s' c' - ⟨rfl, hbetween⟩
  have hle := hat.position_le
  unfold CursorIndex.before? CursorIndex.pred
  by_cases hzero : x.position = 0
  · rw [if_pos hzero]
    refine ⟨by rw [hzero, List.take_zero]; rfl, ?_, ?_⟩
    · simp [hzero]
    · simpa [hzero] using hbetween
  · obtain ⟨index, hindex⟩ := Nat.exists_eq_add_one_of_ne_zero hzero
    have hlt : index < x.items.length := by omega
    have hitem := List.getElem?_eq_getElem hlt
    have hfront : x.items.take x.position = x.items.take index ++ [x.items[index]] := by
      rw [hindex, List.take_add_one, hitem, Option.toList_some]
    have hback : x.items[index] :: x.items.drop x.position = x.items.drop index := by
      rw [hindex, List.drop_eq_getElem_cons hlt]
    rw [hfront, List.getLast?_concat, List.dropLast_concat, Option.toList_some,
      List.singleton_append, hback] at hbetween
    rw [hfront, List.getLast?_concat, if_neg hzero, hindex, Nat.add_sub_cancel, hitem]
    exact ⟨rfl, Nat.le_of_lt hlt, hbetween⟩

/-- To look for the next entry is to give it and to stay. -/
theorem head_moves (hrep : Represents s c) (hat : k.AtIndex c itemsOf r x) :
    Moves CursorM.head k s c
      (fun item? k' c' => item? = x.here? ∧ k'.AtIndex c' itemsOf r x)
      (fun k' c' => k'.AtIndex c' itemsOf r x) := by
  refine (hat.next_moves hrep).glance.mono ?_ ?_
  · rintro _ _ s' c' hgrows ⟨rfl, _, rfl, -⟩
    exact ⟨rfl, hat.mono hgrows.le⟩
  · rintro _ s' c' hgrows rfl
    exact hat.mono hgrows.le

theorem step_moves (hrep : Represents s c) (hat : k.AtIndex c itemsOf r x) :
    Moves CursorM.step k s c
      (fun flag k' c' => flag = decide (x.position < x.items.length) ∧
        k'.AtIndex c' itemsOf r x.succ)
      (fun k' c' => k'.AtIndex c' itemsOf r x) := by
  refine (hat.next_moves hrep).isSome.mono ?_ fun _ _ _ _ hat' => hat'
  rintro _ k' s' c' - ⟨_, rfl, rfl, hat'⟩
  exact ⟨x.isSome_here?, hat'⟩

theorem hasNext_moves (hrep : Represents s c) (hat : k.AtIndex c itemsOf r x) :
    Moves CursorM.hasNext k s c
      (fun flag k' c' => flag = decide (x.position < x.items.length) ∧ k'.AtIndex c' itemsOf r x)
      (fun k' c' => k'.AtIndex c' itemsOf r x) := by
  refine (hat.head_moves hrep).isSome.mono ?_ fun _ _ _ _ hat' => hat'
  rintro _ k' s' c' - ⟨_, rfl, rfl, hat'⟩
  exact ⟨x.isSome_here?, hat'⟩

theorem hasPrevious_moves (hrep : Represents s c) (hat : k.AtIndex c itemsOf r x) :
    Moves CursorM.hasPrevious k s c
      (fun flag k' c' => flag = decide (0 < x.position) ∧ k'.AtIndex c' itemsOf r x)
      (fun k' c' => k'.AtIndex c' itemsOf r x) := by
  refine (hat.previous_moves hrep).glance.isSome.mono ?_ ?_
  · rintro _ _ s' c' hgrows ⟨_, rfl, rfl, _, rfl, -⟩
    exact ⟨CursorIndex.isSome_before? hat.position_le, hat.mono hgrows.le⟩
  · rintro _ s' c' hgrows rfl
    exact hat.mono hgrows.le

/-- A cursor that stands past some of the entries that are left is at the index past them. -/
theorem forward (hat : k.AtIndex c itemsOf r x) {n : Nat}
    (hbetween : k'.Between c' itemsOf r
      (x.items.take x.position ++ (x.items.drop x.position).take n)
      ((x.items.drop x.position).drop n)) (hn : n ≤ x.items.length - x.position) :
    k'.AtIndex c' itemsOf r { x with position := x.position + n } where
  position_le := by
    have hle := hat.position_le
    show x.position + n ≤ x.items.length
    omega
  between := by
    rw [← List.take_add, List.drop_drop] at hbetween
    exact hbetween

/-- To skip is to move the index on, and a skip that fails has moved it on by less or as much. -/
theorem skip_moves (hrep : Represents s c) (hat : k.AtIndex c itemsOf r x) (count : Nat) :
    Moves (CursorM.skip count) k s c
      (fun n k' c' => n = min count (x.items.length - x.position) ∧
        k'.AtIndex c' itemsOf r { x with position := x.position + n })
      (fun k' c' => ∃ n, n ≤ min count (x.items.length - x.position) ∧
        k'.AtIndex c' itemsOf r { x with position := x.position + n }) := by
  have hlength : (x.items.drop x.position).length = x.items.length - x.position :=
    List.length_drop
  rw [← hlength]
  refine (hat.between.skip_moves hrep count).mono ?_ ?_
  · rintro _ k' s' c' - ⟨rfl, hbetween⟩
    refine ⟨rfl, hat.forward ?_ (by omega)⟩
    rcases Nat.le_total count (x.items.drop x.position).length with hcount | hcount
    · rwa [Nat.min_eq_left hcount]
    · rw [Nat.min_eq_right hcount]
      rw [List.take_of_length_le hcount, List.drop_of_length_le hcount] at hbetween
      rwa [List.take_length, List.drop_length]
  · rintro k' s' c' - ⟨n, hn, hbetween⟩
    exact ⟨n, hn, hat.forward hbetween (by omega)⟩

/-- A call answers with what a move gives, and leads where the move does. -/
theorem answers {act : CursorM ι α} {a : α} {x' : CursorIndex ι} {stop : Cursor ι → Chart → Prop}
    (hmoves : Moves act k s c (fun a' k' c' => a' = a ∧ k'.AtIndex c' itemsOf r x') stop)
    (answer : α → CursorAnswer ι) :
    Moves (do return answer (← act)) k s c
      (fun answer' k' c' => answer' = answer a ∧ ∃ r', k'.AtIndex c' itemsOf r' x')
      (fun _ _ => True) := by
  refine hmoves.weaken.bind ?_
  rintro _ k' s' c' hgrows ⟨rfl, hat⟩
  exact Moves.pure hgrows.represents ⟨rfl, r, hat⟩

/-- A call gives what it gives of the index and leads to the index after it. -/
theorem call_moves (hrep : Represents s c) (hat : k.AtIndex c itemsOf r x)
    (lists : PageRef → List ι) (call : CursorCall)
    (hroot : ∀ root, call.root? = some root → c.HasItems itemsOf root (lists root)) :
    Moves call.make k s c
      (fun answer k' c' => answer = (x.call lists call).1 ∧
        ∃ r', k'.AtIndex c' itemsOf r' (x.call lists call).2)
      (fun _ _ => True) := by
  cases call with
  | next => exact answers (hat.next_moves hrep) .item
  | previous => exact answers (hat.previous_moves hrep) .item
  | skip count =>
      refine answers (r := r) ((hat.skip_moves hrep count).weaken.mono ?_ fun _ _ _ _ h => h) .count
      rintro _ k' s' c' - ⟨rfl, hat'⟩
      exact ⟨rfl, hat'⟩
  | head => exact answers (hat.head_moves hrep) .item
  | step => exact answers (hat.step_moves hrep) .flag
  | hasNext => exact answers (hat.hasNext_moves hrep) .flag
  | hasPrevious => exact answers (hat.hasPrevious_moves hrep) .flag
  | toEnd =>
      refine Moves.get (Moves.set (Moves.pure hrep ⟨rfl, r, Nat.le_refl _, ?_⟩))
      have hbetween := hat.between.toEnd hrep
      rw [List.take_append_drop] at hbetween
      simpa [CursorIndex.call] using hbetween
  | reopen root =>
      -- a cursor that is opened again goes back to its index, or to the end of fewer items
      have hitems := hroot root rfl
      refine Moves.get (Moves.ofStore (reopened_runs hrep hat.between.follows hitems)
        (fun _ _ => trivial) ?_)
      intro k' s' c' hgrows hbetween
      refine Moves.set (Moves.pure hgrows.represents ⟨rfl, root, Nat.min_le_right _ _, ?_⟩)
      rw [hat.position_eq] at hbetween
      simp only [CursorIndex.call]
      rcases Nat.le_total x.position (lists root).length with hposition | hposition
      · rwa [Nat.min_eq_left hposition]
      · rw [Nat.min_eq_right hposition]
        rw [List.take_of_length_le (by omega), List.drop_of_length_le (by omega)] at hbetween ⊢
        exact hbetween

/-- Calls give what they give of the index. -/
theorem play_moves (hrep : Represents s c) (hat : k.AtIndex c itemsOf r x)
    (lists : PageRef → List ι) (calls : List CursorCall)
    (hroots : ∀ root ∈ calls.filterMap CursorCall.root?, c.HasItems itemsOf root (lists root)) :
    Moves (CursorM.play calls) k s c (fun answers _ _ => answers = x.play lists calls)
      (fun _ _ => True) := by
  induction calls generalizing k s c r x with
  | nil => exact Moves.pure hrep rfl
  | cons call calls ih =>
      refine (hat.call_moves hrep lists call ?_).bind ?_
      · intro root hroot
        exact hroots root (List.mem_filterMap.2 ⟨call, List.mem_cons_self, hroot⟩)
      · rintro _ k' s' c' hgrows ⟨rfl, r', hat'⟩
        refine Moves.get ((ih hgrows.represents hat' ?_).bind ?_)
        · intro root hroot
          obtain ⟨call', hcall', hroot'⟩ := List.mem_filterMap.1 hroot
          refine (hroots root ?_).mono hat.between.follows hgrows.le
          exact List.mem_filterMap.2 ⟨call', List.mem_cons_of_mem call hcall', hroot'⟩
        · rintro _ k'' s'' c'' hgrows' rfl
          refine Moves.pure hgrows'.represents ?_
          rw [nextIndex, hat'.position_eq]
          rfl

end AtIndex
end Cursor
end AtIndex

/-! ## Every entry of a tree -/

/-- The policies that yield every entry of the trees of a kind, and what reads the entries leaf by
leaf. -/
inductive Policy.Plain : {ι : Type} → Policy ι → TreeKind → (PageRef → StoreM (List ι)) → Prop where
  | entries : Plain Policy.entries .btree BTree.entries
  | tiles : Plain Policy.tiles .qtree QTree.entries

theorem Policy.entries_yieldsAll : Policy.entries.YieldsAll .btree BTree.slotsOf where
  visit := rfl
  slot page index := by
    obtain ⟨version, stem, body⟩ := page
    cases body <;> rfl
  length p hkind hleaf := by
    obtain ⟨version, stem, body⟩ := p
    cases body with
    | btreeLeaf slots => rfl
    | btreeNode children => cases hleaf
    | utreeLeaf | qtreeLeaf | qtreeNode => cases hkind

theorem Policy.tiles_yieldsAll :
    Policy.tiles.YieldsAll .qtree fun body => (QTree.slotsOf body).map Slot.entry where
  visit := rfl
  slot page index := by
    obtain ⟨version, stem, body⟩ := page
    cases body <;> simp [tiles, planeSlot, QTree.slotsOf, PageBody.shape, PageBody.map]
  length p hkind hleaf := by
    obtain ⟨version, stem, body⟩ := p
    cases body with
    | qtreeLeaf slots => exact List.length_map _
    | qtreeNode children => cases hleaf
    | utreeLeaf | btreeLeaf | btreeNode => cases hkind

/-- A plain policy yields what is read leaf by leaf. -/
theorem Policy.Plain.yieldsAll {policy : Policy ι} {kind : TreeKind}
    {read : PageRef → StoreM (List ι)} (hplain : policy.Plain kind read) :
    ∃ itemsOf, policy.YieldsAll kind itemsOf ∧ ∀ r, read r =
      do return (← r.leaves).flatMap fun leaf => itemsOf leaf.body.shape := by
  cases hplain with
  | entries =>
      refine ⟨BTree.slotsOf, Policy.entries_yieldsAll, fun r => ?_⟩
      simp only [BTree.slotsOf_shape]
      rfl
  | tiles =>
      refine ⟨_, Policy.tiles_yieldsAll, fun r => ?_⟩
      simp only [QTree.slotsOf_shape, ← List.map_flatMap]
      rfl

namespace Cursor

/-- Whatever calls are made of a cursor over the entries of a tree, it behaves as an index into
the list of the entries that are read leaf by leaf, and the index stays within the list. -/
theorem play_index {s : Store} {c : Chart} {policy : Policy ι} {kind : TreeKind}
    {read : PageRef → StoreM (List ι)} (hplain : policy.Plain kind read) (hrep : Represents s c)
    (hserves : Serves s c) (root : PageRef) (calls : List CursorCall)
    (hroots : ∀ r ∈ root :: calls.filterMap CursorCall.root?, c.refs r ∧ r.tree = kind) :
    ∃ lists : PageRef → List ι,
      (∀ r ∈ root :: calls.filterMap CursorCall.root?, (StoreM.exec (read r) s).1 = .ok (lists r)) ∧
      ((CursorM.play calls).exec (start root policy) s).1.1 =
        .ok (CursorIndex.play lists ⟨lists root, 0⟩ calls) ∧
      ∀ count, (CursorIndex.after lists ⟨lists root, 0⟩ (calls.take count)).position ≤
        (CursorIndex.after lists ⟨lists root, 0⟩ (calls.take count)).items.length := by
  obtain ⟨itemsOf, hall, hread⟩ := hplain.yieldsAll
  have hitems : ∀ r, ∃ items, r ∈ root :: calls.filterMap CursorCall.root? →
      c.HasItems itemsOf r items := by
    intro r
    by_cases hr : r ∈ root :: calls.filterMap CursorCall.root?
    · obtain ⟨items, hitems⟩ := hrep.hasItems hall (hroots r hr).1 (hroots r hr).2
      exact ⟨items, fun _ => hitems⟩
    · exact ⟨[], fun hr' => absurd hr' hr⟩
  choose lists hlists using hitems
  refine ⟨lists, ?_, ?_, fun count => CursorIndex.after_position_le (Nat.zero_le _) _⟩
  · intro r hr
    obtain ⟨leaves, s', c', hexec, -, hleaves⟩ :=
      ((hlists r hr).leaves_runs hrep).succeeds hserves
    rw [hread, StoreM.exec_bind, hexec, ← hleaves]
    rfl
  · have hat : (start root policy).AtIndex c itemsOf root ⟨lists root, 0⟩ :=
      ⟨Nat.zero_le _, between_start hall.follows (hlists root List.mem_cons_self)⟩
    have hmoves := hat.play_moves hrep lists calls fun r hr =>
      hlists r (List.mem_cons_of_mem root hr)
    obtain ⟨_, k', s', c', hexec, -, rfl⟩ := hmoves.succeeds hserves
    rw [hexec]

/-- Calls of a cursor over two entries, and over the same tree again. -/
theorem play_index_two_entries :
    ∃ t s c, StoreM.exec (do
          BTree.applyAll (← Tree.empty ⟨.btree, 1, ⟨0⟩, ⟨0⟩⟩)
            [(1, .update (.int 1) (.int 10)), (1, .update (.int 2) (.int 20))])
        (.create Settings.forTrials false ⟨0⟩) = (.ok t, s) ∧
      Represents s c ∧ Serves s c ∧ c.refs t.root ∧ t.root.tree = .btree ∧
      ((CursorM.play [.next, .skip 3, .previous, .reopen t.root, .hasNext, .toEnd, .next]).exec
          (start t.root Policy.entries) s).1.1 =
        .ok [(.item (some (.int 1, .int 10)), 1), (.count 1, 2),
          (.item (some (.int 2, .int 20)), 1), (.moved, 1), (.flag true, 1), (.moved, 2),
          (.item none, 2)] := by
  have hruns : Runs (do
      BTree.applyAll (← Tree.empty ⟨.btree, 1, ⟨0⟩, ⟨0⟩⟩)
        [(1, .update (.int 1) (.int 10)), (1, .update (.int 2) (.int 20))])
      (.create Settings.forTrials false ⟨0⟩) .blank fun t _ c => ∃ version,
        BTree.Contains c version t [(.int 1, .int 10), (.int 2, .int 20)] := by
    refine Runs.bind (BTree.empty_runs (represents_blank _) ⟨.btree, 1, ⟨0⟩, ⟨0⟩⟩ rfl) ?_
    rintro t s' c' hgrows ⟨-, hcontains⟩
    exact BTree.applyAll_runs hgrows.represents hcontains _ (by decide) (by decide)
  have hserves : Serves (.create Settings.forTrials false ⟨0⟩) .blank :=
    Or.inl fun r hr => absurd hr id
  obtain ⟨t, s, c, hexec, hgrows, version, hcontains⟩ := hruns.succeeds hserves
  have hserves' := hgrows.serves hserves
  have hrefs := hcontains.root.fit.refs
  have hkind : t.root.tree = .btree := by
    obtain ⟨q, hq, htree, -⟩ := hcontains.root.fit.page
    exact (hgrows.represents.fits t.root q hrefs hq).1.trans htree
  obtain ⟨lists, hread, hplay, -⟩ := play_index .entries hgrows.represents hserves' t.root
    [.next, .skip 3, .previous, .reopen t.root, .hasNext, .toEnd, .next]
    (by simp [CursorCall.root?, hrefs, hkind])
  obtain ⟨es, s', c', hentries, -, rfl⟩ :=
    (BTree.entries_runs hgrows.represents hcontains.root).succeeds hserves'
  have hlist := hread t.root List.mem_cons_self
  rw [hentries] at hlist
  obtain hlist : _ = lists t.root := Except.ok.inj hlist
  refine ⟨t, s, c, hexec, hgrows.represents, hserves', hrefs, hkind, ?_⟩
  rw [hplay]
  simp [CursorIndex.play, CursorIndex.call, CursorIndex.here?, CursorIndex.before?,
    CursorIndex.succ, CursorIndex.pred, ← hlist]

end Cursor
end PageTree
