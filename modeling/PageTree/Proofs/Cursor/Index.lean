import PageTree.Proofs.Cursor.Walk
import PageTree.Proofs.Trees

/-!
# Skipping, and cursors over the entries of a tree

Under a scheme that enters every subtree a cursor stands between single entries.  A skip passes
over the subtrees that end before its target, and then over slots, so that it moves over as many
entries as it is asked for, or over all that are left (`skip_moves`).

Under a policy that yields every entry (`Policy.YieldsAll`) a cursor over a tree stands between
the entries that the leaves of the tree hold (`Cursor.Between`).  Each move gives the entry that
it passes and leads to the gap behind it, and a move that fails leaves the cursor in its gap.
-/

namespace PageTree

/-! ## Skipping -/

section Skips

open StoreM

variable {ι : Type}

namespace Stretch

/-- Stretches of one entry each. -/
theorem total_of_entries {l : List (Stretch ι)} (hentries : ∀ x ∈ l, x.entries = 1) :
    total l = l.length := by
  rw [total, List.map_congr_left hentries, List.map_const', List.sum_replicate_nat, Nat.mul_one]

end Stretch

theorem Frame.size_of_leaf {f : Frame} {page : LivePage} (hleaf : f.leaf? = some page) :
    f.size = page.arity := by
  obtain ⟨node, gap, entered, childDepth⟩ := f
  cases node with
  | root r => cases hleaf
  | page copy =>
      obtain ⟨⟨⟩, -⟩ := Option.filter_eq_some_iff.1 hleaf
      rfl

namespace FrameNode

variable {c : Chart} {scheme : Scheme ι} {f : Frame} {page : LivePage}
  {parts : List (List (Stretch ι))} {index count : Nat}

/-- So many slots of a leaf are as many entries. -/
theorem Shows.total_slots (hshows : f.node.Shows c scheme f.childDepth parts)
    (hleaf : f.leaf? = some page) (hle : index + count ≤ f.size) :
    Stretch.total ((parts.drop index).take count).flatten = count := by
  obtain ⟨node, gap, entered, childDepth⟩ := f
  cases node with
  | root r => cases hleaf
  | page copy =>
      obtain ⟨⟨⟩, hnode⟩ := Option.filter_eq_some_iff.1 hleaf
      rw [Bool.not_eq_true'] at hnode
      change index + count ≤ copy.page.arity at hle
      rw [(shows_of_leaf hnode).1 hshows, ← List.map_drop, ← List.map_take, ← List.flatMap_def,
        List.flatMap_singleton', Stretch.total_of_entries, List.length_take, List.length_drop,
        Chart.slotStretches, List.length_map, List.length_range]
      · omega
      · intro x hx
        have hmem := List.mem_of_mem_drop (List.mem_of_mem_take hx)
        obtain ⟨_, -, rfl⟩ := List.mem_map.1 hmem
        rfl

end FrameNode

namespace Cursor

variable {s : Store} {c c' : Chart} {scheme : Scheme ι} {slot : PageBody Unit → Nat → Option ι}
  {r : PageRef} {k k' : Cursor ι} {before after : List (Stretch ι)} {target : Nat}

open CursorM (Progress)

/-- The cursor passes over items of its innermost frame, up to another gap. -/
theorem StandsIn.onward {f : Frame} {outer : List Frame} {i n : Nat}
    {parts : List (List (Stretch ι))} (hin : k.StandsIn c scheme r f outer parts before after)
    (hlt : f.index < i) (hle : i ≤ f.size)
    (hn : Stretch.total ((parts.drop f.index).take (i - f.index)).flatten = n)
    (hk' : k' = { k.setTop { f with index := i } with position := k.position + n }) :
    k'.work .forward < k.work .forward ∧ ∃ xs after', after = xs ++ after' ∧
      Stretch.total xs = n ∧ k'.Stands c scheme r (before ++ xs) after' := by
  subst hk'
  obtain ⟨after', hafter, hwithin'⟩ := hin.within.forth (Nat.le_of_lt hlt)
  refine ⟨work_onward hin.stack hin.entered hlt hle, _, after', hafter, hn, hin.follows, ?_,
    { f with index := i }, outer, parts, ?_, hin.entered, hin.shows, ?_, hwithin'⟩
  · rw [Stretch.total_append, ← hin.position, hn]
  · simp [setTop, hin.stack]
  · rwa [hin.length_eq]

/-- What a step of a skip comes to. -/
def Nears (target : Nat) (scheme : Scheme ι) (r : PageRef) (k : Cursor ι)
    (before after : List (Stretch ι)) : Progress Unit → Cursor ι → Chart → Prop
  | .goesOn, k', c' => k'.work .forward < k.work .forward ∧ ∃ xs after', after = xs ++ after' ∧
      Stretch.total (before ++ xs) ≤ target ∧ k'.Stands c' scheme r (before ++ xs) after'
  | .ends _, k', c' => (Stretch.total before = target ∨ after = []) ∧
      k'.Stands c' scheme r before after

/-- A cursor that has come forward without passing over anything nears the target. -/
theorem nears_of_stands (hless : k'.work .forward < k.work .forward)
    (htarget : Stretch.total before ≤ target) (hstands : k'.Stands c scheme r before after) :
    Nears target scheme r k before after .goesOn k' c := by
  refine ⟨hless, [], after, rfl, ?_⟩
  rw [List.append_nil]
  exact ⟨htarget, hstands⟩

namespace StandsIn

variable {f : Frame} {outer : List Frame} {parts : List (List (Stretch ι))}

/-- At the end of its innermost frame, a skip leaves it for the one above. -/
theorem skip_leaving_moves (hrep : Represents s c)
    (hin : k.StandsIn c scheme r f outer parts before after)
    (htarget : Stretch.total before ≤ target) (hahead : f.ahead? .forward = none) :
    Moves (match k.leaving? .forward with
      | none => pure (.ends ())
      | some k => do
        set k
        return .goesOn) k s c (Nears target scheme r k before after) fun k' _ => k' = k := by
  rcases hin.leaving (hin.at_end hahead) with ⟨hnone, hrest⟩ | ⟨k', hsome, hless, hleft⟩
  · simp only [hnone]
    exact Moves.pure hrep ⟨Or.inr hrest, hin.stands⟩
  · simp only [hsome]
    exact Moves.set (Moves.pure hrep (nears_of_stands hless htarget hleft))

/-- In a leaf, a skip passes over as many slots as there are up to the target. -/
theorem skip_slots_moves (hrep : Represents s c)
    (hin : k.StandsIn c scheme r f outer parts before after) (hpos : k.position < target)
    (hlt : f.index < f.size) {page : LivePage} (hleaf : f.leaf? = some page) :
    Moves (do
        set { k.setTop { f with
            index := f.index + min (page.arity - f.index) (target - k.position) } with
          position := k.position + min (page.arity - f.index) (target - k.position) }
        return .goesOn) k s c (Nears target scheme r k before after) fun k' _ => k' = k := by
  have harity := Frame.size_of_leaf hleaf
  have hposition := hin.position
  have hslots : Stretch.total ((parts.drop f.index).take
      (min (page.arity - f.index) (target - k.position))).flatten =
        min (page.arity - f.index) (target - k.position) :=
    hin.shows.total_slots hleaf (by omega)
  obtain ⟨hless, xs, after', hafter, htotal, hstands⟩ := hin.onward
    (i := f.index + min (page.arity - f.index) (target - k.position))
    (n := min (page.arity - f.index) (target - k.position))
    (by omega) (by omega) (by rwa [Nat.add_sub_cancel_left]) rfl
  refine Moves.set (Moves.pure hrep ⟨hless, xs, after', hafter, ?_, hstands⟩)
  rw [Stretch.total_append, htotal]
  omega

/-- In a node, a skip passes over a child that lies before the target as a whole, and enters the
one that the target lies in. -/
theorem skip_child_moves (hrep : Represents s c)
    (hin : k.StandsIn c (.enterAll slot) r f outer parts before after) (hpos : k.position < target)
    (hahead : f.ahead? .forward = some f.index) {child : PageRef} {part : List (Stretch ι)}
    (hrefs : c.refs child) (hpart : parts[f.index]? = some part)
    (hw : f.node.weights[f.index]? = some (child.treeSize + 1))
    (htours : c.Tours (.enterAll slot) (f.page?.map (Page.map PageRef.site)) f.index f.childDepth
      child.site part) :
    Moves (if child.span ≤ target - k.position then do
        set (k.passing f .forward child.span)
        return .goesOn
      else do
        set (k.entering f .forward f.index (← CursorM.ofStore child.pageCopy))
        return .goesOn) k s c (Nears target (.enterAll slot) r k before after)
      fun k' _ => k' = k := by
  have hposition := hin.position
  have hspan := htours.total (hrep.sound child hrefs)
  rw [PageRef.header_site] at hspan
  change Stretch.total part = child.span at hspan
  by_cases hwhole : child.span ≤ target - k.position
  · rw [if_pos hwhole]
    have hone : ((parts.drop f.index).take (f.index + 1 - f.index)).flatten = part := by
      obtain ⟨hlt', rfl⟩ := List.getElem?_eq_some_iff.1 hpart
      rw [Nat.add_sub_cancel_left, List.drop_eq_getElem_cons hlt']
      exact List.append_nil _
    obtain ⟨hless, xs, after', hafter, htotal, hstands⟩ := hin.onward (Nat.lt_succ_self f.index)
      (hin.near hahead).2 (by rw [hone, hspan]) (rfl : k.passing f .forward child.span = _)
    refine Moves.set (Moves.pure hrep ⟨hless, xs, after', hafter, ?_, hstands⟩)
    rw [Stretch.total_append, htotal]
    omega
  · rw [if_neg hwhole]
    refine (hin.entering_moves hrep hahead hrefs hpart hw ?_).mono ?_ fun _ _ _ _ hsame => hsame
    · intro c' copy hle hpage hchildren
      -- the scheme enters everything
      rcases htours.cases hin.follows with ⟨hvisit, -⟩ | ⟨_, hvisit, -⟩ | ⟨-, henter⟩
      · cases hvisit
      · cases hvisit
      · exact henter c' copy hle hpage hchildren
    · rintro _ k' s' c' - ⟨rfl, hless, hstands⟩
      exact nears_of_stands hless (by omega) hstands

end StandsIn

/-- A step of a skip does not go beyond the target. -/
theorem Stands.stepTo_moves (hrep : Represents s c)
    (hstands : k.Stands c (.enterAll slot) r before after)
    (htarget : Stretch.total before ≤ target) :
    Moves (CursorM.stepTo target) k s c (Nears target (.enterAll slot) r k before after)
      fun k' _ => k' = k := by
  refine Moves.get ?_
  by_cases hdone : target ≤ k.position
  · rw [if_pos hdone]
    exact Moves.pure hrep ⟨Or.inl (Nat.le_antisymm htarget (hstands.position ▸ hdone)), hstands⟩
  rw [if_neg hdone]
  obtain ⟨f, outer, parts, hin⟩ := hstands.exists_in
  simp only [hin.stack, List.head?_cons]
  cases hahead : f.ahead? .forward with
  | none => exact hin.skip_leaving_moves hrep htarget hahead
  | some index =>
      obtain ⟨hnear, hlt⟩ := hin.near hahead
      obtain rfl : index = f.index := hnear.symm
      cases hleaf : f.leaf? with
      | some page => exact hin.skip_slots_moves hrep (Nat.not_le.1 hdone) hlt hleaf
      | none =>
          obtain ⟨child, part, hchild, hrefs, hpart, htours, hw⟩ := hin.shows.child hleaf hlt
          simp only [hchild]
          exact hin.skip_child_moves hrep (Nat.not_le.1 hdone) hahead hrefs hpart hw htours

/-- Where a skip is on its way to its target. -/
def Skips (target : Nat) (scheme : Scheme ι) (r : PageRef) (before after : List (Stretch ι))
    (k : Cursor ι) (c : Chart) : Prop :=
  ∃ xs after', after = xs ++ after' ∧ Stretch.total (before ++ xs) ≤ target ∧
    k.Stands c scheme r (before ++ xs) after'

theorem Skips.trans {xs after' : List (Stretch ι)} (hafter : after = xs ++ after')
    (hskips : Skips target scheme r (before ++ xs) after' k c) :
    Skips target scheme r before after k c := by
  obtain ⟨ys, after'', rfl, hle, hstands⟩ := hskips
  rw [List.append_assoc] at hle hstands
  exact ⟨xs ++ ys, after'', by rw [hafter, List.append_assoc], hle, hstands⟩

/-- A walk to a target ends there, or at the end. -/
theorem Stands.walkTo_moves (hrep : Represents s c)
    (hstands : k.Stands c (.enterAll slot) r before after)
    (htarget : Stretch.total before ≤ target) {steps : Nat} (hsteps : k.work .forward < steps) :
    Moves (CursorM.walk (CursorM.stepTo target) steps) k s c
      (fun _ k' c' => Skips target (.enterAll slot) r before after k' c' ∧
        k'.position = min target (Stretch.total (before ++ after)))
      (Skips target (.enterAll slot) r before after) := by
  induction steps generalizing k s c before after with
  | zero => exact absurd hsteps (Nat.not_lt_zero _)
  | succ steps ih =>
      -- a step that fails leaves the cursor where it is, so it has skipped nothing
      have hstep : Moves (CursorM.stepTo target) k s c
          (Nears target (.enterAll slot) r k before after)
          (Skips target (.enterAll slot) r before after) := by
        refine (hstands.stepTo_moves hrep htarget).mono (fun _ _ _ _ _ hpost => hpost) ?_
        rintro _ s' c' hgrows rfl
        refine ⟨[], after, rfl, ?_⟩
        rw [List.append_nil]
        exact ⟨htarget, hstands.mono hgrows.le⟩
      refine hstep.bind ?_
      rintro (_ | _) k' s' c' hgrows hpost
      · obtain ⟨hless, xs, after', rfl, htarget', hstands'⟩ := hpost
        refine (ih hgrows.represents hstands' htarget' (by omega)).mono ?_ ?_
        · rintro _ _ _ _ _ ⟨hskips, hposition⟩
          rw [List.append_assoc] at hposition
          exact ⟨hskips.trans rfl, hposition⟩
        · intro _ _ _ _ hskips
          exact hskips.trans rfl
      · obtain ⟨hend, hstands'⟩ := hpost
        refine Moves.pure hgrows.represents ⟨⟨[], after, rfl, ?_⟩, ?_⟩
        · rw [List.append_nil]
          exact ⟨htarget, hstands'⟩
        · rw [hstands'.position, Stretch.total_append]
          rcases hend with hend | rfl
          · omega
          · rw [Stretch.total_nil]
            omega

/-- To skip a number of entries is to move over so many of them, or over all that are left. -/
theorem Stands.skip_moves (hrep : Represents s c)
    (hstands : k.Stands c (.enterAll slot) r before after) (count : Nat) :
    Moves (CursorM.skip count) k s c
      (fun n k' c' => ∃ xs after', after = xs ++ after' ∧
        Stretch.total xs = min count (Stretch.total after) ∧ n = Stretch.total xs ∧
          k'.Stands c' (.enterAll slot) r (before ++ xs) after')
      (Skips (Stretch.total before + count) (.enterAll slot) r before after) := by
  refine Moves.get (hstands.stepBound_moves hrep count ?_)
  intro steps hsteps
  have hwalk : Moves (CursorM.walk (CursorM.stepTo (Stretch.total before + count)) steps) k s c
      _ _ := hstands.walkTo_moves hrep (Nat.le_add_right _ _)
    (Nat.lt_of_le_of_lt (hstands.work_le .forward) hsteps)
  rw [hstands.position]
  refine hwalk.bind ?_
  rintro _ k' s' c' hgrows ⟨⟨xs, after', rfl, -, hstands'⟩, hposition⟩
  refine Moves.get (Moves.pure hgrows.represents ⟨xs, after', rfl, ?_, ?_, hstands'⟩)
  · rw [hstands'.position] at hposition
    simp only [Stretch.total_append] at hposition ⊢
    omega
  · rw [hstands'.position, Stretch.total_append, Nat.add_sub_cancel_left]

end Cursor

end Skips

open StoreM

variable {ι : Type}

/-! ## The entries of a tree -/

/-- A policy that enters all of a tree of some kind and yields what its leaves hold. -/
structure Policy.YieldsAll (policy : Policy ι) (kind : TreeKind)
    (itemsOf : PageBody Unit → List ι) : Prop where
  visit : policy.visit = Policy.enterAll
  slot : ∀ page index, policy.slot page index = (itemsOf page.body.shape)[index]?
  length : ∀ p : Page Site, p.treeKind = kind → p.isNode = false →
    (itemsOf p.body.shape).length = p.arity

/-- The scheme that yields what leaves hold. -/
def Scheme.items (itemsOf : PageBody Unit → List ι) : Scheme ι :=
  .enterAll fun body index => (itemsOf body)[index]?

section YieldsAll

variable {policy : Policy ι} {kind : TreeKind} {itemsOf : PageBody Unit → List ι} {c : Chart}
  {n : Site} {depth : Nat}

theorem Policy.YieldsAll.follows (hall : policy.YieldsAll kind itemsOf) :
    policy.Follows (.items itemsOf) := by
  obtain ⟨visit, slot⟩ := policy
  obtain ⟨rfl, hslot, -⟩ := hall
  exact Policy.follows_enterAll hslot

/-- What a leaf holds is yielded one entry at a time. -/
theorem Chart.slotStretches_items {body : PageBody Unit} {arity : Nat}
    (hlength : (itemsOf body).length = arity) :
    slotStretches (.items itemsOf) body arity = (itemsOf body).map Stretch.single := by
  refine List.ext_getElem (by simp [slotStretches, hlength]) ?_
  intro index _ hindex
  rw [List.length_map] at hindex
  simp [slotStretches, Scheme.items, Scheme.enterAll, Stretch.single, hindex]

/-- A tree has leaves, and what they hold is what there is to pass. -/
theorem Chart.Sound.exists_reads (hall : policy.YieldsAll kind itemsOf) (hsound : c.Sound n)
    (hkind : ∀ p, c.page n = some p → p.treeKind = kind) (hdepth : n.header.area < depth) :
    ∃ shapes, c.Reads depth n shapes ∧ ∀ parent index d,
      c.Tours (.items itemsOf) parent index d n ((shapes.flatMap itemsOf).map Stretch.single) := by
  -- a child has less area than its parent, so the depth suffices
  induction depth generalizing n with
  | zero => exact absurd hdepth (Nat.not_lt_zero _)
  | succ depth ih =>
      obtain ⟨p, hpage⟩ := hsound.page
      cases hnode : p.isNode with
      | false =>
          refine ⟨[p.body.shape], ⟨p, hpage, Or.inl ⟨hnode, rfl⟩⟩, ?_⟩
          intro parent index d
          have hlength := hall.length p (hkind p hpage) hnode
          rw [List.flatMap_singleton, ← slotStretches_items hlength]
          exact .leaf rfl hpage hnode
      | true =>
          obtain ⟨parts, hparts⟩ := exists_forall₂ (l := p.children) (R := fun m shapes =>
            c.Reads depth m shapes ∧ ∀ parent index d, c.Tours (.items itemsOf) parent index d m
              ((shapes.flatMap itemsOf).map Stretch.single)) (by
            intro m hm
            have hlt := hsound.area_lt hpage hm
            refine ih (hsound.child hpage hm) ?_ (by omega)
            intro q hq
            obtain ⟨q', hq', hcovers⟩ := hsound.covers hpage hm
            rw [hq] at hq'
            cases hq'
            exact hcovers.treeKind.trans (hkind p hpage))
          refine ⟨parts.flatten,
            ⟨p, hpage, Or.inr ⟨hnode, parts, hparts.imp fun _ _ h => h.1, rfl⟩⟩, ?_⟩
          intro parent index d
          have hstretches : ((parts.flatten.flatMap itemsOf).map Stretch.single) =
              (parts.map fun shapes => (shapes.flatMap itemsOf).map Stretch.single).flatten := by
            simp only [List.flatMap_def, List.map_flatten, List.map_map, List.flatten_flatten,
              Function.comp_def]
          rw [hstretches]
          refine .node rfl hpage hnode _ (by rw [List.length_map, hparts.length_eq]) ?_
          intro i h h'
          rw [List.length_map] at h'
          simpa using (hparts.get h h').2 (some p) i (d + 1)

end YieldsAll

/-! ## Gaps between entries -/

namespace Stretch

theorem silent_map_single {items : List ι} : Silent (items.map single) ↔ items = [] := by
  constructor
  · intro hsilent
    cases items with
    | nil => rfl
    | cons item items => cases hsilent (single item) (by simp)
  · rintro rfl
    exact silent_nil

end Stretch

namespace Cursor

variable {s s' : Store} {c c' : Chart} {policy : Policy ι} {itemsOf : PageBody Unit → List ι}
  {r : PageRef} {k k' : Cursor ι} {front back : List ι}

/-- The cursor stands between entries of a tree. -/
def Between (k : Cursor ι) (c : Chart) (itemsOf : PageBody Unit → List ι) (r : PageRef)
    (front back : List ι) : Prop :=
  k.Stands c (.items itemsOf) r (front.map Stretch.single) (back.map Stretch.single)

namespace Between

theorem mono (hbetween : k.Between c itemsOf r front back) (hle : c ≤ c') :
    k.Between c' itemsOf r front back :=
  Stands.mono hbetween hle

theorem position (hbetween : k.Between c itemsOf r front back) :
    k.position = front.length := by
  rw [Stands.position hbetween, Stretch.total_map_single]

/-- Between entries a walk passes none for which nothing is yielded. -/
theorem of_strays {d : Direction} (hstrays : Strays d (.items itemsOf) r
    (front.map Stretch.single) (back.map Stretch.single) k c) :
    k.Between c itemsOf r front back := by
  obtain ⟨xs, hsilent, before', after', htravels, hstands⟩ := hstrays
  cases d with
  | forward =>
      obtain ⟨hback, rfl⟩ := htravels
      obtain ⟨passed, rest, rfl, rfl, rfl⟩ := List.map_eq_append_iff.1 hback
      obtain rfl := Stretch.silent_map_single.1 hsilent
      simpa [Between] using hstands
  | backward =>
      obtain ⟨hfront, rfl⟩ := htravels
      obtain ⟨rest, passed, rfl, rfl, hpassed⟩ := List.map_eq_append_iff.1 hfront
      obtain rfl : passed = [] := by
        rw [← Stretch.silent_map_single, hpassed]
        exact fun x hx => hsilent x (List.mem_reverse.1 hx)
      obtain rfl : xs = [] := by simpa using hpassed.symm
      simpa [Between] using hstands

/-- To advance past the next entry gives it. -/
theorem next_moves (hrep : Represents s c) (hbetween : k.Between c itemsOf r front back) :
    Moves CursorM.next k s c
      (fun item? k' c' => item? = back.head? ∧
        k'.Between c' itemsOf r (front ++ back.head?.toList) back.tail)
      (fun k' c' => k'.Between c' itemsOf r front back) := by
  refine (Stands.advance_moves hrep hbetween .forward).mono ?_
    fun _ _ _ _ hstrays => of_strays hstrays
  rintro (_ | item) k' s' c' - harrives
  · obtain ⟨hsilent, before', after', htravels, hstands⟩ := harrives
    obtain rfl := Stretch.silent_map_single.1 hsilent
    obtain ⟨hafter, rfl⟩ := htravels
    obtain rfl : after' = [] := by simpa [Direction.rest] using hafter.symm
    exact ⟨rfl, by simpa [Between, Direction.rest] using hstands⟩
  · obtain ⟨xs, n, hsilent, before', after', ⟨hback, rfl⟩, hstands⟩ := harrives
    obtain ⟨passed, rest, rfl, hpassed, rfl⟩ := List.map_eq_append_iff.1 hback
    obtain ⟨silent, last, rfl, rfl, hlast⟩ := List.map_eq_append_iff.1 hpassed
    obtain rfl := Stretch.silent_map_single.1 hsilent
    obtain ⟨item', rfl, hitem⟩ := List.map_eq_singleton_iff.1 hlast
    cases hitem
    exact ⟨rfl, by simpa [Between, Stretch.single] using hstands⟩

/-- To go back past the entry before gives it. -/
theorem previous_moves (hrep : Represents s c) (hbetween : k.Between c itemsOf r front back) :
    Moves CursorM.previous k s c
      (fun item? k' c' => item? = front.getLast? ∧
        k'.Between c' itemsOf r front.dropLast (front.getLast?.toList ++ back))
      (fun k' c' => k'.Between c' itemsOf r front back) := by
  refine (Stands.advance_moves hrep hbetween .backward).mono ?_
    fun _ _ _ _ hstrays => of_strays hstrays
  rintro (_ | item) k' s' c' - harrives
  · obtain ⟨hsilent, before', after', htravels, hstands⟩ := harrives
    obtain rfl : front = [] := by
      rw [← Stretch.silent_map_single]
      exact fun x hx => hsilent x (List.mem_reverse.2 hx)
    obtain ⟨hbefore, rfl⟩ := htravels
    obtain rfl : before' = [] := by simpa [Direction.rest] using hbefore
    exact ⟨rfl, by simpa [Between, Direction.rest] using hstands⟩
  · obtain ⟨xs, n, hsilent, before', after', ⟨hfront, rfl⟩, hstands⟩ := harrives
    obtain ⟨rest, passed, rfl, rfl, hpassed⟩ := List.map_eq_append_iff.1 hfront
    rw [List.reverse_append, List.reverse_singleton] at hpassed
    obtain ⟨first, silent, rfl, hfirst, hrest⟩ := List.map_eq_append_iff.1 hpassed
    obtain rfl : silent = [] := by
      rw [← Stretch.silent_map_single, hrest]
      exact fun x hx => hsilent x (List.mem_reverse.1 hx)
    obtain rfl : xs = [] := by simpa using hrest.symm
    obtain ⟨item', rfl, hitem⟩ := List.map_eq_singleton_iff.1 hfirst
    cases hitem
    exact ⟨by simp, by simpa [Between, Stretch.single] using hstands⟩

/-- To skip a number of entries is to move over so many of them, or over all that are left.  A
skip that fails has moved over some of these. -/
theorem skip_moves (hrep : Represents s c) (hbetween : k.Between c itemsOf r front back)
    (count : Nat) :
    Moves (CursorM.skip count) k s c
      (fun n k' c' => n = min count back.length ∧
        k'.Between c' itemsOf r (front ++ back.take count) (back.drop count))
      (fun k' c' => ∃ n, n ≤ min count back.length ∧
        k'.Between c' itemsOf r (front ++ back.take n) (back.drop n)) := by
  refine (Stands.skip_moves hrep hbetween count).mono ?_ ?_
  · rintro n k' s' c' - ⟨xs, after', hback, htotal, rfl, hstands⟩
    obtain ⟨passed, rest, rfl, rfl, rfl⟩ := List.map_eq_append_iff.1 hback
    rw [Stretch.total_map_single, Stretch.total_map_single] at htotal
    rw [Stretch.total_map_single]
    refine ⟨htotal, ?_⟩
    -- each stretch is one item here, so as many items are passed as stretches
    have hdrop : (passed ++ rest).drop count = rest ∧ (passed ++ rest).take count = passed := by
      rw [List.length_append] at htotal
      by_cases hcount : count = passed.length
      · subst hcount
        exact ⟨List.drop_left, List.take_left⟩
      · obtain rfl : rest = [] := by
          rw [← List.length_eq_zero_iff]
          omega
        have hle : passed.length ≤ count := by omega
        rw [List.append_nil]
        exact ⟨List.drop_of_length_le hle, List.take_of_length_le hle⟩
    rw [hdrop.1, hdrop.2, Between, List.map_append]
    exact hstands
  · rintro k' s' c' - ⟨xs, after', hback, htotal, hstands⟩
    obtain ⟨passed, rest, rfl, rfl, rfl⟩ := List.map_eq_append_iff.1 hback
    rw [Stretch.total_append, Stretch.total_map_single, Stretch.total_map_single] at htotal
    refine ⟨passed.length, ?_, ?_⟩
    · rw [List.length_append]
      omega
    · rw [List.take_left, List.drop_left, Between, List.map_append]
      exact hstands

/-- The cursor at the end stands behind all entries. -/
theorem toEnd (hrep : Represents s c) (hbetween : k.Between c itemsOf r front back) :
    k.toEnd.Between c itemsOf r (front ++ back) [] := by
  have hstands := Stands.toEnd hrep hbetween
  simpa [Between] using hstands

end Between
end Cursor

end PageTree
