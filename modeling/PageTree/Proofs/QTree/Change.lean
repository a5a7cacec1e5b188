import PageTree.Proofs.QTree.Lookup

/-!
# Changing slots of a Q-tree

A change descends to one leaf.  The child that it enters is the one that has the key, if any has
it; then no other child does, and the change of the whole is the change of that child
(`targetChild_runs`).  So the slots of the rebuilt node are those of the old one after the change
(`updated_runs`).
-/

namespace PageTree
namespace QTree

open Slots
open BTree (Realm)

variable {W : Type} [Terrain W] {s : Store} {w : W} {height stem version : Nat}
  {slots slots' : List Slot} {r r' : PageRef} {key value : Value} {point : Point}

/-! ## Finding the child -/

/-- The child at an index, with those before and behind it. -/
theorem Row.cut {children : List PageRef} {parts : List (List Slot)}
    (hrow : Row w height stem version children parts) {index : Nat}
    (hindex : index < children.length) :
    ∃ as child bs ps part rs, children = as ++ child :: bs ∧ parts = ps ++ part :: rs ∧
      Row w height stem version as ps ∧
      (part ≠ [] ∧ Terrain.Branch w height stem version child part) ∧
      Row w height stem version bs rs ∧ index = as.length := by
  have hsplit : children = children.take index ++ children[index] :: children.drop (index + 1) := by
    rw [← List.drop_eq_getElem_cons hindex, List.take_append_drop]
  unfold Row at hrow
  rw [hsplit] at hrow
  obtain ⟨ps, qs, rfl, has, hqs⟩ := exists_of_forall₂_append hrow
  obtain ⟨part, rs, hchild, hbs, rfl⟩ := List.forall₂_cons_left_iff.1 hqs
  exact ⟨_, _, _, ps, part, rs, hsplit, rfl, has, hchild, hbs, by
    rw [List.length_take, Nat.min_eq_left (Nat.le_of_lt hindex)]⟩

/-- Some child grows least, if there are any. -/
theorem leastGrowing_spec (point : Point) (children : List PageRef) (hne : children ≠ []) :
    ∃ index best, leastGrowing? point children = some (index, best) ∧
      index < children.length := by
  induction children with
  | nil => exact absurd rfl hne
  | cons child children ih =>
      unfold leastGrowing?
      cases children with
      | nil => exact ⟨0, child, rfl, by simp⟩
      | cons next rest =>
          obtain ⟨index, best, hbest, hlt⟩ := ih (List.cons_ne_nil _ _)
          simp only [hbest]
          split
          · exact ⟨0, child, rfl, by simp⟩
          · exact ⟨index + 1, best, rfl, by simpa using hlt⟩

/-- The holder of a key at a point is the child that has the slot. -/
theorem holder_runs (hrep : Realm.Represents s w) {children : List PageRef}
    {parts : List (List Slot)} (hrow : Row w height stem version children parts)
    (hplaced : WellPlaced parts.flatten)
    (key : Value) (point : Point) :
    Realm.Runs (holder? children key point) s w fun found _ _ =>
      (found = none → ∀ slot ∈ parts.flatten, ¬ slot.IsAt key point) ∧
        ∀ index, found = some index → ∃ child part, children[index]? = some child ∧
          Terrain.Branch w height stem version child part ∧ ∃ slot ∈ part, slot.IsAt key point := by
  unfold holder?
  refine Realm.mono (findSomeM_runs (R := fun child found => ∃ part ∈ parts,
    Terrain.Branch w height stem version child.1 part ∧
      (found = none → ∀ slot ∈ part, ¬ slot.IsAt key point) ∧
      ∀ index, found = some index → index = child.2 ∧ ∃ slot ∈ part, slot.IsAt key point)
    hrep _ ?_) ?_
  · rintro ⟨child, index⟩ hmem s' w' hgrows
    have hchild : child ∈ children := List.fst_mem_of_mem_zipIdx hmem
    obtain ⟨part, hpart, -, hbranch⟩ := Filled.part_of_mem hrow hchild
    have hbranch' := Terrain.branch_grows hgrows hbranch
    have hplaced' : WellPlaced part := hplaced.sublist (List.sublist_flatten_of_mem hpart)
    refine Realm.ite ?_ ?_
    · intro _
      refine Realm.bind (find_runs (Realm.represents hgrows) hplaced' hbranch' key point) ?_
      intro found s'' w'' hgrows' hfinds
      refine Realm.pure (Realm.represents hgrows') ⟨part, hpart, hbranch, ?_, ?_⟩
      · intro hnone
        rw [Option.map_eq_none_iff] at hnone
        rw [hnone] at hfinds
        exact hfinds.none
      · intro index' hsome
        obtain ⟨slot, hslot, rfl⟩ := Option.map_eq_some_iff.1 hsome
        exact ⟨rfl, slot, (hfinds slot).1 hslot⟩
    · -- the tiles of a child contain its points, so a child beside the point is not searched
      intro houtside
      refine Realm.pure (Realm.represents hgrows) ⟨part, hpart, hbranch, ?_, by simp⟩
      intro _ slot hslot hat
      have hwithin := Terrain.isWithin (Realm.represents hgrows) hbranch' hplaced'.valid hslot
      rw [hat.2] at hwithin
      exact houtside hwithin
  · rintro found s' w' - ⟨hnone, hsome⟩
    refine ⟨?_, ?_⟩
    · intro hfound slot hslot
      obtain ⟨part, hpart, hmem⟩ := List.mem_flatten.1 hslot
      obtain ⟨child, hchild, hbranch⟩ := Filled.child_of_mem hrow hpart
      obtain ⟨index, hlt, hget⟩ := List.getElem_of_mem hchild
      have hzip : (child, index) ∈ children.zipIdx := by
        rw [List.mem_zipIdx_iff_getElem?, List.getElem?_eq_getElem hlt, hget]
      obtain ⟨part', -, hbranch', hnone', -⟩ := hnone hfound _ hzip
      obtain rfl := Terrain.branch_unique hrep hbranch hbranch'
      exact hnone' rfl slot hmem
    · intro index hfound
      obtain ⟨⟨child, i⟩, hmem, part, -, hbranch, -, hsome'⟩ := hsome index hfound
      obtain ⟨rfl, hslot⟩ := hsome' index rfl
      exact ⟨child, part, List.mem_zipIdx_iff_getElem?.1 hmem, hbranch, hslot⟩

/-- Only the part at an index may have slots of a key. -/
def OnlyAt (key : Value) (parts : List (List Slot)) (index : Nat) : Prop :=
  ∀ ps part rs, parts = ps ++ part :: rs → ps.length = index →
    (∀ slot ∈ ps.flatten, slot.key ≠ key) ∧ ∀ slot ∈ rs.flatten, slot.key ≠ key

/-- A key that is nowhere is only wherever one likes. -/
theorem onlyAt_of_absent {parts : List (List Slot)}
    (hnowhere : ∀ slot ∈ parts.flatten, slot.key ≠ key) (index : Nat) :
    OnlyAt key parts index := by
  rintro ps part rs rfl -
  rw [List.flatten_append, List.flatten_cons] at hnowhere
  exact ⟨fun slot hslot => hnowhere slot (by simp [hslot]),
    fun slot hslot => hnowhere slot (by simp [hslot])⟩

/-- A child that has a slot of a key leaves none to its siblings, since keys are at one point. -/
theorem Row.onlyAt (hrep : Realm.Represents s w) {children : List PageRef}
    {parts : List (List Slot)} (hrow : Row w height stem version children parts)
    (hplaced : WellPlaced parts.flatten) {index : Nat} {child : PageRef} {part : List Slot}
    (hget : children[index]? = some child)
    (hbranch : Terrain.Branch w height stem version child part) {slot : Slot} (hslot : slot ∈ part)
    (hkey : slot.key = key) : OnlyAt key parts index := by
  rintro ps part' rs rfl hlength
  -- the part at the index is that of the child with the slot
  obtain ⟨as, child', bs, ps', part'', rs', rfl, hparts, has, hchild', -, rfl⟩ :=
    hrow.cut (List.getElem?_eq_some_iff.1 hget).1
  have hps : ps'.length = ps.length := by
    rw [← List.Forall₂.length_eq has, hlength]
  obtain ⟨rfl, htail⟩ := List.append_inj hparts hps.symm
  obtain ⟨rfl, rfl⟩ := List.cons.inj htail
  obtain rfl : child = child' := by simpa using hget.symm
  obtain rfl := Terrain.branch_unique hrep hbranch hchild'.2
  rw [List.flatten_append, List.flatten_cons] at hplaced
  refine ⟨?_, ?_⟩
  · intro slot' hslot' hkey'
    exact hplaced.key_ne hslot' (List.mem_append_left _ hslot) (hkey'.trans hkey.symm)
  · intro slot' hslot' hkey'
    rw [← List.append_assoc] at hplaced
    exact hplaced.key_ne (List.mem_append_right _ hslot) hslot' (hkey.trans hkey'.symm)

/-- The child to change, if there is one to change, leaves no slot of the key to its siblings. -/
theorem targetChild_runs (hrep : Realm.Represents s w) {children : List PageRef}
    {parts : List (List Slot)} (hrow : Row w height stem version children parts)
    (hne : children ≠ []) (hplaced : WellPlaced parts.flatten) (isInsert : Bool)
    (hhome : isInsert = true → ∀ slot ∈ parts.flatten, slot.key = key →
      Point.ofSlot slot = point) :
    Realm.Runs (targetChild? children key point isInsert) s w fun found _ _ =>
      (found = none → isInsert = false ∧ ∀ slot ∈ parts.flatten, ¬ slot.IsAt key point) ∧
        ∀ index, found = some index → index < children.length ∧ OnlyAt key parts index := by
  unfold targetChild?
  refine Realm.bind (holder_runs hrep hrow hplaced key point) ?_
  rintro found s' w' hgrows ⟨hnone, hsome⟩
  have hrep' := Realm.represents hgrows
  cases found with
  | some index =>
      refine Realm.pure hrep' ⟨by simp, ?_⟩
      rintro index' ⟨⟩
      obtain ⟨child, part, hget, hbranch, slot, hslot, hat⟩ := hsome index rfl
      exact ⟨(List.getElem?_eq_some_iff.1 hget).1,
        hrow.onlyAt hrep hplaced hget hbranch hslot hat.1⟩
  | none =>
      have habsent := hnone rfl
      dsimp only
      refine Realm.ite ?_ ?_
      · intro hinsert
        -- the key is nowhere, so that any child will do
        have honly := onlyAt_of_absent fun slot hslot hkey =>
          habsent slot hslot ⟨hkey, hhome hinsert slot hslot hkey⟩
        split
        · next index hfind =>
            refine Realm.pure hrep' ⟨by simp, ?_⟩
            rintro index' ⟨⟩
            exact ⟨(List.findIdx?_eq_some_iff_getElem.1 hfind).1, honly index⟩
        · obtain ⟨index, best, hbest, hlt⟩ := leastGrowing_spec point children hne
          rw [hbest]
          refine Realm.pure hrep' ⟨by simp, ?_⟩
          rintro index' ⟨⟩
          exact ⟨hlt, honly index⟩
      · intro hremove
        exact Realm.pure hrep' ⟨fun _ => ⟨by simpa using hremove, habsent⟩, by simp⟩

/-- A row of children and their slots, cut at a child that a change enters.  No sibling has a slot
of the key, so that the change of all the slots is the change of those beneath the child. -/
structure ChangeCut (w : W) (height stem version : Nat) (key : Value) (point : Point)
    (value : Value) (children : List PageRef) (slots : List Slot) (as : List PageRef)
    (child : PageRef) (bs : List PageRef) (ps : List (List Slot)) (part : List Slot)
    (rs : List (List Slot)) : Prop where
  children_eq : children = as ++ child :: bs
  slots_eq : slots = ps.flatten ++ part ++ rs.flatten
  before : Row w height stem version as ps
  ne_nil : part ≠ []
  branch : Terrain.Branch w height stem version child part
  behind : Row w height stem version bs rs
  placed : WellPlaced part
  home : value.isDefined = true → ∀ slot ∈ part, slot.key = key → Point.ofSlot slot = point
  between : (change key point value slots).Perm
    (ps.flatten ++ change key point value part ++ rs.flatten)

theorem Row.changeCut {children : List PageRef} {parts : List (List Slot)}
    (hrow : Row w height stem version children parts) (hplaced : WellPlaced parts.flatten)
    (hhome : value.isDefined = true → ∀ slot ∈ parts.flatten, slot.key = key →
      Point.ofSlot slot = point) {index : Nat} (hindex : index < children.length)
    (honly : OnlyAt key parts index) :
    ∃ as child bs ps part rs, index = as.length ∧
      ChangeCut w height stem version key point value children parts.flatten as child bs ps part
        rs := by
  obtain ⟨as, child, bs, ps, part, rs, hchildren, rfl, has, ⟨hne, hchild⟩, hbs, rfl⟩ :=
    Row.cut hrow hindex
  obtain ⟨hbefore, hbehind⟩ := honly ps part rs rfl (List.Forall₂.length_eq has).symm
  have hflatten : (ps ++ part :: rs).flatten = ps.flatten ++ part ++ rs.flatten := by simp
  rw [hflatten] at hplaced hhome ⊢
  exact ⟨as, child, bs, ps, part, rs, rfl, {
    children_eq := hchildren
    slots_eq := rfl
    before := has
    ne_nil := hne
    branch := hchild
    behind := hbs
    placed := hplaced.sublist
      ((List.sublist_append_right _ _).trans (List.sublist_append_left _ _))
    home := fun hdefined slot hslot => hhome hdefined slot (by simp [hslot])
    between := change_between hbefore hbehind }⟩

namespace ChangeCut

variable {children as bs : List PageRef} {child : PageRef} {ps rs : List (List Slot)}
  {part : List Slot}

theorem getD (hcut : ChangeCut w height stem version key point value children slots as child bs ps
    part rs) (default : PageRef) : children.getD as.length default = child := by
  simp [hcut.children_eq]

theorem child_mem (hcut : ChangeCut w height stem version key point value children slots as child
    bs ps part rs) : child ∈ children := by
  simp [hcut.children_eq]

/-- The slots after the change are as well-placed as those before it. -/
theorem placed_after (hcut : ChangeCut w height stem version key point value children slots as
    child bs ps part rs) (hvalid : point.Valid) (hplaced : WellPlaced slots) :
    WellPlaced (ps.flatten ++ change key point value part ++ rs.flatten) :=
  (hplaced.change hvalid).perm hcut.between.symm

theorem grows {s' : Store} {w' : W} (hgrows : Realm.Grows s w s' w')
    (hcut : ChangeCut w height stem version key point value children slots as child bs ps part rs) :
    ChangeCut w' height stem version key point value children slots as child bs ps part rs := {
  hcut with
  before := Row.grows hgrows hcut.before
  branch := Terrain.branch_grows hgrows hcut.branch
  behind := Row.grows hgrows hcut.behind }

end ChangeCut

/-! ## Changing a slot -/

/-- Where a key is at no such point, there is nothing to take from it. -/
theorem change_of_absent (habsent : value.isDefined = false)
    (hnowhere : ∀ slot ∈ slots, ¬ slot.IsAt key point) : change key point value slots = slots := by
  rw [change, habsent, if_neg Bool.false_ne_true, List.filter_eq_self]
  exact fun slot hslot => by simpa using hnowhere slot hslot

/-- A new leaf. -/
theorem newLeaf_runs (hrep : Realm.Represents s w) (stem version : Nat) (hsorted : Sorted slots) :
    Realm.Runs (newLeaf version stem slots) s w fun r' _ w' =>
      Terrain.Branch w' 0 stem version r' slots := by
  have hholds : PageHolds (Terrain.Branch w) 0 ⟨version, stem, .qtreeLeaf slots⟩ slots :=
    ⟨hsorted, rfl⟩
  exact Realm.mono (Terrain.branch_ofPage hrep hholds) fun _ _ _ _ hmade => hmade.1

/-- A new node over a row. -/
theorem newNode_runs (hrep : Realm.Represents s w) {children : List PageRef}
    {parts : List (List Slot)} (hrow : Row w height stem version children parts) :
    Realm.Runs (newNode version stem children) s w fun r' _ w' =>
      Terrain.Branch w' (height + 1) stem version r' parts.flatten := by
  have hholds : PageHolds (Terrain.Branch w) (height + 1)
      ⟨version, stem, .qtreeNode children⟩ parts.flatten := ⟨children, parts, rfl, hrow, rfl⟩
  exact Realm.mono (Terrain.branch_ofPage hrep hholds) fun _ _ _ _ hmade => hmade.1

/-- What a change makes of a subtree.  The height only changes where a root without children
gets its first slot. -/
def Becomes (w : W) (height stem version : Nat) (slots : List Slot) (r' : PageRef)
    (after : List Slot) : Prop :=
  ∃ height' slots', Terrain.Branch w height' stem version r' slots' ∧ slots'.Perm after ∧
    (slots ≠ [] → height' = height)

/-- A node whose child has been rebuilt. -/
theorem rebuiltNode_runs (hrep : Realm.Represents s w) {as bs : List PageRef} {old : PageRef}
    {ps rs : List (List Slot)} {part after : List Slot} (has : Row w height stem version as ps)
    (hbs : Row w height stem version bs rs) (hne : part ≠ [])
    (hbecomes : Becomes w height stem version part r' after)
    (hplaced : WellPlaced (ps.flatten ++ after ++ rs.flatten)) :
    Realm.Runs (do
        newNode version stem (← rebalanceChild (as ++ old :: bs) as.length r' version)) s w
      fun r'' _ w' => ∃ slots', Terrain.Branch w' (height + 1) stem version r'' slots' ∧
        slots'.Perm (ps.flatten ++ after ++ rs.flatten) := by
  obtain ⟨height', slots', hbranch, hperm, hheight⟩ := hbecomes
  obtain rfl := hheight hne
  have hwhole : (ps.flatten ++ slots' ++ rs.flatten).Perm (ps.flatten ++ after ++ rs.flatten) :=
    (hperm.append_left _).append_right _
  refine Realm.bind
    (rebalanceChild_runs hrep has hbs hbranch (hplaced.perm hwhole).distinct) ?_
  rintro children s' w' hgrows ⟨parts, hrow, hparts⟩
  refine Realm.mono (newNode_runs (Realm.represents hgrows) hrow) ?_
  exact fun r'' s'' w'' _ hnode => ⟨parts.flatten, hnode, hparts.trans hwhole⟩

/-- A leaf stays if it has nothing to change, and is made again otherwise. -/
theorem updatedLeaf_runs (hrep : Realm.Represents s w)
    (hbranch : Terrain.Branch w 0 stem version r slots) (hsorted : Sorted slots) :
    Realm.Runs (match update? key point value slots with
      | some slots => newLeaf version stem slots
      | none => pure r) s w fun r' _ w' =>
      Becomes w' 0 stem version slots r' (change key point value slots) := by
  have hspec := update?_spec hsorted key point value
  cases hupdate : update? key point value slots with
  | some slots' =>
      rw [hupdate] at hspec
      refine Realm.mono (newLeaf_runs hrep stem version hspec.1) ?_
      exact fun r' s' w' _ hleaf => ⟨0, slots', hleaf, hspec.2, fun _ => rfl⟩
  | none =>
      rw [hupdate] at hspec
      exact Realm.pure hrep ⟨0, slots, hbranch, hspec, fun _ => rfl⟩

/-- A root without children gets a leaf for its first slot. -/
theorem updatedEmpty_runs (hrep : Realm.Represents s w)
    (hbranch : Terrain.Branch w height stem version r []) :
    Realm.Runs (if value.isDefined = true then
        newLeaf version stem [⟨key, point.x, point.y, value⟩]
      else pure r) s w fun r' _ w' =>
      Becomes w' height stem version [] r' (change key point value []) := by
  refine Realm.ite ?_ ?_
  · intro hdefined
    have hput : change key point value [] = [⟨key, point.x, point.y, value⟩] := by
      simp [change, hdefined]
    rw [hput]
    have hsingle := List.pairwise_singleton (fun a b : Slot =>
      Value.compare a.key b.key = .lt) ⟨key, point.x, point.y, value⟩
    refine Realm.mono (newLeaf_runs hrep stem version hsingle) ?_
    exact fun r' s' w' _ hleaf => ⟨0, _, hleaf, List.Perm.refl _, fun hne => absurd rfl hne⟩
  · intro habsent
    have herase : change key point value [] = [] := by
      simp [change, habsent]
    rw [herase]
    exact Realm.pure hrep ⟨height, [], hbranch, List.Perm.refl _, fun _ => rfl⟩

/-- A node stays if the child that a change enters has stayed, and is made again with what has
become of that child otherwise. -/
theorem updatedNode_runs (hrep : Realm.Represents s w) {children as bs : List PageRef}
    {child : PageRef} {ps rs : List (List Slot)} {part : List Slot} (hvalid : point.Valid)
    (hplaced : WellPlaced slots) (hbranch : Terrain.Branch w (height + 1) stem version r slots)
    (hcut : ChangeCut w height stem version key point value children slots as child bs ps part rs)
    (hbecomes : Becomes w height stem version part r' (change key point value part)) :
    Realm.Runs (if r'.same child = true then pure r
      else do newNode version stem (← rebalanceChild children as.length r' version)) s w
      fun r'' _ w' =>
        Becomes w' (height + 1) stem version slots r'' (change key point value slots) := by
  refine Realm.ite ?_ ?_
  · intro hstays
    -- the child has stayed as it is, so its slots are those after the change
    obtain ⟨height', part', hrebuilt, hperm, -⟩ := hbecomes
    obtain rfl := Terrain.branch_same hrep hrebuilt hcut.branch hstays
    refine Realm.pure hrep ⟨height + 1, _, hbranch, ?_, fun _ => rfl⟩
    have hwhole := ((hperm.append_left ps.flatten).append_right rs.flatten).trans
      hcut.between.symm
    rwa [← hcut.slots_eq] at hwhole
  · intro _
    rw [hcut.children_eq]
    refine Realm.mono (rebuiltNode_runs hrep hcut.before hcut.behind hcut.ne_nil hbecomes
      (hcut.placed_after hvalid hplaced)) ?_
    rintro r'' s' w' - ⟨slots', hnode, hperm⟩
    exact ⟨height + 1, slots', hnode, hperm.trans hcut.between.symm, fun _ => rfl⟩

/-- A value is put at a key and a point, or the key is taken from the point. -/
theorem updatedWithin_runs (hrep : Realm.Represents s w) (depth : Nat)
    (hdepth : r.treeSize < depth) (hvalid : point.Valid) (hplaced : WellPlaced slots)
    (hhome : value.isDefined = true → ∀ slot ∈ slots, slot.key = key → Point.ofSlot slot = point)
    (hbranch : Terrain.Branch w height stem version r slots) :
    Realm.Runs (updatedWithin key point value version depth r) s w fun r' _ w' =>
      Becomes w' height stem version slots r' (change key point value slots) := by
  induction depth generalizing s w height r slots with
  | zero => exact absurd hdepth (Nat.not_lt_zero _)
  | succ depth ih =>
      unfold updatedWithin
      refine Realm.bind (Terrain.branch_page hrep hbranch) ?_
      rintro page s' w' hgrows ⟨hpage, rfl, hversion, hholds⟩
      have hrep' := Realm.represents hgrows
      have hbranch' := Terrain.branch_grows hgrows hbranch
      cases height with
      | zero =>
          obtain ⟨hsorted, hbody⟩ := hholds
          simp only [hbody]
          exact updatedLeaf_runs hrep' hbranch' hsorted
      | succ height =>
          obtain ⟨children, parts, hbody, hrow, rfl⟩ := hholds
          simp only [hbody]
          cases children with
          | nil =>
              cases hrow
              exact updatedEmpty_runs hrep' hbranch'
          | cons first rest =>
              refine Realm.bind (targetChild_runs hrep' hrow (List.cons_ne_nil _ _) hplaced
                value.isDefined hhome) ?_
              rintro found s'' w'' hgrows' ⟨hnone, hsome⟩
              have hrep'' := Realm.represents hgrows'
              have hbranch'' := Terrain.branch_grows hgrows' hbranch'
              cases found with
              | none =>
                  -- no child is led to if there is nothing to take away
                  obtain ⟨habsent, hnowhere⟩ := hnone rfl
                  rw [change_of_absent habsent hnowhere]
                  exact Realm.pure hrep''
                    ⟨height + 1, _, hbranch'', List.Perm.refl _, fun _ => rfl⟩
              | some index =>
                  obtain ⟨hlt, honly⟩ := hsome index rfl
                  obtain ⟨as, child, bs, ps, part, rs, rfl, hcut⟩ :=
                    Row.changeCut (Row.grows hgrows' (Row.raise hrow hversion)) hplaced hhome hlt
                      honly
                  have hmem : child ∈ page.children := by
                    rw [Page.children_eq, hbody]
                    exact hcut.child_mem
                  have hlt' := Terrain.branch_treeSize_lt hrep' hbranch' hpage hmem
                  simp only [hcut.getD]
                  refine Realm.bind
                    (ih hrep'' (by omega) hcut.placed hcut.home hcut.branch) ?_
                  intro rebuilt s₃ w₃ hgrows'' hbecomes
                  exact updatedNode_runs (Realm.represents hgrows'') hvalid hplaced
                    (Terrain.branch_grows hgrows'' hbranch'') (hcut.grows hgrows'') hbecomes

/-- A value is put at a key and a point, where the key is at no other point, or the key is taken
from the point. -/
theorem updated_runs (hrep : Realm.Represents s w) (hvalid : point.Valid)
    (hplaced : WellPlaced slots)
    (hhome : value.isDefined = true → ∀ slot ∈ slots, slot.key = key → Point.ofSlot slot = point)
    (hroot : Root w stem version r slots) :
    Realm.Runs (updated r key point value version) s w fun r' _ w' =>
      Root w' stem version r' (change key point value slots) := by
  obtain ⟨height, slots', hbranch, hperm⟩ := hroot
  have hdepth := Store.treeSize_lt_depthBound s r
  have hhome' : value.isDefined = true → ∀ slot ∈ slots', slot.key = key →
      Point.ofSlot slot = point :=
    fun hdefined slot hslot => hhome hdefined slot (hperm.mem_iff.1 hslot)
  refine Realm.get (Realm.mono
    (updatedWithin_runs hrep _ hdepth hvalid (hplaced.perm hperm) hhome' hbranch) ?_)
  rintro r' s' w' - ⟨height', slots'', hbranch', hperm', -⟩
  exact ⟨height', slots'', hbranch', hperm'.trans (change_perm hperm)⟩

end QTree
end PageTree
