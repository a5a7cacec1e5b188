import Mathlib.Data.List.Perm.Basic
import PageTree.Proofs.QTree.Terrain

/-!
# Splitting keeps the slots

Cutting a page of a Q-tree gives pages that together hold its slots, if in another order
(`split_pieces`).  Putting levels of nodes above them ends with a single root
(`growWithin_runs`), because a level of at least two pages gets at most half as many above it.
-/

namespace PageTree
namespace QTree

open BTree (Realm)

/-! ## Parts of a list -/

section Parts

variable {α β : Type}

/-- The items of a list, distributed over parts in which they keep their order. -/
structure Distributes (items : List α) (parts : List (List α)) : Prop where
  perm : parts.flatten.Perm items
  sublist : ∀ part ∈ parts, part.Sublist items
  full : ∀ part ∈ parts, part ≠ []

theorem halves_distributes {items : List α} (hmany : 1 < items.length) :
    Distributes items (halves items) where
  perm := by
    unfold halves
    rw [List.flatten_cons, List.flatten_cons, List.flatten_nil, List.append_nil,
      List.take_append_drop]
  sublist part hpart := by
    simp only [halves, List.mem_cons, List.not_mem_nil, or_false] at hpart
    rcases hpart with rfl | rfl
    · exact List.take_sublist _ _
    · exact List.drop_sublist _ _
  full part hpart := by
    simp only [halves, List.mem_cons, List.not_mem_nil, or_false] at hpart
    rw [← List.length_pos_iff]
    rcases hpart with rfl | rfl
    · rw [List.length_take]
      omega
    · rw [List.length_drop]
      omega

/-- Every item is in one quadrant. -/
theorem quadrants_perm (tiles : α → Tile × Tile) (middle : Nat × Nat) (items : List α) :
    (quadrants tiles middle items).flatten.Perm items := by
  have hsplit : ∀ p q : α → Bool, (items.filter (fun a => !p a && q a) ++
      items.filter (fun a => p a && q a)).Perm (items.filter q) := by
    intro p q
    rw [← List.filter_filter, ← List.filter_filter]
    exact List.perm_append_comm.trans (List.filter_append_perm p _)
  unfold quadrants
  dsimp only
  rw [List.flatten_cons, List.flatten_cons, List.flatten_cons, List.flatten_cons,
    List.flatten_nil, List.append_nil, ← List.append_assoc]
  refine ((hsplit _ _).append (hsplit _ _)).trans ?_
  exact List.perm_append_comm.trans (List.filter_append_perm _ items)

theorem flatten_filter_isEmpty (parts : List (List α)) :
    (parts.filter fun part => !part.isEmpty).flatten = parts.flatten := by
  induction parts with
  | nil => rfl
  | cons part parts ih =>
      cases part with
      | nil => simpa using ih
      | cons a part => simpa using ih

theorem partsAround_distributes (tiles : α → Tile × Tile) (middle : Nat × Nat)
    {items : List α} (hmany : 1 < items.length) :
    Distributes items (partsAround tiles middle items) := by
  unfold partsAround
  dsimp only
  split
  · refine ⟨?_, ?_, ?_⟩
    · rw [flatten_filter_isEmpty]
      exact quadrants_perm tiles middle items
    · intro part hpart
      have hquadrant := List.mem_of_mem_filter hpart
      simp only [quadrants, List.mem_cons, List.not_mem_nil, or_false] at hquadrant
      rcases hquadrant with rfl | rfl | rfl | rfl <;> exact List.filter_sublist
    · intro part hpart
      simpa using (List.mem_filter.1 hpart).2
  · exact halves_distributes hmany

/-- What goes along with a concatenation comes in groups. -/
theorem exists_groups {R : α → β → Prop} {parts : List (List α)} {bs : List β}
    (hall : List.Forall₂ R parts.flatten bs) :
    ∃ groups, List.Forall₂ (List.Forall₂ R) parts groups ∧ groups.flatten = bs := by
  induction parts generalizing bs with
  | nil =>
      cases hall
      exact ⟨[], List.Forall₂.nil, rfl⟩
  | cons part parts ih =>
      obtain ⟨ps, qs, rfl, hfirst, hrest⟩ := exists_of_forall₂_append hall
      obtain ⟨groups, hgroups, rfl⟩ := ih hrest
      exact ⟨ps :: groups, List.Forall₂.cons hfirst hgroups, rfl⟩

/-- What goes along with the items is distributed with them. -/
theorem Distributes.forall₂ {R : α → β → Prop} {items : List α} {parts : List (List α)}
    {bs : List β} (hdistributes : Distributes items parts) (hall : List.Forall₂ R items bs) :
    ∃ groups, List.Forall₂ (List.Forall₂ R) parts groups ∧ groups.flatten.Perm bs := by
  obtain ⟨flat, hflat, hperm⟩ := List.perm_comp_forall₂ hdistributes.perm hall
  obtain ⟨groups, hgroups, rfl⟩ := exists_groups hflat
  exact ⟨groups, hgroups, hperm⟩

end Parts

/-! ## One cut -/

variable {W : Type} [Terrain W]

/-- Pages of one stem, none newer than a version, with the slots that each holds. -/
def Pieces (w : W) (height stem version : Nat) (pages : List LivePage)
    (parts : List (List Slot)) : Prop :=
  List.Forall₂ (fun p part => p.stem = stem ∧ Realm.Below W p.version version ∧ part ≠ [] ∧
    PageHolds (Terrain.Branch w) height p part) pages parts

variable {s s' : Store} {w w' : W} {height stem version : Nat} {slots : List Slot}
  {p : LivePage} {middle : Nat × Nat} {bodies : List (PageBody PageRef)}

theorem Pieces.grows {pages : List LivePage} {parts : List (List Slot)}
    (hgrows : Realm.Grows s w s' w') (hpieces : Pieces w height stem version pages parts) :
    Pieces w' height stem version pages parts :=
  List.Forall₂.imp (fun _ _ h => ⟨h.1, h.2.1, h.2.2.1, pageHolds_grows hgrows h.2.2.2⟩) hpieces

/-- A leaf is cut into leaves. -/
theorem parts_leaf (hparts : parts? middle (.qtreeLeaf slots) = some bodies)
    (hmany : 1 < slots.length) :
    ∃ parts, bodies = parts.map .qtreeLeaf ∧ Distributes slots parts := by
  cases hparts
  exact ⟨_, rfl, partsAround_distributes _ _ hmany⟩

/-- A node that is cut has at least four children, of which each part gets two or more. -/
theorem parts_node {children : List PageRef}
    (hparts : parts? middle (.qtreeNode children) = some bodies) :
    ∃ parts, bodies = parts.map .qtreeNode ∧ Distributes children parts ∧
      ∀ part ∈ parts, 2 ≤ part.length := by
  simp only [parts?] at hparts
  split at hparts
  · next hfour =>
      cases hparts
      have hfour' : 4 ≤ children.length := hfour
      have hone : 1 < children.length := by omega
      refine ⟨_, rfl, ?_⟩
      split
      · -- some quadrant has a single child, so the children are halved
        refine ⟨halves_distributes hone, ?_⟩
        intro part hpart
        simp only [halves, List.mem_cons, List.not_mem_nil, or_false] at hpart
        rcases hpart with rfl | rfl
        · rw [List.length_take]
          omega
        · rw [List.length_drop]
          omega
      · next hmany =>
          refine ⟨partsAround_distributes _ _ hone, ?_⟩
          intro part hpart
          by_cases hlt : part.length < 2
          · exact absurd (List.any_eq_true.2 ⟨part, hpart, by simpa using hlt⟩) hmany
          · omega
  · cases hparts

/-- The parts of a page hold its slots between them, and none of them is empty. -/
theorem parts_hold (hparts : parts? middle p.body = some bodies) (harity : 1 < p.arity)
    (hholds : PageHolds (Terrain.Branch w) height p slots)
    (hle : Realm.Below W p.version version) :
    ∃ parts, List.Forall₂ (fun body part => part ≠ [] ∧
        PageHolds (Terrain.Branch w) height ⟨version, p.stem, body⟩ part) bodies parts ∧
      parts.flatten.Perm slots := by
  obtain ⟨v, st, body⟩ := p
  cases height with
  | zero =>
      obtain ⟨hsorted, rfl⟩ := hholds
      obtain ⟨parts, rfl, hdistributes⟩ := parts_leaf hparts harity
      refine ⟨parts, ?_, hdistributes.perm⟩
      rw [List.forall₂_map_left_iff, List.forall₂_same]
      exact fun part hpart => ⟨hdistributes.full part hpart,
        hsorted.sublist (hdistributes.sublist part hpart), rfl⟩
  | succ height =>
      obtain ⟨children, slotParts, rfl, hrow, rfl⟩ := hholds
      obtain ⟨parts, rfl, hdistributes, -⟩ := parts_node hparts
      obtain ⟨groups, hgroups, hperm⟩ := hdistributes.forall₂ hrow
      refine ⟨groups.map List.flatten, ?_, ?_⟩
      · rw [List.forall₂_map_left_iff, List.forall₂_map_right_iff]
        have hfull := hdistributes.full
        clear hdistributes hperm hparts harity
        induction hgroups with
        | nil => exact List.Forall₂.nil
        | @cons part group parts groups hgroup _ ih =>
            refine List.Forall₂.cons ⟨?_, part, group, rfl, Row.raise hgroup hle, rfl⟩
              (ih fun part' hpart' => hfull part' (List.mem_cons_of_mem part hpart'))
            rw [Ne, Filled.flatten_eq_nil hgroup]
            exact hfull part List.mem_cons_self
      · rw [← List.flatten_flatten]
        exact hperm.flatten

/-! ## All cuts -/

theorem splitWithin_pieces (settings : Settings) (cuts : Nat)
    (hholds : PageHolds (Terrain.Branch w) height p slots) (hne : slots ≠ [])
    (hle : Realm.Below W p.version version) :
    ∃ parts, Pieces w height p.stem version (splitWithin settings version cuts p) parts ∧
      parts.flatten.Perm slots := by
  have hwhole : ∃ parts, Pieces w height p.stem version [p] parts ∧ parts.flatten.Perm slots :=
    ⟨[slots], List.Forall₂.cons ⟨rfl, hle, hne, hholds⟩ List.Forall₂.nil, by simp⟩
  induction cuts generalizing p slots with
  | zero => exact hwhole
  | succ cuts ih =>
      unfold splitWithin
      split
      · next hoversized =>
        split
        · next bodies hparts =>
            obtain ⟨parts, hbodies, hperm⟩ :=
              parts_hold hparts (Page.one_lt_arity hoversized) hholds hle
            suffices hall : ∃ pieces, Pieces w height p.stem version (bodies.flatMap fun body =>
                splitWithin settings version cuts ⟨version, p.stem, body⟩) pieces ∧
                pieces.flatten.Perm parts.flatten by
              obtain ⟨pieces, hpieces, hperm'⟩ := hall
              exact ⟨pieces, hpieces, hperm'.trans hperm⟩
            -- each part is cut on its own
            clear hparts hperm hwhole hholds hne
            induction hbodies with
            | nil => exact ⟨[], List.Forall₂.nil, List.Perm.refl _⟩
            | @cons body part bodies parts hbody _ ihrest =>
                obtain ⟨ps, hps, hperm⟩ := ih hbody.2 hbody.1 (Realm.below_refl version)
                  ⟨[part], List.Forall₂.cons ⟨rfl, Realm.below_refl version, hbody⟩
                    List.Forall₂.nil, by simp⟩
                obtain ⟨qs, hqs, hperm'⟩ := ihrest
                refine ⟨ps ++ qs, List.rel_append hps hqs, ?_⟩
                rw [List.flatten_append, List.flatten_cons]
                exact hperm.append hperm'
        · exact hwhole
      · exact hwhole

/-- The parts of a page hold its slots. -/
theorem split_pieces (settings : Settings) (hholds : PageHolds (Terrain.Branch w) height p slots)
    (hne : slots ≠ []) (hle : Realm.Below W p.version version) :
    ∃ parts, Pieces w height p.stem version (split settings version p) parts ∧
      parts.flatten.Perm slots :=
  splitWithin_pieces settings p.arity hholds hne hle

/-- A node is cut into at most half as many parts as it has children. -/
theorem length_splitWithin_le (settings : Settings) (version cuts v stem : Nat)
    (children : List PageRef) (hmany : 2 ≤ children.length) :
    (splitWithin settings version cuts ⟨v, stem, .qtreeNode children⟩).length ≤
      children.length / 2 := by
  have hone : 1 ≤ children.length / 2 := by omega
  induction cuts generalizing v children with
  | zero => exact hone
  | succ cuts ih =>
      unfold splitWithin
      split
      · split
        · next bodies hparts =>
            obtain ⟨parts, rfl, hdistributes, hlengths⟩ := parts_node hparts
            rw [← hdistributes.perm.length_eq]
            clear hdistributes hparts
            induction parts with
            | nil => simp
            | cons part parts ihrest =>
                have htwo := hlengths part List.mem_cons_self
                have hfirst := ih version part htwo (by omega)
                have hrest := ihrest fun part' hpart' =>
                  hlengths part' (List.mem_cons_of_mem part hpart')
                simp only [List.map_cons, List.flatMap_cons, List.length_append,
                  List.flatten_cons] at hrest ⊢
                omega
        · exact hone
      · exact hone

/-! ## References to the parts -/

/-- References to pages that hold slots are a row of those slots. -/
theorem refsOf_runs (hrep : Realm.Represents s w) {pages : List LivePage}
    {parts : List (List Slot)} (hpieces : Pieces w height stem version pages parts) :
    Realm.Runs (refsOf pages) s w fun refs _ w' => Row w' height stem version refs parts := by
  unfold refsOf
  induction pages generalizing s w parts with
  | nil =>
      cases hpieces
      exact Realm.pure hrep List.Forall₂.nil
  | cons p pages ih =>
      obtain ⟨part, parts', ⟨rfl, hle, hne, hholds⟩, hrest, rfl⟩ :=
        List.forall₂_cons_left_iff.1 hpieces
      rw [List.mapM_cons]
      refine Realm.bind (Terrain.branch_ofPage hrep hholds) ?_
      rintro r s' w' hgrows ⟨hbranch, -⟩
      refine Realm.bind (ih (Realm.represents hgrows) (Pieces.grows hgrows hrest)) ?_
      intro refs s'' w'' hgrows' hrow
      exact Realm.pure (Realm.represents hgrows') (List.Forall₂.cons
        ⟨hne, Terrain.branch_raise (Terrain.branch_grows hgrows' hbranch) hle⟩ hrow)

/-- Levels of nodes above a row end with one root. -/
theorem growWithin_runs (hrep : Realm.Represents s w) (levels : Nat) {children : List PageRef}
    {parts : List (List Slot)} (hrow : Row w height stem version children parts)
    (hne : children ≠ []) (hlevels : children.length ≤ levels)
    (hperm : parts.flatten.Perm slots) :
    Realm.Runs (growWithin version stem levels children) s w fun grown _ w' =>
      ∃ height' r slots', grown = [r] ∧ Terrain.Branch w' height' stem version r slots' ∧
        slots'.Perm slots := by
  induction levels generalizing s w height children parts with
  | zero => exact absurd (List.length_eq_zero_iff.1 (by omega)) hne
  | succ levels ih =>
      unfold growWithin
      refine Realm.ite ?_ ?_
      · intro hone
        obtain ⟨child, rfl⟩ : ∃ child, children = [child] :=
          List.length_eq_one_iff.1 (by have := List.length_pos_iff.2 hne; omega)
        obtain ⟨part, rest, hchild, hrest, rfl⟩ := List.forall₂_cons_left_iff.1 hrow
        cases hrest
        refine Realm.pure hrep ⟨height, child, part, rfl, hchild.2, ?_⟩
        simpa using hperm
      · intro hmany
        refine Realm.get ?_
        have hnode : PageHolds (Terrain.Branch w) (height + 1)
            ⟨version, stem, .qtreeNode children⟩ parts.flatten :=
          ⟨children, parts, rfl, hrow, rfl⟩
        have hfull : parts.flatten ≠ [] := by rwa [Ne, Filled.flatten_eq_nil hrow]
        obtain ⟨parts', hpieces, hperm'⟩ :=
          split_pieces s.settings hnode hfull (Realm.below_refl version)
        refine Realm.bind (refsOf_runs hrep hpieces) ?_
        intro refs s' w' hgrows hrow'
        refine ih (Realm.represents hgrows) hrow' ?_ ?_ (hperm'.trans hperm)
        · -- each level has fewer references than the one below, so the levels suffice
          rw [Ne, ← Filled.flatten_eq_nil hrow']
          intro hnil
          rw [hnil] at hperm'
          exact hfull (List.nil_perm.1 hperm')
        · have hfewer := length_splitWithin_le s.settings version children.length version stem
            children (by omega)
          have hlength := (List.Forall₂.length_eq hrow').trans hpieces.length_eq.symm
          change refs.length = (splitWithin s.settings version children.length _).length
            at hlength
          omega

end QTree
end PageTree
