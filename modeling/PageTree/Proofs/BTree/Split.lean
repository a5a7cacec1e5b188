import PageTree.Proofs.BTree.Realm

/-!
# Splitting keeps the entries

Cutting a page gives non-empty pages that together hold its entries, in order
(`split_pieces`).  Putting levels of nodes above them ends with a single root
(`growWithin_runs`), because a level of at least two pages gets at most half as many above it.
-/

namespace PageTree
namespace BTree

open StoreM

variable {W : Type} [Realm W]

/-- Children of a page of some stem and version, with the entries beneath each. -/
def Row (w : W) (height stem version : Nat) (children : List (Value × PageRef))
    (parts : List (List Entry)) : Prop :=
  Keyed (Realm.Subtree w height stem version) children parts

/-- Pages of one stem, none newer than a version, with the entries that each holds. -/
def Pieces (w : W) (height stem version : Nat) (pages : List LivePage)
    (parts : List (List Entry)) : Prop :=
  List.Forall₂ (fun p part => p.stem = stem ∧ Realm.Below W p.version version ∧ part ≠ [] ∧
    PageHolds (Realm.Subtree w) height p part) pages parts

variable {s s' : Store} {w w' : W} {height stem version version' : Nat} {es : List Entry}
  {p : LivePage} {left right : PageBody PageRef} {children : List (Value × PageRef)}
  {parts : List (List Entry)}

theorem Row.nil : Row w height stem version [] [] :=
  List.Forall₂.nil

theorem Row.grows (hgrows : Realm.Grows s w s' w')
    (hrow : Row w height stem version children parts) :
    Row w' height stem version children parts :=
  Keyed.imp (fun _ _ => Realm.subtree_grows hgrows) hrow

theorem Row.raise (hrow : Row w height stem version children parts)
    (hle : Realm.Below W version version') : Row w height stem version' children parts :=
  Keyed.imp (fun _ _ hsub => Realm.subtree_raise hsub hle) hrow

theorem pageHolds_grows (hgrows : Realm.Grows s w s' w')
    (hholds : PageHolds (Realm.Subtree w) height p es) :
    PageHolds (Realm.Subtree w') height p es :=
  hholds.imp fun _ _ _ _ _ => Realm.subtree_grows hgrows

theorem Pieces.grows {pages : List LivePage} (hgrows : Realm.Grows s w s' w')
    (hpieces : Pieces w height stem version pages parts) :
    Pieces w' height stem version pages parts :=
  List.Forall₂.imp (fun _ _ h => ⟨h.1, h.2.1, h.2.2.1, pageHolds_grows hgrows h.2.2.2⟩) hpieces

/-! ## One cut -/

/-- A node that is cut has at least four children, of which each half gets half. -/
theorem halves_node {children : List (Value × PageRef)}
    (hhalves : halves? (.btreeNode children) = some (left, right)) :
    4 ≤ children.length ∧ left = .btreeNode (children.take (children.length / 2)) ∧
      right = .btreeNode (children.drop (children.length / 2)) := by
  simp only [halves?] at hhalves
  by_cases hfour : minNodeSplitArity ≤ children.length
  · rw [if_pos hfour] at hhalves
    cases hhalves
    exact ⟨hfour, rfl, rfl⟩
  · rw [if_neg hfour] at hhalves
    cases hhalves

/-- The halves of a page hold its entries between them. -/
theorem halves_hold (hhalves : halves? p.body = some (left, right))
    (hholds : PageHolds (Realm.Subtree w) height p es) (hle : Realm.Below W p.version version) :
    ∃ es₁ es₂, es = es₁ ++ es₂ ∧ PageHolds (Realm.Subtree w) height ⟨version, p.stem, left⟩ es₁ ∧
      PageHolds (Realm.Subtree w) height ⟨version, p.stem, right⟩ es₂ := by
  obtain ⟨v, st, body⟩ := p
  cases height with
  | zero =>
      cases hholds
      cases hhalves
      exact ⟨_, _, (List.take_append_drop _ _).symm, rfl, rfl⟩
  | succ height =>
      obtain ⟨children, parts, rfl, hrow, rfl⟩ := hholds
      obtain ⟨-, rfl, rfl⟩ := halves_node hhalves
      rw [← List.take_append_drop (children.length / 2) children] at hrow
      obtain ⟨ps, qs, rfl, hps, hqs⟩ := Keyed.of_append hrow
      exact ⟨_, _, List.flatten_append, ⟨_, ps, rfl, Row.raise hps hle, rfl⟩,
        ⟨_, qs, rfl, Row.raise hqs hle, rfl⟩⟩

/-- Neither half of a page that may be cut is empty. -/
theorem halves_ne_nil (hhalves : halves? p.body = some (left, right)) (harity : 1 < p.arity)
    {es₁ es₂ : List Entry} (hleft : PageHolds (Realm.Subtree w) height ⟨version, p.stem, left⟩ es₁)
    (hright : PageHolds (Realm.Subtree w) height ⟨version, p.stem, right⟩ es₂) :
    es₁ ≠ [] ∧ es₂ ≠ [] := by
  obtain ⟨v, st, body⟩ := p
  -- a leaf of two entries and a node of four children leave some of them to either half
  cases body with
  | btreeLeaf slots =>
      cases hhalves
      simp only [Page.arity] at harity
      cases height with
      | zero =>
          cases hleft
          cases hright
          constructor
          · rw [← List.length_pos_iff, List.length_take]
            omega
          · rw [← List.length_pos_iff, List.length_drop]
            omega
      | succ height => obtain ⟨_, _, hbody, _⟩ := hleft; cases hbody
  | btreeNode children =>
      obtain ⟨hfour, rfl, rfl⟩ := halves_node hhalves
      cases height with
      | zero => cases hleft
      | succ height =>
          obtain ⟨_, ps, hbody, hps, rfl⟩ := hleft
          cases hbody
          obtain ⟨_, qs, hbody, hqs, rfl⟩ := hright
          cases hbody
          constructor
          · rw [Ne, Keyed.flatten_eq_nil hps, ← Ne, ← List.length_pos_iff, List.length_take]
            omega
          · rw [Ne, Keyed.flatten_eq_nil hqs, ← Ne, ← List.length_pos_iff, List.length_drop]
            omega
  | _ => cases hhalves

/-! ## All cuts -/

theorem splitWithin_pieces (settings : Settings) (cuts : Nat)
    (hholds : PageHolds (Realm.Subtree w) height p es)
    (hne : es ≠ []) (hle : Realm.Below W p.version version) :
    ∃ parts, Pieces w height p.stem version (splitWithin settings version cuts p) parts ∧
      parts.flatten = es := by
  -- a page that is not cut is its only piece
  have hwhole : ∃ parts, Pieces w height p.stem version [p] parts ∧ parts.flatten = es :=
    ⟨[es], List.Forall₂.cons ⟨rfl, hle, hne, hholds⟩ List.Forall₂.nil, by simp⟩
  induction cuts generalizing p es with
  | zero => exact hwhole
  | succ cuts ih =>
      unfold splitWithin
      split
      · next hoversized =>
          split
          · next left right hhalves =>
              have harity : 1 < p.arity := Page.one_lt_arity hoversized
              obtain ⟨es₁, es₂, rfl, hleft, hright⟩ := halves_hold hhalves hholds hle
              obtain ⟨hne₁, hne₂⟩ := halves_ne_nil hhalves harity hleft hright
              obtain ⟨ps, hps, rfl⟩ := ih hleft hne₁ (Realm.below_refl _)
                ⟨[es₁], List.Forall₂.cons ⟨rfl, Realm.below_refl _, hne₁, hleft⟩ List.Forall₂.nil,
                  by simp⟩
              obtain ⟨qs, hqs, rfl⟩ := ih hright hne₂ (Realm.below_refl _)
                ⟨[es₂], List.Forall₂.cons ⟨rfl, Realm.below_refl _, hne₂, hright⟩ List.Forall₂.nil,
                  by simp⟩
              exact ⟨ps ++ qs, List.rel_append hps hqs, List.flatten_append⟩
          · exact hwhole
      · exact hwhole

/-- The parts of a page are not empty and hold its entries in order. -/
theorem split_pieces (settings : Settings) (hholds : PageHolds (Realm.Subtree w) height p es)
    (hne : es ≠ [])
    (hle : Realm.Below W p.version version) :
    ∃ parts, Pieces w height p.stem version (split settings version p) parts ∧
      parts.flatten = es :=
  splitWithin_pieces settings p.arity hholds hne hle

/-- A node is cut into at most half as many parts as it has children. -/
theorem length_splitWithin_le (settings : Settings) (version cuts : Nat) (v stem : Nat)
    (children : List (Value × PageRef)) (hmany : 2 ≤ children.length) :
    (splitWithin settings version cuts ⟨v, stem, .btreeNode children⟩).length ≤
      children.length / 2 := by
  have hone : 1 ≤ children.length / 2 := by omega
  induction cuts generalizing v children with
  | zero => exact hone
  | succ cuts ih =>
      unfold splitWithin
      split
      · split
        · next left right hhalves =>
            -- a node is only cut with four children or more, so that either half has two
            obtain ⟨hfour, rfl, rfl⟩ := halves_node hhalves
            have htake : (children.take (children.length / 2)).length =
                children.length / 2 := by
              rw [List.length_take]
              omega
            have hdrop : (children.drop (children.length / 2)).length =
                children.length - children.length / 2 := List.length_drop
            have hleft := ih version (children.take (children.length / 2)) (by omega) (by omega)
            have hright := ih version (children.drop (children.length / 2)) (by omega) (by omega)
            show (splitWithin settings version cuts ⟨version, stem, _⟩ ++
              splitWithin settings version cuts ⟨version, stem, _⟩).length ≤ _
            rw [List.length_append]
            omega
        · exact hone
      · exact hone

/-! ## References to the parts -/

/-- References to pages that hold entries are a row of those entries. -/
theorem refsOf_runs (hrep : Realm.Represents s w) {pages : List LivePage}
    (hpieces : Pieces w height stem version pages parts)
    (hsorted : Entries.Sorted parts.flatten) :
    Realm.Runs (refsOf pages) s w fun refs _ w' => Row w' height stem version refs parts := by
  unfold refsOf
  induction pages generalizing s w parts with
  | nil =>
      cases hpieces
      exact Realm.pure hrep List.Forall₂.nil
  | cons p pages ih =>
      obtain ⟨part, parts', ⟨rfl, hle, hne, hholds⟩, hrest, rfl⟩ :=
        List.forall₂_cons_left_iff.1 hpieces
      rw [List.flatten_cons, Entries.sorted_append] at hsorted
      simp only [List.mapM_cons, bind_assoc, pure_bind]
      refine Realm.bind (Realm.ofPage_runs hrep hsorted.1 hholds) ?_
      rintro r s' w' hgrows ⟨hsub, -⟩
      have hrep' := Realm.represents hgrows
      refine Realm.bind (ih hrep' (Pieces.grows hgrows hrest) hsorted.2.1) ?_
      intro refs s'' w'' hgrows' hrow
      refine Realm.pure (Realm.represents hgrows') (List.Forall₂.cons ?_ hrow)
      exact ⟨hholds.firstKey hne, Realm.subtree_raise (Realm.subtree_grows hgrows' hsub) hle⟩

/-- Levels of nodes above a row end with one root. -/
theorem growWithin_runs (hrep : Realm.Represents s w) (levels : Nat)
    (hrow : Row w height stem version children parts) (hne : children ≠ [])
    (hlevels : children.length ≤ levels) (hsorted : Entries.Sorted parts.flatten) :
    Realm.Runs (growWithin version stem levels children) s w fun grown _ w' =>
      ∃ height' key r, grown = [(key, r)] ∧
        Realm.Subtree w' height' stem version r parts.flatten := by
  induction levels generalizing s w height children parts with
  | zero => exact absurd (List.length_eq_zero_iff.1 (by omega)) hne
  | succ levels ih =>
      unfold growWithin
      split
      · next hone =>
          obtain ⟨child, rfl⟩ : ∃ child, children = [child] :=
            List.length_eq_one_iff.1 (by have := List.length_pos_iff.2 hne; omega)
          obtain ⟨part, rest, hchild, hrest, rfl⟩ := List.forall₂_cons_left_iff.1 hrow
          cases hrest
          refine Realm.pure hrep ⟨height, child.1, child.2, rfl, ?_⟩
          simpa using hchild.2
      · next hmany =>
          refine Realm.get ?_
          have hnode : PageHolds (Realm.Subtree w) (height + 1)
              ⟨version, stem, .btreeNode children⟩ parts.flatten :=
            ⟨children, parts, rfl, hrow, rfl⟩
          have hfull : parts.flatten ≠ [] := by rwa [Ne, Keyed.flatten_eq_nil hrow]
          obtain ⟨parts', hpieces, hflatten⟩ :=
            split_pieces s.settings hnode hfull (Realm.below_refl version)
          rw [← hflatten] at hsorted ⊢
          refine Realm.bind (refsOf_runs hrep hpieces hsorted) ?_
          intro refs s' w' hgrows hrow'
          refine ih (Realm.represents hgrows) hrow' ?_ ?_ hsorted
          · -- each level has fewer references than the one below, so the levels suffice
            rw [Ne, ← Keyed.flatten_eq_nil hrow', hflatten]
            exact hfull
          · have hfewer := length_splitWithin_le s.settings version children.length version stem
              children (by omega)
            have hlength := hrow'.length_eq.trans hpieces.length_eq.symm
            change refs.length = (splitWithin s.settings version children.length _).length
              at hlength
            omega

end BTree
end PageTree
