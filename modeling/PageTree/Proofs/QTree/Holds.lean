import PageTree.Proofs.BTree.Holds
import PageTree.Proofs.QTree.Terrain

/-!
# The slots of a Q-tree

`QTree.Holds c height n slots` says that the site `n` is the root of a Q-tree whose leaves lie at
one height and hold the slots from left to right.  No subtree below a node is empty.  Where the
headers cover what their pages do, the tiles of each are the smallest around the points of all
slots beneath it (`Holds.around`).

The same is said of references that can stand below a page (`Subtree`), which makes charts a
terrain of Q-trees.
-/

namespace PageTree
namespace QTree

open StoreM

/-! ## Slots beneath a site -/

/-- The site is the root of a Q-tree of a height with slots. -/
def Holds (c : Chart) : (height : Nat) → Site → List Slot → Prop
  | 0, n, slots => Slots.Sorted slots ∧ ∃ p, c.page n = some p ∧ p.body = .qtreeLeaf slots
  | height + 1, n, slots => ∃ p children parts, c.page n = some p ∧
      p.body = .qtreeNode children ∧ Filled (Holds c height) children parts ∧
      slots = parts.flatten

section Holds

variable {c c' : Chart} {height height' : Nat} {n : Site} {slots slots' : List Slot}

theorem Holds.mono (hle : c ≤ c') (hholds : Holds c height n slots) :
    Holds c' height n slots := by
  induction height generalizing n slots with
  | zero =>
      obtain ⟨hsorted, p, hp, hbody⟩ := hholds
      exact ⟨hsorted, p, Chart.page_mono hle hp, hbody⟩
  | succ height ih =>
      obtain ⟨p, children, parts, hp, hbody, hfilled, hslots⟩ := hholds
      exact ⟨p, children, parts, Chart.page_mono hle hp, hbody, hfilled.imp fun _ _ => ih, hslots⟩

/-- The slots beneath a site are determined. -/
theorem Holds.unique (hholds : Holds c height n slots) (hholds' : Holds c height' n slots') :
    slots = slots' := by
  -- a page is either a leaf or a node, so the heights agree as well
  induction height generalizing height' n slots slots' with
  | zero =>
      obtain ⟨-, p, hp, hbody⟩ := hholds
      cases height' with
      | zero =>
          obtain ⟨-, p', hp', hbody'⟩ := hholds'
          rw [hp] at hp'
          cases hp'
          rw [hbody] at hbody'
          cases hbody'
          rfl
      | succ height' =>
          obtain ⟨p', children, parts, hp', hbody', -⟩ := hholds'
          rw [hp] at hp'
          cases hp'
          rw [hbody] at hbody'
          cases hbody'
  | succ height ih =>
      obtain ⟨p, children, parts, hp, hbody, hfilled, rfl⟩ := hholds
      cases height' with
      | zero =>
          obtain ⟨-, p', hp', hbody'⟩ := hholds'
          rw [hp] at hp'
          cases hp'
          rw [hbody] at hbody'
          cases hbody'
      | succ height' =>
          obtain ⟨p', children', parts', hp', hbody', hfilled', rfl⟩ := hholds'
          rw [hp] at hp'
          cases hp'
          rw [hbody] at hbody'
          cases hbody'
          have hparts : List.Forall₂ Eq parts parts' :=
            forall₂_join hfilled hfilled' fun _ _ _ hchild hchild' => ih hchild.2 hchild'.2
          rw [List.forall₂_eq_eq_eq] at hparts
          rw [hparts]

/-- The span of a Q-tree is the number of its slots. -/
theorem Holds.span (hmeasured : c.Measured n) (hholds : Holds c height n slots) :
    n.header.span = slots.length := by
  induction height generalizing n slots with
  | zero =>
      obtain ⟨-, ⟨version, stem, body⟩, hp, rfl⟩ := hholds
      rw [hmeasured.span_of_leaf hp rfl, Page.arity]
  | succ height ih =>
      obtain ⟨⟨version, stem, body⟩, children, parts, hp, rfl, hfilled, rfl⟩ := hholds
      rw [hmeasured.span_of_isNode hp rfl]
      have hbeneath : ∀ m ∈ children, c.Measured m := fun m hm => hmeasured.child hp hm
      simp only [Page.children]
      clear hp
      induction hfilled with
      | nil => rfl
      | cons hchild _ ih' =>
          simp only [List.map_cons, List.sum_cons, List.flatten_cons, List.length_append]
          rw [ih (hbeneath _ (by simp)) hchild.2, ih' fun m hm => hbeneath m (by simp [hm])]

/-- The tiles of a header are the smallest around the points beneath it. -/
theorem Holds.around (hmeasured : c.Measured n) (hholds : Holds c height n slots)
    (hne : slots ≠ []) (hvalid : ∀ slot ∈ slots, (Point.ofSlot slot).Valid) :
    Around n.header slots := by
  induction height generalizing n slots with
  | zero =>
      obtain ⟨-, ⟨version, stem, body⟩, hp, rfl⟩ := hholds
      exact around_of_slots hne hvalid (hmeasured.tiles_eq hp)
  | succ height ih =>
      obtain ⟨⟨version, stem, body⟩, children, parts, hp, rfl, hfilled, rfl⟩ := hholds
      have hchildren : children.map Site.header ≠ [] := by
        rwa [Ne, List.map_eq_nil_iff, ← hfilled.flatten_eq_nil]
      -- no part is empty, so each child has tiles of its own
      refine around_of_headers hchildren (hfilled.around Site.header hvalid ?_)
        (hmeasured.tiles_eq hp)
      exact fun m hm part hpart => ih (hmeasured.child hp hm) hpart

end Holds

/-! ## References and pages -/

/-- A reference that can stand below a page of some stem and version, with the slots beneath
it. -/
structure Subtree (c : Chart) (height stem version : Nat) (r : PageRef) (slots : List Slot) :
    Prop where
  fit : c.Fit .qtree stem version r
  holds : Holds c height r.site slots

section Subtree

variable {s : Store} {c c' : Chart} {height height' stem version version' : Nat} {r m : PageRef}
  {slots slots' : List Slot} {p : LivePage}

theorem Subtree.mono (hle : c ≤ c') (hsub : Subtree c height stem version r slots) :
    Subtree c' height stem version r slots :=
  ⟨hsub.fit.mono hle, hsub.holds.mono hle⟩

theorem Subtree.raise (hsub : Subtree c height stem version r slots) (hle : version ≤ version') :
    Subtree c height stem version' r slots :=
  ⟨hsub.fit.raise hle, hsub.holds⟩

theorem Subtree.span (hrep : Represents s c) (hsub : Subtree c height stem version r slots) :
    r.span = slots.length := by
  have hspan := hsub.holds.span (hrep.sound r hsub.fit.refs).measured
  rwa [PageRef.header_site] at hspan

theorem Subtree.around (hrep : Represents s c) (hsub : Subtree c height stem version r slots)
    (hne : slots ≠ []) (hvalid : ∀ slot ∈ slots, (Point.ofSlot slot).Valid) :
    Around r.header slots := by
  have haround := hsub.holds.around (hrep.sound r hsub.fit.refs).measured hne hvalid
  rwa [PageRef.header_site] at haround

/-- References in use that are one are equal. -/
theorem Subtree.same (hrep : Represents s c) (hsub : Subtree c height stem version r slots)
    (hsub' : Subtree c height' stem version' m slots') (hsame : r.same m = true) :
    slots = slots' := by
  obtain rfl := hrep.eq_of_same hsub.fit.refs hsub'.fit.refs hsame
  exact hsub.holds.unique hsub'.holds

theorem PageHolds.fit (hholds : PageHolds (Subtree c) height p slots) :
    ∀ m ∈ p.children, c.Fit p.treeKind p.stem p.version m := by
  rw [hholds.treeKind]
  intro m hm
  obtain ⟨below, part, -, -, hsub⟩ := hholds.child hm
  exact hsub.fit

/-- What is beneath a reference in use, seen at its page. -/
theorem Holds.page_holds (hrep : Represents s c) (hr : c.refs r)
    (hpage : c.page r.site = some (p.map PageRef.site)) (hrefs : ∀ m ∈ p.children, c.refs m)
    (hholds : Holds c height r.site slots) : PageHolds (Subtree c) height p slots := by
  obtain ⟨version, stem, body⟩ := p
  cases height with
  | zero =>
      obtain ⟨hsorted, q, hq, hbody⟩ := hholds
      rw [hpage] at hq
      cases hq
      cases body <;> cases hbody
      exact ⟨hsorted, rfl⟩
  | succ height =>
      obtain ⟨q, sites, parts, hq, hbody, hfilled, rfl⟩ := hholds
      rw [hpage] at hq
      cases hq
      have hfit := fun m hm => hrep.child_fit hr hpage hm (hrefs m hm)
      cases body <;> cases hbody
      next children =>
      refine ⟨children, parts, rfl, ?_, rfl⟩
      replace hfit : ∀ m ∈ children, c.Fit .qtree stem version m := hfit
      clear hpage hrefs
      induction children generalizing parts with
      | nil =>
          cases hfilled
          exact List.Forall₂.nil
      | cons child children ih =>
          obtain ⟨part, parts', hchild, hrest, rfl⟩ := List.forall₂_cons_left_iff.1 hfilled
          exact List.Forall₂.cons ⟨hchild.1, hfit _ (by simp), hchild.2⟩
            (ih _ hrest fun m hm => hfit m (by simp [hm]))

/-- What a page holds is beneath the sites of its references. -/
theorem PageHolds.holds {n : Site} (hpage : c.page n = some (p.map PageRef.site))
    (hholds : PageHolds (Subtree c) height p slots) : Holds c height n slots := by
  obtain ⟨version, stem, body⟩ := p
  cases height with
  | zero =>
      obtain ⟨hsorted, rfl⟩ := hholds
      exact ⟨hsorted, _, hpage, rfl⟩
  | succ height =>
      obtain ⟨children, parts, rfl, hfilled, rfl⟩ := hholds
      refine ⟨_, _, parts, hpage, rfl, ?_, rfl⟩
      exact List.forall₂_map_left_iff.2 (Filled.imp (fun _ _ hsub => hsub.holds) hfilled)

/-- A new page with what it holds. -/
theorem PageHolds.ofPage_runs (hrep : Represents s c)
    (hholds : PageHolds (Subtree c) height p slots) :
    Runs (PageRef.ofPage p .absent) s c fun r _ c' =>
      Subtree c' height p.stem p.version r slots ∧
        c'.page r.site = some (p.map PageRef.site) := by
  refine (PageRef.ofPage_runs hrep p hholds.fit).mono ?_
  intro r s' c' hgrows hmade
  have hholds' : PageHolds (Subtree c') height p slots :=
    hholds.imp fun _ _ _ _ _ => Subtree.mono hgrows.le
  refine ⟨⟨?_, hholds'.holds hmade.page⟩, hmade.page⟩
  rw [← hholds.treeKind]
  exact hmade.fit

/-- The page of a reference, with what it holds. -/
theorem Subtree.page_runs (hrep : Represents s c) (hsub : Subtree c height stem version r slots) :
    Runs r.page s c fun p _ c' => c'.page r.site = some (p.map PageRef.site) ∧
      p.stem = stem ∧ p.version ≤ version ∧ PageHolds (Subtree c') height p slots := by
  refine (PageRef.page_runs hrep hsub.fit.refs).mono ?_
  rintro p s' c' hgrows ⟨hpage, hrefs⟩
  obtain ⟨q, hq, -, hstem, hversion⟩ := (hsub.fit.mono hgrows.le).page
  rw [hpage] at hq
  cases hq
  exact ⟨hpage, by simpa using hstem, by simpa using hversion,
    (hsub.holds.mono hgrows.le).page_holds hgrows.represents (hgrows.le.refs r hsub.fit.refs)
      hpage hrefs⟩

end Subtree

/-! ## Trees on a chart -/

/-- Trees of which any part lies in zones, as a chart has them. -/
instance : Terrain Chart where
  toRealm := inferInstance
  Branch := Subtree
  branch_grows hgrows hsub := hsub.mono hgrows.le
  branch_raise := Subtree.raise
  branch_span := Subtree.span
  branch_around := Subtree.around
  branch_stem hrep hsub := hrep.stem_eq hsub.fit
  branch_same := Subtree.same
  branch_treeSize_lt hrep hsub hpage hm := hrep.treeSize_lt hsub.fit.refs hpage hm
  branch_page := Subtree.page_runs
  branch_ofPage hrep hholds := hholds.ofPage_runs hrep

end QTree
end PageTree
