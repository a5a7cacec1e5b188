import Mathlib.Algebra.Order.BigOperators.Group.List
import Mathlib.Algebra.Order.Group.Nat
import PageTree.Cursor.Policy
import PageTree.Proofs.Loading

/-!
# What a cursor passes

A cursor passes over a tree in stretches: an entry of a leaf at a time, or a whole subtree that
its policy does not enter.  What a policy decides follows from a chart (`Policy.Follows`), and so
do the stretches beneath a site, from left to right (`Chart.Tours`).
-/

namespace PageTree

open StoreM

variable {ι : Type}

/-! ## Stretches -/

/-- What a cursor passes over at once: a number of entries, with what it yields for them. -/
structure Stretch (ι : Type) where
  entries : Nat
  item? : Option ι

namespace Stretch

/-- A single entry that is yielded. -/
def single (item : ι) : Stretch ι := ⟨1, some item⟩

/-- The number of entries of all stretches. -/
def total (l : List (Stretch ι)) : Nat :=
  (l.map entries).sum

/-- Nothing is yielded for the stretches. -/
def Silent (l : List (Stretch ι)) : Prop :=
  ∀ x ∈ l, x.item? = none

@[simp] theorem total_nil : total ([] : List (Stretch ι)) = 0 := rfl

@[simp] theorem total_cons (x : Stretch ι) (l : List (Stretch ι)) :
    total (x :: l) = x.entries + total l := by
  simp [total]

@[simp] theorem total_append (l l' : List (Stretch ι)) :
    total (l ++ l') = total l + total l' := by
  simp [total]

@[simp] theorem total_map_single (items : List ι) : total (items.map single) = items.length := by
  induction items with
  | nil => rfl
  | cons item items ih =>
      rw [List.map_cons, total_cons, ih, List.length_cons, single]
      exact Nat.add_comm 1 _

theorem silent_nil : Silent ([] : List (Stretch ι)) := by
  simp [Silent]

theorem Silent.append {l l' : List (Stretch ι)} (hsilent : Silent l) (hsilent' : Silent l') :
    Silent (l ++ l') := by
  rw [Silent, List.forall_mem_append]
  exact ⟨hsilent, hsilent'⟩

theorem Silent.filterMap_item {l : List (Stretch ι)} (hsilent : Silent l) :
    l.filterMap item? = [] :=
  List.filterMap_eq_nil_iff.2 hsilent

end Stretch

/-! ## What policies decide -/

/-- What is decided about a child, given its parent, its index and its depth, and what is
yielded for a slot of a leaf. -/
structure Scheme (ι : Type) where
  visit : Chart → (parent : Option (Page Site)) → (index : Nat) → (child : Site) →
    (depth : Nat) → Visit ι → Prop
  slot : PageBody Unit → (index : Nat) → Option ι

/-- Every subtree is entered. -/
def Scheme.enterAll (slot : PageBody Unit → Nat → Option ι) : Scheme ι where
  visit _ _ _ _ _ decision := decision = .descend
  slot := slot

/-- A policy decides as a scheme says, whatever memory holds. -/
structure Policy.Follows (policy : Policy ι) (scheme : Scheme ι) : Prop where
  visit : ∀ {s c parent index child depth decision}, Represents s c → c.refs child →
    scheme.visit c (parent.map (Page.map PageRef.site)) index child.site depth decision →
    Runs (policy.visit parent index child depth) s c fun decision' _ _ => decision' = decision
  slot : ∀ page index, policy.slot page index = scheme.slot page.body.shape index
  mono : ∀ {c c' parent index n depth decision}, c ≤ c' →
    scheme.visit c parent index n depth decision → scheme.visit c' parent index n depth decision

/-- A policy that enters every subtree. -/
theorem Policy.follows_enterAll {slot : LivePage → Nat → Option ι}
    {slot' : PageBody Unit → Nat → Option ι}
    (hslot : ∀ page index, slot page index = slot' page.body.shape index) :
    Policy.Follows ⟨enterAll, slot⟩ (.enterAll slot') where
  visit := by
    rintro s c parent index child depth decision hrep - rfl
    exact Runs.pure hrep rfl
  slot := hslot
  mono _ hvisit := hvisit

/-! ## Tours -/

namespace Chart

/-- The stretches of the slots of a leaf. -/
def slotStretches (scheme : Scheme ι) (body : PageBody Unit) (arity : Nat) : List (Stretch ι) :=
  (List.range arity).map fun index => ⟨1, scheme.slot body index⟩

/-- The stretches beneath a child of some parent, index and depth. -/
inductive Tours (c : Chart) (scheme : Scheme ι) :
    Option (Page Site) → Nat → Nat → Site → List (Stretch ι) → Prop where
  | skip {parent index depth n} (visit : scheme.visit c parent index n depth .skip) :
      Tours c scheme parent index depth n [⟨n.header.span, none⟩]
  | emit {parent index depth n item} (visit : scheme.visit c parent index n depth (.emit item)) :
      Tours c scheme parent index depth n [⟨n.header.span, some item⟩]
  | leaf {parent index depth n p} (visit : scheme.visit c parent index n depth .descend)
      (page : c.page n = some p) (isLeaf : p.isNode = false) :
      Tours c scheme parent index depth n (slotStretches scheme p.body.shape p.arity)
  | node {parent index depth n p} (visit : scheme.visit c parent index n depth .descend)
      (page : c.page n = some p) (isNode : p.isNode = true) (parts : List (List (Stretch ι)))
      (length : p.children.length = parts.length)
      (children : ∀ i h h', Tours c scheme (some p) i (depth + 1) (p.children.get ⟨i, h⟩)
        (parts.get ⟨i, h'⟩)) :
      Tours c scheme parent index depth n parts.flatten

variable {c c' : Chart} {scheme : Scheme ι} {parent : Option (Page Site)} {index depth : Nat}
  {n : Site} {l : List (Stretch ι)}

theorem Tours.mono {policy : Policy ι} (hfollows : policy.Follows scheme) (hle : c ≤ c')
    (htours : c.Tours scheme parent index depth n l) :
    c'.Tours scheme parent index depth n l := by
  induction htours with
  | skip visit => exact skip (hfollows.mono hle visit)
  | emit visit => exact emit (hfollows.mono hle visit)
  | leaf visit page isLeaf => exact leaf (hfollows.mono hle visit) (page_mono hle page) isLeaf
  | node visit page isNode parts length _ ih =>
      exact node (hfollows.mono hle visit) (page_mono hle page) isNode parts length ih

@[simp] theorem total_slotStretches (body : PageBody Unit) (arity : Nat) :
    Stretch.total (slotStretches scheme body arity) = arity := by
  have hones : ((List.range arity).map fun _ => 1) = List.replicate arity 1 := by
    simp [List.map_const']
  rw [Stretch.total, slotStretches, List.map_map]
  show ((List.range arity).map fun _ => 1).sum = arity
  rw [hones, List.sum_replicate_nat, Nat.mul_one]

/-- The stretches beneath a site are of as many entries as its header says. -/
theorem Tours.total (hsound : c.Sound n) (htours : c.Tours scheme parent index depth n l) :
    Stretch.total l = n.header.span := by
  induction htours with
  | skip | emit => simp
  | leaf visit page isLeaf => rw [total_slotStretches, hsound.measured.span_of_leaf page isLeaf]
  | @node parent index depth n p visit page isNode parts length children ih =>
      rw [hsound.measured.span_of_isNode page isNode, Stretch.total, List.map_flatten,
        List.sum_flatten, List.map_map]
      congr 1
      refine List.ext_getElem (by simpa using length.symm) ?_
      intro i h h'
      simp only [List.length_map] at h h'
      simp only [List.getElem_map, Function.comp_apply]
      exact ih i h' h (hsound.child page (List.getElem_mem h'))

/-- There are no more stretches beneath a site than the site has room for. -/
theorem Tours.length_le (hsound : c.Sound n) (htours : c.Tours scheme parent index depth n l) :
    l.length ≤ n.header.area := by
  induction htours with
  | skip | emit => exact hsound.area_pos
  | @leaf parent index depth n p visit page isLeaf =>
      -- every slot of a page takes a byte of its text at least
      have harea := (hsound.describes page).area_eq
      have harity := (p.map Site.header).arity_le_size
      rw [Page.area_eq_sum] at harea
      rw [Page.map_arity] at harity
      rw [slotStretches, List.length_map, List.length_range]
      omega
  | @node parent index depth n p visit page isNode parts length children ih =>
      have harea := (hsound.describes page).area_eq
      rw [Page.area_eq_sum, Page.map_children, List.map_map] at harea
      have hparts :
          List.Forall₂ (fun m part => List.length part ≤ m.header.area) p.children parts :=
        List.forall₂_iff_get.2 ⟨length, fun i h h' =>
          ih i h h' (hsound.child page (List.get_mem _ _))⟩
      have hsum := List.Forall₂.sum_le_sum (List.forall₂_map_left_iff.2
        (List.forall₂_map_right_iff.2 hparts.flip))
      rw [← List.length_flatten] at hsum
      simp only [Function.comp_def] at harea
      omega

end Chart
end PageTree
