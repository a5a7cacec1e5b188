import PageTree.Proofs.BTree.Realm
import PageTree.Proofs.QTree.Slots
import PageTree.QTree.Write

/-!
# Terrains of Q-trees

What is proved of Q-trees does not depend on where their pages are found either.  A *terrain* is a
realm that has Q-trees as well: how its states grow and how operations are judged is the same for
both kinds of trees, and a terrain adds what it says of the subtrees of a Q-tree.

Of a page it matters which slots lie beneath each child (`Filled`, `PageHolds`), and of a header
that its tiles are the smallest around the points beneath it (`Around`), which is what a look-up at
a point relies on.
-/

namespace PageTree

/-- The smallest tile around smallest tiles is the smallest around what they are around. -/
theorem Tile.Smallest.flatten {t : Tile} {ts : List Tile} {parts : List (List Tile)}
    (ht : t.Smallest ts) (hparts : List.Forall₂ Tile.Smallest ts parts) :
    t.Smallest parts.flatten := by
  refine ⟨ht.canonical, ?_, ?_⟩
  · intro u hu
    obtain ⟨part, hpart, hmem⟩ := List.mem_flatten.1 hu
    obtain ⟨inner, hinner, hsmallest⟩ := exists_of_forall₂_right hparts hpart
    exact contains_trans (ht.contains inner hinner) (hsmallest.contains u hmem)
  · intro v hv
    apply ht.least
    intro inner hinner
    obtain ⟨part, hpart, hsmallest⟩ := exists_of_forall₂_right hparts.flip hinner
    exact hsmallest.least v fun u hu => hv u (List.mem_flatten_of_mem hpart hu)

namespace QTree

open BTree (Realm)

/-! ## Children -/

section Filled

variable {γ : Type} {P Q : γ → List Slot → Prop} {children : List γ} {parts : List (List Slot)}

/-- Every child holds its part, which is not empty. -/
def Filled (P : γ → List Slot → Prop) (children : List γ) (parts : List (List Slot)) : Prop :=
  List.Forall₂ (fun child part => part ≠ [] ∧ P child part) children parts

theorem Filled.imp (himp : ∀ a slots, P a slots → Q a slots) (hfilled : Filled P children parts) :
    Filled Q children parts :=
  List.Forall₂.imp (fun _ _ h => ⟨h.1, himp _ _ h.2⟩) hfilled

theorem Filled.imp_mem (hfilled : Filled P children parts)
    (himp : ∀ child ∈ children, ∀ slots, P child slots → Q child slots) :
    Filled Q children parts := by
  induction hfilled with
  | nil => exact List.Forall₂.nil
  | cons hchild _ ih =>
      refine List.Forall₂.cons ⟨hchild.1, himp _ List.mem_cons_self _ hchild.2⟩ (ih ?_)
      exact fun child hmem => himp child (List.mem_cons_of_mem _ hmem)

/-- Every child has its part, which is not empty, and every part its child. -/
theorem Filled.part_of_mem (hfilled : Filled P children parts) {child : γ}
    (hmem : child ∈ children) : ∃ part ∈ parts, part ≠ [] ∧ P child part :=
  exists_of_forall₂_right (List.Forall₂.flip hfilled) hmem

theorem Filled.child_of_mem (hfilled : Filled P children parts) {part : List Slot}
    (hmem : part ∈ parts) : ∃ child ∈ children, P child part := by
  obtain ⟨child, hchild, -, hpart⟩ := exists_of_forall₂_right hfilled hmem
  exact ⟨child, hchild, hpart⟩

/-- Only without children are there no slots. -/
theorem Filled.flatten_eq_nil (hfilled : Filled P children parts) :
    parts.flatten = [] ↔ children = [] := by
  cases hfilled with
  | nil => simp
  | cons hchild _ => simp [hchild.1]

end Filled

/-! ## Tiles -/

/-- The tiles of a header are the smallest around the points of slots. -/
structure Around (h : Header) (slots : List Slot) : Prop where
  x : h.x.Smallest (slots.map Slot.x)
  y : h.y.Smallest (slots.map Slot.y)

theorem Around.isWithin {h : Header} {slots : List Slot} (haround : Around h slots) {slot : Slot}
    (hslot : slot ∈ slots) : (Point.ofSlot slot).isWithin h = true := by
  rw [Point.isWithin, Bool.and_eq_true]
  exact ⟨haround.x.contains _ (List.mem_map_of_mem hslot),
    haround.y.contains _ (List.mem_map_of_mem hslot)⟩

theorem canonical_of_valid {slot : Slot} (hvalid : (Point.ofSlot slot).Valid) :
    slot.x.Canonical ∧ slot.y.Canonical := by
  obtain ⟨x, y, -, -, heq⟩ := hvalid
  have hx : slot.x = .point x := congrArg Point.x heq
  have hy : slot.y = .point y := congrArg Point.y heq
  rw [hx, hy]
  exact ⟨Tile.canonical_ofRank 0 x, Tile.canonical_ofRank 0 y⟩

/-- The tiles around slots at points are the smallest. -/
theorem around_of_slots {h : Header} {slots : List Slot} (hne : slots ≠ [])
    (hvalid : ∀ slot ∈ slots, (Point.ofSlot slot).Valid)
    (htiles : (h.x, h.y) = Tile.bounds (slots.map fun slot => (slot.x, slot.y))) :
    Around h slots := by
  have hcanonical : ∀ t ∈ slots.map (fun slot => (slot.x, slot.y)),
      t.1.Canonical ∧ t.2.Canonical := by
    intro t ht
    obtain ⟨slot, hslot, rfl⟩ := List.mem_map.1 ht
    exact canonical_of_valid (hvalid slot hslot)
  obtain ⟨hx, hy⟩ := Tile.smallest_bounds (by simpa using hne) hcanonical
  rw [← htiles, List.map_map] at hx hy
  exact ⟨hx, hy⟩

/-- The tiles around the tiles of children are the smallest around all that lies beneath. -/
theorem around_of_headers {h : Header} {headers : List Header} {parts : List (List Slot)}
    (hne : headers ≠ []) (hparts : List.Forall₂ Around headers parts)
    (htiles : (h.x, h.y) = Tile.bounds (headers.map fun k => (k.x, k.y))) :
    Around h parts.flatten := by
  have hcanonical : ∀ t ∈ headers.map (fun k => (k.x, k.y)),
      t.1.Canonical ∧ t.2.Canonical := by
    intro t ht
    obtain ⟨k, hk, rfl⟩ := List.mem_map.1 ht
    obtain ⟨part, -, haround⟩ := exists_of_forall₂_right hparts.flip hk
    exact ⟨haround.x.canonical, haround.y.canonical⟩
  obtain ⟨hx, hy⟩ := Tile.smallest_bounds (by simpa using hne) hcanonical
  rw [← htiles, List.map_map] at hx hy
  refine ⟨?_, ?_⟩
  · rw [List.map_flatten]
    exact hx.flatten (List.forall₂_map_left_iff.2 (List.forall₂_map_right_iff.2
      (hparts.imp fun _ _ haround => haround.x)))
  · rw [List.map_flatten]
    exact hy.flatten (List.forall₂_map_left_iff.2 (List.forall₂_map_right_iff.2
      (hparts.imp fun _ _ haround => haround.y)))

/-- The tiles of each child are the smallest around its part. -/
theorem Filled.around {γ : Type} {P : γ → List Slot → Prop} {children : List γ}
    {parts : List (List Slot)} (hfilled : Filled P children parts) (header : γ → Header)
    (hvalid : ∀ slot ∈ parts.flatten, (Point.ofSlot slot).Valid)
    (haround : ∀ child ∈ children, ∀ part, P child part → part ≠ [] →
      (∀ slot ∈ part, (Point.ofSlot slot).Valid) → Around (header child) part) :
    List.Forall₂ Around (children.map header) parts := by
  rw [List.forall₂_map_left_iff]
  induction hfilled with
  | nil => exact List.Forall₂.nil
  | cons hchild _ ih =>
      rw [List.flatten_cons] at hvalid
      refine List.Forall₂.cons (haround _ List.mem_cons_self _ hchild.2 hchild.1 ?_) (ih ?_ ?_)
      · exact fun slot hslot => hvalid slot (List.mem_append_left _ hslot)
      · exact fun slot hslot => hvalid slot (List.mem_append_right _ hslot)
      · exact fun child hmem => haround child (List.mem_cons_of_mem _ hmem)

/-! ## Pages -/

/-- What is said of a subtree: its height, the stem of its pages, a version that none of them is
newer than, the reference to its root, and the slots beneath. -/
abbrev Judgment := (height stem version : Nat) → PageRef → List Slot → Prop

/-- A page holds slots at a height. -/
def PageHolds (Branch : Judgment) : (height : Nat) → LivePage → List Slot → Prop
  | 0, p, slots => Slots.Sorted slots ∧ p.body = .qtreeLeaf slots
  | height + 1, p, slots => ∃ children parts, p.body = .qtreeNode children ∧
      Filled (Branch height p.stem p.version) children parts ∧ slots = parts.flatten

section PageHolds

variable {S S' : Judgment} {height : Nat} {p : LivePage} {slots : List Slot}

theorem PageHolds.imp (himp : ∀ height stem version r slots, S height stem version r slots →
    S' height stem version r slots) (hholds : PageHolds S height p slots) :
    PageHolds S' height p slots := by
  cases height with
  | zero => exact hholds
  | succ height =>
      obtain ⟨children, parts, hbody, hfilled, hslots⟩ := hholds
      exact ⟨children, parts, hbody, hfilled.imp fun _ _ => himp _ _ _ _ _, hslots⟩

/-- The height tells leaves from nodes. -/
theorem PageHolds.kind (hholds : PageHolds S height p slots) :
    p.kind = if height = 0 then .qtreeLeaf else .qtreeNode := by
  obtain ⟨version, stem, body⟩ := p
  cases height with
  | zero =>
      obtain ⟨-, rfl⟩ := hholds
      rfl
  | succ height =>
      obtain ⟨children, parts, rfl, -, -⟩ := hholds
      rfl

theorem PageHolds.treeKind (hholds : PageHolds S height p slots) : p.treeKind = .qtree := by
  rw [Page.treeKind, hholds.kind]
  split <;> rfl

/-- A page with slots or children holds slots. -/
theorem PageHolds.ne_nil_of_arity (hholds : PageHolds S height p slots) (harity : 0 < p.arity) :
    slots ≠ [] := by
  obtain ⟨version, stem, body⟩ := p
  cases height with
  | zero =>
      obtain ⟨-, rfl⟩ := hholds
      exact List.length_pos_iff.1 harity
  | succ height =>
      obtain ⟨children, parts, rfl, hfilled, rfl⟩ := hholds
      rw [Ne, hfilled.flatten_eq_nil]
      exact List.length_pos_iff.1 harity

/-- A node has its children beneath it. -/
theorem PageHolds.of_node (hholds : PageHolds S height p slots) {children : List PageRef}
    (hbody : p.body = .qtreeNode children) : ∃ below parts, height = below + 1 ∧
      Filled (S below p.stem p.version) children parts ∧ slots = parts.flatten := by
  cases height with
  | zero =>
      rw [PageHolds, hbody] at hholds
      cases hholds.2
  | succ below =>
      obtain ⟨children', parts, hchildren, hfilled, hslots⟩ := hholds
      rw [hbody] at hchildren
      cases hchildren
      exact ⟨below, parts, rfl, hfilled, hslots⟩

/-- A node that has neither no child nor a single one has at least two. -/
theorem PageHolds.two_le_arity (hholds : PageHolds S height p slots) (hnode : p.isNode = true)
    (hnone : p.body ≠ .qtreeNode []) (hone : ∀ r, p.body ≠ .qtreeNode [r]) : 2 ≤ p.arity := by
  obtain ⟨version, stem, body⟩ := p
  cases height with
  | zero =>
      obtain ⟨-, rfl⟩ := hholds
      cases hnode
  | succ height =>
      obtain ⟨children, parts, rfl, -, -⟩ := hholds
      rcases children with _ | ⟨r, _ | ⟨_, _⟩⟩
      · exact absurd rfl hnone
      · exact absurd rfl (hone r)
      · simp [Page.arity]

/-- Every child of a page is judged at the height below, with a part of its own. -/
theorem PageHolds.child (hholds : PageHolds S height p slots) {m : PageRef}
    (hm : m ∈ p.children) : ∃ below part, height = below + 1 ∧ part ≠ [] ∧
      S below p.stem p.version m part := by
  obtain ⟨version, stem, body⟩ := p
  cases height with
  | zero =>
      obtain ⟨-, rfl⟩ := hholds
      cases hm
  | succ height =>
      obtain ⟨children, parts, rfl, hfilled, -⟩ := hholds
      obtain ⟨part, -, hne, hchild⟩ := hfilled.part_of_mem hm
      exact ⟨height, part, rfl, hne, hchild⟩

/-- A node with slots has children. -/
theorem PageHolds.children_ne_nil (hholds : PageHolds S height p slots)
    (hnode : p.isNode = true) (hne : slots ≠ []) : p.children ≠ [] := by
  obtain ⟨version, stem, body⟩ := p
  cases height with
  | zero =>
      obtain ⟨-, rfl⟩ := hholds
      cases hnode
  | succ height =>
      obtain ⟨children, parts, rfl, hfilled, rfl⟩ := hholds
      rwa [Ne, hfilled.flatten_eq_nil] at hne

end PageHolds

/-! ## Terrains -/

/-- What proofs about Q-trees need to know of the states of a store. -/
class Terrain (W : Type) extends Realm W where
  /-- The reference stands for a subtree with slots. -/
  Branch : W → Judgment
  branch_grows {s s' : Store} {w w' : W} {height stem version : Nat} {r : PageRef}
    {slots : List Slot} : Realm.Grows s w s' w' → Branch w height stem version r slots →
    Branch w' height stem version r slots
  branch_raise {w : W} {height stem version version' : Nat} {r : PageRef} {slots : List Slot} :
    Branch w height stem version r slots → Realm.Below W version version' →
    Branch w height stem version' r slots
  branch_span {s : Store} {w : W} {height stem version : Nat} {r : PageRef} {slots : List Slot} :
    Realm.Represents s w → Branch w height stem version r slots → r.span = slots.length
  /-- The tiles of a reference are the smallest around the points beneath it. -/
  branch_around {s : Store} {w : W} {height stem version : Nat} {r : PageRef}
    {slots : List Slot} : Realm.Represents s w → Branch w height stem version r slots →
    slots ≠ [] → (∀ slot ∈ slots, (Point.ofSlot slot).Valid) → Around r.header slots
  branch_stem {s : Store} {w : W} {height stem version : Nat} {r : PageRef} {slots : List Slot} :
    Realm.Represents s w → Branch w height stem version r slots → r.stem = stem
  /-- References that are one have the same slots beneath. -/
  branch_same {s : Store} {w : W} {height height' stem version : Nat} {r r' : PageRef}
    {slots slots' : List Slot} : Realm.Represents s w → Branch w height stem version r slots →
    Branch w height' stem version r' slots' → r.same r' = true → slots = slots'
  /-- The subtree below a child is smaller, which bounds every descent. -/
  branch_treeSize_lt {s : Store} {w : W} {height stem version : Nat} {r m : PageRef}
    {slots : List Slot} {p : LivePage} : Realm.Represents s w →
    Branch w height stem version r slots → Realm.PageAt w r p → m ∈ p.children →
    m.treeSize < r.treeSize
  /-- The page of a subtree can be had. -/
  branch_page {s : Store} {w : W} {height stem version : Nat} {r : PageRef} {slots : List Slot} :
    Realm.Represents s w → Branch w height stem version r slots →
    Realm.Runs r.page s w fun p _ w' => Realm.PageAt w' r p ∧ p.stem = stem ∧
      Realm.Below W p.version version ∧ PageHolds (Branch w') height p slots
  /-- A page can be made. -/
  branch_ofPage {s : Store} {w : W} {height : Nat} {p : LivePage} {slots : List Slot} :
    Realm.Represents s w → PageHolds (Branch w) height p slots →
    Realm.Runs (PageRef.ofPage p .absent) s w fun r _ w' =>
      Branch w' height p.stem p.version r slots ∧ Realm.PageAt w' r p

variable {W : Type} [Terrain W] {s s' : Store} {w w' : W} {height stem version version' : Nat}
  {r : PageRef} {slots slots' : List Slot} {p : LivePage} {children : List PageRef}
  {parts : List (List Slot)}

/-- The slots beneath a reference are determined. -/
theorem Terrain.branch_unique (hrep : Realm.Represents s w)
    (hbranch : Terrain.Branch w height stem version r slots)
    (hbranch' : Terrain.Branch w height stem version r slots') : slots = slots' :=
  Terrain.branch_same hrep hbranch hbranch' (by simp [PageRef.same])

/-- A point where a slot lies is within the tiles around it. -/
theorem Terrain.isWithin (hrep : Realm.Represents s w)
    (hbranch : Terrain.Branch w height stem version r slots)
    (hvalid : ∀ slot ∈ slots, (Point.ofSlot slot).Valid) {slot : Slot} (hslot : slot ∈ slots) :
    (Point.ofSlot slot).isWithin r.header = true :=
  (Terrain.branch_around hrep hbranch (List.ne_nil_of_mem hslot) hvalid).isWithin hslot

/-- Children of a page of some stem and version, with the slots beneath each. -/
def Row (w : W) (height stem version : Nat) (children : List PageRef)
    (parts : List (List Slot)) : Prop :=
  Filled (Terrain.Branch w height stem version) children parts

theorem Row.grows (hgrows : Realm.Grows s w s' w')
    (hrow : Row w height stem version children parts) :
    Row w' height stem version children parts :=
  Filled.imp (fun _ _ => Terrain.branch_grows hgrows) hrow

theorem Row.raise (hrow : Row w height stem version children parts)
    (hle : Realm.Below W version version') : Row w height stem version' children parts :=
  Filled.imp (fun _ _ hbranch => Terrain.branch_raise hbranch hle) hrow

theorem pageHolds_grows (hgrows : Realm.Grows s w s' w')
    (hholds : PageHolds (Terrain.Branch w) height p slots) :
    PageHolds (Terrain.Branch w') height p slots :=
  hholds.imp fun _ _ _ _ _ => Terrain.branch_grows hgrows

end QTree
end PageTree
