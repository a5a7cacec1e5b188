import PageTree.BTree.Write
import PageTree.Proofs.Listing
import PageTree.Proofs.Loading

/-!
# Realms of B-trees

Where the pages of a tree are found is one question, and what a B-tree does with them is another.
A *realm* answers the first: it says which subtrees there are in a state of the store and what
their pages hold, how the state may grow, and how operations that read and make pages are reasoned
about.  Whatever is proved of B-trees over a realm holds in each of them: for trees of which any
part lies in zones, and for trees that memory holds throughout.

Of a page it only matters what its children are keyed with and what lies beneath them (`Keyed`,
`PageHolds`).
-/

namespace PageTree
namespace BTree

/-! ## Keyed children -/

section Keyed

variable {γ : Type} {P Q : γ → List Entry → Prop} {children : List (Value × γ)}
  {parts : List (List Entry)}

/-- Every child is keyed with the first key of its part and holds the part. -/
def Keyed (P : γ → List Entry → Prop) (children : List (Value × γ))
    (parts : List (List Entry)) : Prop :=
  List.Forall₂ (fun child part => part.head?.map Prod.fst = some child.1 ∧ P child.2 part)
    children parts

theorem Keyed.imp (himp : ∀ a es, P a es → Q a es) (hkeyed : Keyed P children parts) :
    Keyed Q children parts :=
  List.Forall₂.imp (fun _ _ h => ⟨h.1, himp _ _ h.2⟩) hkeyed

theorem Keyed.imp_mem (hkeyed : Keyed P children parts)
    (himp : ∀ child ∈ children, ∀ es, P child.2 es → Q child.2 es) : Keyed Q children parts := by
  induction hkeyed with
  | nil => exact List.Forall₂.nil
  | cons hchild _ ih =>
      refine List.Forall₂.cons ⟨hchild.1, himp _ List.mem_cons_self _ hchild.2⟩ (ih ?_)
      exact fun child hmem => himp child (List.mem_cons_of_mem _ hmem)

theorem Keyed.append {children' : List (Value × γ)} {parts' : List (List Entry)}
    (hkeyed : Keyed P children parts) (hkeyed' : Keyed P children' parts') :
    Keyed P (children ++ children') (parts ++ parts') :=
  List.rel_append hkeyed hkeyed'

/-- Children in two stretches have parts in two stretches. -/
theorem Keyed.of_append {as bs : List (Value × γ)} (hkeyed : Keyed P (as ++ bs) parts) :
    ∃ ps qs, parts = ps ++ qs ∧ Keyed P as ps ∧ Keyed P bs qs :=
  exists_of_forall₂_append hkeyed

/-- The children hold their parts, whatever their keys. -/
theorem Keyed.beneath (hkeyed : Keyed P children parts) :
    List.Forall₂ P (children.map Prod.snd) parts :=
  List.forall₂_map_left_iff.2 (List.Forall₂.imp (fun _ _ h => h.2) hkeyed)

/-- No part is empty. -/
theorem Keyed.ne_nil (hkeyed : Keyed P children parts) : ∀ part ∈ parts, part ≠ [] := by
  induction hkeyed with
  | nil => simp
  | cons hchild _ ih =>
      intro part hmem
      rcases List.mem_cons.1 hmem with rfl | hmem
      · rintro rfl
        cases hchild.1
      · exact ih part hmem

/-- Only without children are there no entries. -/
theorem Keyed.flatten_eq_nil (hkeyed : Keyed P children parts) :
    parts.flatten = [] ↔ children = [] := by
  cases hkeyed with
  | nil => simp
  | cons hchild hrest =>
      have hne := (Keyed.ne_nil (List.Forall₂.cons hchild hrest)) _ List.mem_cons_self
      simp [hne]

/-- The first key of all is that of the first child. -/
theorem Keyed.head_key (hkeyed : Keyed P children parts) :
    parts.flatten.head?.map Prod.fst = children.head?.map Prod.fst := by
  cases hkeyed with
  | nil => rfl
  | cons hchild _ =>
      rw [List.flatten_cons, List.head?_append]
      obtain ⟨e, he, hkey⟩ := Option.map_eq_some_iff.1 hchild.1
      simp [he, hkey]

/-- The first key of a sorted list is not greater than any other. -/
theorem head_key_le {es : List Entry} {key : Value} (hsorted : Entries.Sorted es)
    (hhead : es.head?.map Prod.fst = some key) :
    ∀ e ∈ es, Value.compare key e.1 ≠ .gt := by
  cases es with
  | nil => cases hhead
  | cons e es =>
      cases hhead
      intro a ha
      rcases List.mem_cons.1 ha with rfl | ha
      · simp
      · simp [(Entries.sorted_cons.1 hsorted).1 a ha]

theorem sorted_of_mem_flatten {part : List Entry} (hsorted : Entries.Sorted parts.flatten)
    (hmem : part ∈ parts) : Entries.Sorted part :=
  hsorted.sublist (List.sublist_flatten_of_mem hmem)

/-- The keys of the children increase with the entries. -/
theorem Keyed.keys_lt (hkeyed : Keyed P children parts)
    (hsorted : Entries.Sorted parts.flatten) :
    children.Pairwise fun a b => Value.compare a.1 b.1 = .lt := by
  induction hkeyed with
  | nil => exact List.Pairwise.nil
  | @cons child part children parts hchild hrest ih =>
      rw [List.flatten_cons, Entries.sorted_append] at hsorted
      refine List.Pairwise.cons ?_ (ih hsorted.2.1)
      intro child' hmem
      obtain ⟨e, he, hkey⟩ := Option.map_eq_some_iff.1 hchild.1
      obtain ⟨as, bs, rfl⟩ := List.append_of_mem hmem
      obtain ⟨ps, qs, rfl, -, hqs⟩ := Keyed.of_append hrest
      obtain ⟨part', parts', hhead, -, rfl⟩ := List.forall₂_cons_left_iff.1 hqs
      obtain ⟨e', he', hkey'⟩ := Option.map_eq_some_iff.1 hhead.1
      -- the entries that give the two children their keys lie in different parts
      have hlt := hsorted.2.2 e (List.mem_of_mem_head? he) e' (by
        simp [List.mem_of_mem_head? he'])
      rwa [hkey, hkey'] at hlt

end Keyed

/-! ## Pages -/

/-- What is said of a subtree: its height, the stem of its pages, a version that none of them is
newer than, the reference to its root, and the entries beneath. -/
abbrev Judgment := (height stem version : Nat) → PageRef → List Entry → Prop

/-- A page holds entries at a height. -/
def PageHolds (Subtree : Judgment) : (height : Nat) → LivePage → List Entry → Prop
  | 0, p, es => p.body = .btreeLeaf es
  | height + 1, p, es => ∃ children parts, p.body = .btreeNode children ∧
      Keyed (Subtree height p.stem p.version) children parts ∧ es = parts.flatten

section PageHolds

variable {S S' : Judgment} {height : Nat} {p : LivePage} {es : List Entry}

theorem PageHolds.imp (himp : ∀ height stem version r es, S height stem version r es →
    S' height stem version r es) (hholds : PageHolds S height p es) :
    PageHolds S' height p es := by
  cases height with
  | zero => exact hholds
  | succ height =>
      obtain ⟨children, parts, hbody, hkeyed, hes⟩ := hholds
      exact ⟨children, parts, hbody, hkeyed.imp fun _ _ => himp _ _ _ _ _, hes⟩

theorem PageHolds.treeKind (hholds : PageHolds S height p es) : p.treeKind = .btree := by
  obtain ⟨version, stem, body⟩ := p
  cases height with
  | zero =>
      cases hholds
      rfl
  | succ height =>
      obtain ⟨children, parts, rfl, -, -⟩ := hholds
      rfl

/-- The height tells leaves from nodes. -/
theorem PageHolds.kind (hholds : PageHolds S height p es) :
    p.kind = if height = 0 then .btreeLeaf else .btreeNode := by
  obtain ⟨version, stem, body⟩ := p
  cases height with
  | zero =>
      cases hholds
      rfl
  | succ height =>
      obtain ⟨children, parts, rfl, -, -⟩ := hholds
      rfl

/-- A page with slots or children has entries. -/
theorem PageHolds.ne_nil_of_arity (hholds : PageHolds S height p es) (harity : 0 < p.arity) :
    es ≠ [] := by
  obtain ⟨version, stem, body⟩ := p
  cases height with
  | zero =>
      cases hholds
      exact List.length_pos_iff.1 harity
  | succ height =>
      obtain ⟨children, parts, rfl, hkeyed, rfl⟩ := hholds
      rw [Ne, hkeyed.flatten_eq_nil]
      exact List.length_pos_iff.1 harity

/-- The least key of a page is the first key of its entries. -/
theorem PageHolds.firstKey (hholds : PageHolds S height p es) (hne : es ≠ []) :
    es.head?.map Prod.fst = some (firstKey p) := by
  obtain ⟨version, stem, body⟩ := p
  cases height with
  | zero =>
      cases hholds
      cases es with
      | nil => exact absurd rfl hne
      | cons e es => rfl
  | succ height =>
      obtain ⟨children, parts, rfl, hkeyed, rfl⟩ := hholds
      rw [hkeyed.head_key]
      cases children with
      | nil => exact absurd (hkeyed.flatten_eq_nil.2 rfl) hne
      | cons child children => rfl

/-- A node has its children beneath it. -/
theorem PageHolds.of_node (hholds : PageHolds S height p es) {children : List (Value × PageRef)}
    (hbody : p.body = .btreeNode children) : ∃ below parts, height = below + 1 ∧
      Keyed (S below p.stem p.version) children parts ∧ es = parts.flatten := by
  cases height with
  | zero =>
      rw [PageHolds, hbody] at hholds
      cases hholds
  | succ below =>
      obtain ⟨children', parts, hchildren, hkeyed, hes⟩ := hholds
      rw [hbody] at hchildren
      cases hchildren
      exact ⟨below, parts, rfl, hkeyed, hes⟩

/-- A node that has neither no child nor a single one has at least two. -/
theorem PageHolds.two_le_arity (hholds : PageHolds S height p es) (hnode : p.isNode = true)
    (hnone : p.body ≠ .btreeNode []) (hone : ∀ key r, p.body ≠ .btreeNode [(key, r)]) :
    2 ≤ p.arity := by
  obtain ⟨version, stem, body⟩ := p
  cases height with
  | zero =>
      cases hholds
      cases hnode
  | succ height =>
      obtain ⟨children, parts, rfl, -, -⟩ := hholds
      rcases children with _ | ⟨⟨key, r⟩, _ | ⟨_, _⟩⟩
      · exact absurd rfl hnone
      · exact absurd rfl (hone key r)
      · simp [Page.arity]

/-- Every child of a page is judged at the height below, with a part of its own. -/
theorem PageHolds.child (hholds : PageHolds S height p es) {m : PageRef} (hm : m ∈ p.children) :
    ∃ below part, height = below + 1 ∧ part ≠ [] ∧ S below p.stem p.version m part := by
  obtain ⟨version, stem, body⟩ := p
  cases height with
  | zero =>
      cases hholds
      cases hm
  | succ height =>
      obtain ⟨children, parts, rfl, hkeyed, -⟩ := hholds
      obtain ⟨part, hpart, hchild⟩ := exists_of_forall₂_right hkeyed.beneath.flip hm
      exact ⟨height, part, rfl, hkeyed.ne_nil part hpart, hchild⟩

/-- A node with entries has children. -/
theorem PageHolds.children_ne_nil (hholds : PageHolds S height p es) (hnode : p.isNode = true)
    (hne : es ≠ []) : p.children ≠ [] := by
  obtain ⟨version, stem, body⟩ := p
  cases height with
  | zero =>
      cases hholds
      cases hnode
  | succ height =>
      obtain ⟨children, parts, rfl, hkeyed, rfl⟩ := hholds
      rw [Ne, hkeyed.flatten_eq_nil] at hne
      simpa [Page.children] using hne

end PageHolds

/-! ## Realms -/

/-- What proofs about B-trees need to know of the states of a store. -/
class Realm (W : Type) where
  /-- The store is as the state says. -/
  Represents : Store → W → Prop
  /-- What an operation on trees makes of a store and its state. -/
  Grows : Store → W → Store → W → Prop
  /-- The operation makes the state grow, and its result has a property. -/
  Runs : {α : Type} → StoreM α → Store → W → (α → Store → W → Prop) → Prop
  /-- The reference stands for a subtree with sorted entries. -/
  Subtree : W → Judgment
  /-- The page of a reference. -/
  PageAt : W → PageRef → LivePage → Prop
  /-- Pages of one version may stand below a page of another. -/
  Below : Nat → Nat → Prop
  grows_refl {s : Store} {w : W} : Represents s w → Grows s w s w
  grows_trans {s s' s'' : Store} {w w' w'' : W} :
    Grows s w s' w' → Grows s' w' s'' w'' → Grows s w s'' w''
  represents {s s' : Store} {w w' : W} : Grows s w s' w' → Represents s' w'
  pure {α : Type} {a : α} {s : Store} {w : W} {P : α → Store → W → Prop} :
    Represents s w → P a s w → Runs (pure a : StoreM α) s w P
  bind {α β : Type} {m : StoreM α} {f : α → StoreM β} {s : Store} {w : W}
    {P : α → Store → W → Prop} {Q : β → Store → W → Prop} : Runs m s w P →
    (∀ a s' w', Grows s w s' w' → P a s' w' → Runs (f a) s' w' Q) → Runs (m >>= f) s w Q
  mono {α : Type} {m : StoreM α} {s : Store} {w : W} {P Q : α → Store → W → Prop} : Runs m s w P →
    (∀ a s' w', Grows s w s' w' → P a s' w' → Q a s' w') → Runs m s w Q
  get {β : Type} {f : Store → StoreM β} {s : Store} {w : W} {Q : β → Store → W → Prop} :
    Runs (f s) s w Q → Runs (get >>= f) s w Q
  below_refl (version : Nat) : Below version version
  subtree_grows {s s' : Store} {w w' : W} {height stem version : Nat} {r : PageRef}
    {es : List Entry} : Grows s w s' w' → Subtree w height stem version r es →
    Subtree w' height stem version r es
  subtree_raise {w : W} {height stem version version' : Nat} {r : PageRef} {es : List Entry} :
    Subtree w height stem version r es → Below version version' →
    Subtree w height stem version' r es
  sorted {w : W} {height stem version : Nat} {r : PageRef} {es : List Entry} :
    Subtree w height stem version r es → Entries.Sorted es
  span {s : Store} {w : W} {height stem version : Nat} {r : PageRef} {es : List Entry} :
    Represents s w → Subtree w height stem version r es → r.span = es.length
  stem {s : Store} {w : W} {height stem version : Nat} {r : PageRef} {es : List Entry} :
    Represents s w → Subtree w height stem version r es → r.stem = stem
  /-- References that are one have the same entries beneath. -/
  same {s : Store} {w : W} {height height' stem version : Nat} {r r' : PageRef}
    {es es' : List Entry} : Represents s w → Subtree w height stem version r es →
    Subtree w height' stem version r' es' → r.same r' = true → es = es'
  /-- The subtree below a child is smaller, which bounds every descent. -/
  treeSize_lt {s : Store} {w : W} {height stem version : Nat} {r m : PageRef} {es : List Entry}
    {p : LivePage} : Represents s w → Subtree w height stem version r es → PageAt w r p →
    m ∈ p.children → m.treeSize < r.treeSize
  /-- The page of a subtree can be had. -/
  page_runs {s : Store} {w : W} {height stem version : Nat} {r : PageRef} {es : List Entry} :
    Represents s w → Subtree w height stem version r es →
    Runs r.page s w fun p _ w' => PageAt w' r p ∧ p.stem = stem ∧ Below p.version version ∧
      PageHolds (Subtree w') height p es
  /-- A page can be made. -/
  ofPage_runs {s : Store} {w : W} {height : Nat} {p : LivePage} {es : List Entry} :
    Represents s w → Entries.Sorted es → PageHolds (Subtree w) height p es →
    Runs (PageRef.ofPage p .absent) s w fun r _ w' =>
      Subtree w' height p.stem p.version r es ∧ PageAt w' r p

/-- Either branch may be taken. -/
theorem Realm.ite {W α : Type} [Realm W] {s : Store} {w : W} {P : α → Store → W → Prop} {p : Prop}
    [Decidable p] {m m' : StoreM α} (hthen : p → Realm.Runs m s w P)
    (helse : ¬ p → Realm.Runs m' s w P) : Realm.Runs (if p then m else m') s w P := by
  split
  · next hp => exact hthen hp
  · next hp => exact helse hp

end BTree
end PageTree
