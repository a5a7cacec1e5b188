import Mathlib.Algebra.Ring.Nat
import PageTree.Ref.Basic

/-!
# Pages and what they hold of their children

A page is the same whatever stands for its children.  These lemmas let facts about a page go
from references to headers and back: `Page.map` changes only the children, and two pages of one
`shape` differ only in them.
-/

namespace PageTree

theorem le_sum_of_mem {n : Nat} {ns : List Nat} (hmem : n ∈ ns) : n ≤ ns.sum := by
  induction ns with
  | nil => simp at hmem
  | cons k ns ih =>
      rw [List.sum_cons]
      rcases List.mem_cons.1 hmem with rfl | hmem
      · omega
      · have := ih hmem
        omega

/-- The sizes of the pages of a tree are added up. -/
theorem Page.area_eq_sum (p : Page Header) :
    p.area = p.size + 1 + (p.children.map Header.area).sum :=
  rfl

theorem Page.span_eq_sum (p : Page Header) :
    p.span = if p.isNode then (p.children.map Header.span).sum else p.arity :=
  rfl

theorem getD_mem_cons {α : Type} (first : α) (rest : List α) (index : Nat) :
    (first :: rest).getD index first ∈ first :: rest := by
  rw [List.getD_eq_getElem?_getD]
  cases hat : (first :: rest)[index]? with
  | none => exact List.mem_cons_self
  | some child => exact List.mem_of_getElem? hat

variable {γ δ ε : Type}

namespace PageBody

/-- What a page holds beside its children: its kind, its keys and its entries. -/
def shape (body : PageBody γ) : PageBody Unit :=
  body.map fun _ => ()

/-- The children of what a page holds, in order. -/
def children : PageBody γ → List γ
  | btreeNode children => children.map Prod.snd
  | qtreeNode children => children
  | _ => []

/-- The values that a leaf holds, in order; a node has none. -/
def values (body : PageBody γ) : List Value :=
  (⟨0, 0, body⟩ : Page γ).values

@[simp] theorem values_map (f : γ → δ) (body : PageBody γ) : (body.map f).values = body.values := by
  cases body <;> rfl

@[simp] theorem values_shape (body : PageBody γ) : body.shape.values = body.values :=
  values_map _ body

theorem map_map (f : γ → δ) (g : δ → ε) (body : PageBody γ) :
    (body.map f).map g = body.map fun a => g (f a) := by
  cases body <;> simp [map]

theorem map_id (body : PageBody γ) : body.map (fun a => a) = body := by
  cases body <;> simp [map]

@[simp] theorem shape_map (f : γ → δ) (body : PageBody γ) : (body.map f).shape = body.shape :=
  map_map _ _ body

@[simp] theorem children_map (f : γ → δ) (body : PageBody γ) :
    (body.map f).children = body.children.map f := by
  cases body <;> simp [map, children]

/-- A body is known by its shape and its children. -/
theorem ext_of_shape {a b : PageBody γ} (hshape : a.shape = b.shape)
    (hchildren : a.children = b.children) : a = b := by
  cases a with
  | btreeNode as =>
      cases b with
      | btreeNode bs =>
          simp only [shape, map, children, btreeNode.injEq] at hshape hchildren ⊢
          -- the shape of a node has its keys, so only the references are left to compare
          induction as generalizing bs with
          | nil => cases bs <;> simp_all
          | cons a as ih =>
              cases bs with
              | nil => simp at hshape
              | cons b bs =>
                  simp only [List.map_cons, List.cons.injEq, Prod.mk.injEq, and_true] at *
                  exact ⟨Prod.ext hshape.1 hchildren.1, ih bs hchildren.2 hshape.2⟩
      | _ => simp [shape, map] at hshape
  | qtreeNode as =>
      cases b with
      | qtreeNode bs => simpa [children] using hchildren
      | _ => simp [shape, map] at hshape
  | _ =>
      cases b <;> simp [shape, map] at hshape ⊢
      all_goals exact hshape

end PageBody

namespace Page

theorem children_eq (p : Page γ) : p.children = p.body.children := by
  cases p with
  | mk version stem body => cases body <;> rfl

@[simp] theorem map_version (f : γ → δ) (p : Page γ) : (p.map f).version = p.version := rfl

@[simp] theorem map_stem (f : γ → δ) (p : Page γ) : (p.map f).stem = p.stem := rfl

@[simp] theorem map_body (f : γ → δ) (p : Page γ) : (p.map f).body = p.body.map f := rfl

@[simp] theorem map_children (f : γ → δ) (p : Page γ) :
    (p.map f).children = p.children.map f := by
  simp [children_eq]

@[simp] theorem map_kind (f : γ → δ) (p : Page γ) : (p.map f).kind = p.kind := by
  cases p with
  | mk version stem body => cases body <;> rfl

@[simp] theorem map_treeKind (f : γ → δ) (p : Page γ) : (p.map f).treeKind = p.treeKind := by
  simp [treeKind]

@[simp] theorem map_isNode (f : γ → δ) (p : Page γ) : (p.map f).isNode = p.isNode := by
  simp [isNode]

@[simp] theorem map_arity (f : γ → δ) (p : Page γ) : (p.map f).arity = p.arity := by
  cases p with
  | mk version stem body => cases body <;> simp [map, PageBody.map, arity]

@[simp] theorem map_values (f : γ → δ) (p : Page γ) : (p.map f).values = p.values := by
  cases p with
  | mk version stem body => cases body <;> rfl

theorem values_eq (p : Page γ) : p.values = p.body.values := by
  cases p with
  | mk version stem body => cases body <;> rfl

theorem map_map (f : γ → δ) (g : δ → ε) (p : Page γ) :
    (p.map f).map g = p.map fun a => g (f a) := by
  simp [map, PageBody.map_map]

theorem map_id (p : Page γ) : p.map (fun a => a) = p := by
  simp [map, PageBody.map_id]

/-- The kind of a page follows from its shape. -/
theorem kind_of_shape {p : Page γ} {q : Page δ} (hshape : p.body.shape = q.body.shape) :
    p.kind = q.kind := by
  cases p with
  | mk version stem body =>
      cases q with
      | mk version' stem' body' =>
          cases body <;> cases body' <;>
            first | rfl | simp [PageBody.shape, PageBody.map] at hshape

theorem treeKind_of_shape {p : Page γ} {q : Page δ} (hshape : p.body.shape = q.body.shape) :
    p.treeKind = q.treeKind := by
  rw [treeKind, treeKind, kind_of_shape hshape]

theorem isNode_of_shape {p : Page γ} {q : Page δ} (hshape : p.body.shape = q.body.shape) :
    p.isNode = q.isNode := by
  rw [isNode, isNode, kind_of_shape hshape]

/-- A page that is not a node has no children. -/
theorem children_of_not_isNode {p : Page γ} (hleaf : p.isNode = false) : p.children = [] := by
  cases p with
  | mk version stem body =>
      cases body <;> first | rfl | simp [isNode, kind, PageKind.isNode] at hleaf

/-- A node has as many slots as children. -/
theorem length_children {p : Page γ} (hnode : p.isNode = true) : p.children.length = p.arity := by
  cases p with
  | mk version stem body =>
      cases body with
      | btreeNode children => exact List.length_map _
      | qtreeNode children => rfl
      | btreeLeaf | utreeLeaf | qtreeLeaf => cases hnode

@[simp] theorem stored_version (p : LivePage) : p.stored.version = p.version := rfl

@[simp] theorem stored_stem (p : LivePage) : p.stored.stem = p.stem := rfl

@[simp] theorem stored_treeKind (p : LivePage) : p.stored.treeKind = p.treeKind :=
  map_treeKind _ p

@[simp] theorem stored_children (p : LivePage) :
    p.stored.children = p.children.map PageRef.header :=
  map_children _ p

end Page
end PageTree
