import PageTree.Page.Header
import PageTree.Page.Kind

/-!
# Pages

A page is a leaf or a node of a tree, written at some version.  What a node holds of its
children is a parameter of the type: a page in memory holds references (`Page PageRef`), the
text of a page holds headers (`Page Header`).
-/

namespace PageTree

/-- An entry of a Q-tree leaf: a key and its value at a point of the plane. -/
structure Slot where
  key : Value
  x : Tile
  y : Tile
  value : Value
  deriving DecidableEq, Repr, Inhabited

/-- What a page holds. -/
inductive PageBody (γ : Type) where
  /-- Entries in the order of their keys. -/
  | btreeLeaf (slots : List (Value × Value))
  /-- Children, each with the least key of its subtree. -/
  | btreeNode (children : List (Value × γ))
  /-- The value of a register. -/
  | utreeLeaf (value : Value)
  /-- Entries in the order of their keys. -/
  | qtreeLeaf (slots : List Slot)
  /-- Children, whose headers tell the tiles around them. -/
  | qtreeNode (children : List γ)
  deriving Inhabited

/-- A page, with `γ` for its children. -/
structure Page (γ : Type) where
  /-- The version that the page was written at. -/
  version : Nat
  /-- The stem of the tree that the page belongs to. -/
  stem : Nat
  body : PageBody γ
  deriving Inhabited

namespace PageBody

variable {γ δ : Type}

/-- The children of a page, with something else for each. -/
def map (f : γ → δ) : PageBody γ → PageBody δ
  | btreeLeaf slots => btreeLeaf slots
  | btreeNode children => btreeNode (children.map fun (key, child) => (key, f child))
  | utreeLeaf value => utreeLeaf value
  | qtreeLeaf slots => qtreeLeaf slots
  | qtreeNode children => qtreeNode (children.map f)

/-- The children of a page, replaced one after another by an action. -/
def mapM {m : Type → Type} [Monad m] (f : γ → m δ) : PageBody γ → m (PageBody δ)
  | btreeLeaf slots => return btreeLeaf slots
  | btreeNode children =>
    return btreeNode (← children.mapM fun (key, child) => return (key, ← f child))
  | utreeLeaf value => return utreeLeaf value
  | qtreeLeaf slots => return qtreeLeaf slots
  | qtreeNode children => return qtreeNode (← children.mapM f)

end PageBody

namespace Page

variable {γ δ : Type}

/-- The empty page of a kind of tree. -/
def empty (kind : TreeKind) (stem version : Nat) : Page γ :=
  ⟨version, stem, match kind with
    | .btree => .btreeLeaf []
    | .utree => .utreeLeaf .absent
    | .qtree => .qtreeLeaf []⟩

/-- The kind of a page. -/
def kind (p : Page γ) : PageKind :=
  match p.body with
  | .btreeLeaf _ => .btreeLeaf
  | .btreeNode _ => .btreeNode
  | .utreeLeaf _ => .utreeLeaf
  | .qtreeLeaf _ => .qtreeLeaf
  | .qtreeNode _ => .qtreeNode

/-- The kind of tree that a page belongs to. -/
def treeKind (p : Page γ) : TreeKind :=
  p.kind.treeKind

/-- The page has children. -/
def isNode (p : Page γ) : Bool :=
  p.kind.isNode

/-- The number of slots or children. -/
def arity (p : Page γ) : Nat :=
  match p.body with
  | .btreeLeaf slots => slots.length
  | .btreeNode children => children.length
  | .utreeLeaf value => if value.isDefined then 1 else 0
  | .qtreeLeaf slots => slots.length
  | .qtreeNode children => children.length

/-- The children of a page, in order; a leaf has none. -/
def children (p : Page γ) : List γ :=
  match p.body with
  | .btreeNode children => children.map Prod.snd
  | .qtreeNode children => children
  | _ => []

/-- The child at an index. -/
def child? (p : Page γ) (index : Nat) : Option γ :=
  p.children[index]?

/-- The values of a leaf, in order; a node has none. -/
def values (p : Page γ) : List Value :=
  match p.body with
  | .btreeLeaf slots => slots.map Prod.snd
  | .utreeLeaf value => if value.isDefined then [value] else []
  | .qtreeLeaf slots => slots.map Slot.value
  | _ => []

/-- The page with something else for each child. -/
def map (f : γ → δ) (p : Page γ) : Page δ :=
  ⟨p.version, p.stem, p.body.map f⟩

/-- The page at a version, its children replaced one after another by an action. -/
def mapChildren {m : Type → Type} [Monad m] (p : Page γ) (version : Nat) (f : γ → m δ) :
    m (Page δ) :=
  return ⟨version, p.stem, ← p.body.mapM f⟩

end Page
end PageTree
