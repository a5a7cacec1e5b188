import PageTree.Page.Summary

/-!
# Page references

A `PageRef` stands for a page of a tree without holding it.  It has an identity, under which
the store keeps the page while it is in memory, and it carries the page's header, so that
sizes, spans and folds are known without the page.
-/

namespace PageTree

/-- A reference to a page. -/
structure PageRef where
  /-- The identity of the reference. -/
  id : Nat
  /-- The kind of the tree that the page belongs to. -/
  tree : TreeKind
  /-- The stem of the tree that the page belongs to. -/
  stem : Nat
  header : Header
  /-- The size of the uncommitted pages of the subtree, each with its newline. -/
  diffSize : Nat
  deriving DecidableEq, Repr, Inhabited

namespace PageRef

/-- Two references are one. -/
def same (a b : PageRef) : Bool :=
  a.id == b.id

def post (r : PageRef) : Nat := r.header.post

def zone (r : PageRef) : Nat := r.header.zone

def base (r : PageRef) : Nat := r.header.base

def span (r : PageRef) : Nat := r.header.span

def fold (r : PageRef) : Value := r.header.fold

/-- The size of the page's text. -/
def pageSize (r : PageRef) : Nat := r.header.size

/-- The size of the texts of the subtree. -/
def treeSize (r : PageRef) : Nat := r.header.area

/-- The page is stored in a zone. -/
def isCommitted (r : PageRef) : Bool := r.header.isCommitted

/-- The text of the reference, that is, of its header. -/
def toText (r : PageRef) : String :=
  r.header.toText r.tree.isTiled

/-- The size of the reference's text. -/
def textSize (r : PageRef) : Nat :=
  r.header.textSize r.tree.isTiled

/-- The text of the reference as a value. -/
def toValue (r : PageRef) : Value :=
  .text r.toText

end PageRef

/-- The header that a value made by `PageRef.toValue` holds. -/
def Header.ofValue (v : Value) : Except StoreError Header :=
  match v.text? with
  | some text => Header.parse text
  | none => .error (.malformedPageRef "expected text" v.toText)

/-- A page in memory. -/
abbrev LivePage := Page PageRef

/-- The page as it is stored, with the headers of its children. -/
def Page.stored (p : LivePage) : Page Header :=
  p.map PageRef.header

end PageTree
