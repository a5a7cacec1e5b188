/-!
# Kinds of trees and pages
-/

namespace PageTree

/-- The kinds of trees. -/
inductive TreeKind where
  /-- An ordered map. -/
  | btree
  /-- A register of one value. -/
  | utree
  /-- A map of points in the plane. -/
  | qtree
  deriving DecidableEq, Repr, Inhabited

namespace TreeKind

/-- The name of a kind in seeds. -/
def name : TreeKind → String
  | btree => "btree"
  | utree => "utree"
  | qtree => "qtree"

/-- The kind of a name. -/
def ofName? : String → Option TreeKind
  | "btree" => some btree
  | "utree" => some utree
  | "qtree" => some qtree
  | _ => none

/-- The name of a kind in descriptions. -/
def describe : TreeKind → String
  | btree => "BTree"
  | utree => "UTree"
  | qtree => "QTree"

/-- References to the pages of the tree carry tiles. -/
def isTiled : TreeKind → Bool
  | qtree => true
  | _ => false

theorem ofName?_name (kind : TreeKind) : ofName? kind.name = some kind := by
  cases kind <;> rfl

end TreeKind

/-- The kinds of pages. -/
inductive PageKind where
  | btreeLeaf
  | btreeNode
  | utreeLeaf
  | qtreeLeaf
  | qtreeNode
  deriving DecidableEq, Repr, Inhabited

namespace PageKind

/-- The tag that a page's text starts with. -/
def tag : PageKind → String
  | btreeLeaf => "bleaf"
  | btreeNode => "bnode"
  | utreeLeaf => "uleaf"
  | qtreeLeaf => "qleaf"
  | qtreeNode => "qnode"

/-- The kind of a tag. -/
def ofTag? : String → Option PageKind
  | "bleaf" => some btreeLeaf
  | "bnode" => some btreeNode
  | "uleaf" => some utreeLeaf
  | "qleaf" => some qtreeLeaf
  | "qnode" => some qtreeNode
  | _ => none

/-- The name of a kind in descriptions. -/
def describe : PageKind → String
  | btreeLeaf => "BTreeLeaf"
  | btreeNode => "BTreeNode"
  | utreeLeaf => "UTreeLeaf"
  | qtreeLeaf => "QTreeLeaf"
  | qtreeNode => "QTreeNode"

/-- The kind of tree that has such pages. -/
def treeKind : PageKind → TreeKind
  | btreeLeaf | btreeNode => .btree
  | utreeLeaf => .utree
  | qtreeLeaf | qtreeNode => .qtree

/-- The page is a node, that is, it has children. -/
def isNode : PageKind → Bool
  | btreeNode | qtreeNode => true
  | _ => false

theorem ofTag?_tag (kind : PageKind) : ofTag? kind.tag = some kind := by
  cases kind <;> rfl

end PageKind
end PageTree
