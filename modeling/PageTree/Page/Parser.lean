import PageTree.Page.Basic

/-!
# Reading a page

The inverse of the printer.  The children are read as headers; whoever reads a page makes
references of them.
-/

namespace PageTree
namespace Reading

/-- Reads an entry of a B-tree leaf. -/
def keyValue : Reading (Value × Value) := do
  let key ← value
  expect ':'
  return (key, ← value)

/-- Reads a child of a B-tree node. -/
def keyHeader : Reading (Value × Header) := do
  let key ← value
  expect ':'
  return (key, ← header)

/-- Reads an entry of a Q-tree leaf. -/
def slot : Reading Slot := do
  let key ← value
  expectText "@tile(x:"
  let x ← tile
  expectText ",y:"
  let y ← tile
  expectText "):"
  return ⟨key, x, y, ← value⟩

/-- Reads what a page of a kind holds, braces included. -/
def pageBody : PageKind → Reading (PageBody Header)
  | .btreeLeaf => return .btreeLeaf (← braced keyValue)
  | .btreeNode => return .btreeNode (← braced keyHeader)
  | .utreeLeaf => do
    expect '\x7b'
    let v ← value
    expect '\x7d'
    return .utreeLeaf v
  | .qtreeLeaf => return .qtreeLeaf (← braced slot)
  | .qtreeNode => return .qtreeNode (← braced header)

/-- Reads a page. -/
def page : Reading (Page Header) := do
  expect '@'
  let tag ← ident
  let some kind := PageKind.ofTag? tag | fail ("unknown page type \"" ++ tag ++ "\"")
  expectText "(stem:"
  let stem ← count "stem"
  expectText ",v:"
  let version ← count "version"
  expect ')'
  return ⟨version, stem, ← pageBody kind⟩

end Reading

/-- The page that a whole text spells. -/
def Page.parse (text : String) : Except StoreError (Page Header) :=
  (Reading.page.parse text).mapError fun e => .malformedPage e.reason text

end PageTree
