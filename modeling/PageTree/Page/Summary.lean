import PageTree.Page.Basic

/-!
# The text of a page, and what a header says of it

A page's text is its tag, its stem and version, and its slots or children in braces.
`Header.ofPage` is the header of a page that is not stored yet.  All of it but the fold
follows from the page and the headers of its children.
-/

namespace PageTree

/-! ## Texts -/

/-- The characters of a slot: its key, its tiles and its value. -/
def Slot.render (s : Slot) : List Char :=
  s.key.render ++ "@tile(x:".toList ++ Header.renderTile s.x ++ ",y:".toList ++
    Header.renderTile s.y ++ "):".toList ++ s.value.render

/-- The characters of a key and what belongs to it. -/
def renderKeyed (key : Value) (item : List Char) : List Char :=
  key.render ++ ':' :: item

/-- The characters of what a page holds. -/
def PageBody.render : PageBody Header → List Char
  | btreeLeaf slots =>
    Text.joinWith ',' (slots.map fun (key, value) => renderKeyed key value.render)
  | btreeNode children =>
    Text.joinWith ',' (children.map fun (key, child) => renderKeyed key (child.render false))
  | utreeLeaf value => value.render
  | qtreeLeaf slots => Text.joinWith ',' (slots.map Slot.render)
  | qtreeNode children => Text.joinWith ',' (children.map fun child => child.render true)

namespace Page

/-- The characters of a page's text. -/
def render (p : Page Header) : List Char :=
  '@' :: (p.kind.tag.toList ++ "(stem:".toList ++ Text.decimal p.stem ++ ",v:".toList ++
    Text.decimal p.version ++ ')' :: '\x7b' :: (p.body.render ++ ['\x7d']))

/-- The text of a page. -/
def toText (p : Page Header) : String :=
  String.ofList p.render

end Page

/-! ## Headers -/

/-- The number of entries beneath a page. -/
def Page.span (p : Page Header) : Nat :=
  if p.isNode then (p.children.map Header.span).foldr (· + ·) 0 else p.arity

/-- The size of a page's text in bytes. -/
def Page.size (p : Page Header) : Nat :=
  Text.byteLength p.render

/-- The size of the texts of a page and of all pages beneath it, each with its newline. -/
def Page.area (p : Page Header) : Nat :=
  p.size + 1 + (p.children.map Header.area).foldr (· + ·) 0

/-- The tiles around the entries beneath a page; only pages of Q-trees have any. -/
def Page.tiles (p : Page Header) : Tile × Tile :=
  match p.body with
  | .qtreeLeaf slots => Tile.bounds (slots.map fun slot => (slot.x, slot.y))
  | .qtreeNode children => Tile.bounds (children.map fun child => (child.x, child.y))
  | _ => (⟨0⟩, ⟨0⟩)

/-- The posts of children that depend on a zone at all. -/
def Page.childPosts (p : Page Header) : List Nat :=
  (p.children.map Header.post).filter (· != 0)

/-- The header of a page that is not stored yet. -/
def Header.ofPage (p : Page Header) (fold : Value) : Header where
  post := p.childPosts.min?.getD 0
  zone := 0
  base := 0
  size := p.size
  area := p.area
  span := p.span
  x := p.tiles.1
  y := p.tiles.2
  fold := fold

end PageTree
