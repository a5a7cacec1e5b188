import PageTree.Text.Reader
import PageTree.Tile
import PageTree.Value.Order
import PageTree.Value.Parser
import PageTree.Value.Printer

/-!
# Page headers

A header describes a page to those who hold a reference to it: where the page is stored, how
large it and its subtree are, what it covers, and the fold of its values.  Headers are written
inside the text of parent pages and seeds.
-/

namespace PageTree

/-- The description of a page that its references carry. -/
structure Header where
  /-- The oldest zone that the subtree depends on, 0 if none. -/
  post : Nat
  /-- The zone that the page is stored in, 0 while it is uncommitted. -/
  zone : Nat
  /-- The offset just past the page in its zone, 0 while it is uncommitted. -/
  base : Nat
  /-- The size of the page's text in bytes. -/
  size : Nat
  /-- The size of the texts of the whole subtree, each page with its newline. -/
  area : Nat
  /-- The number of entries in the leaves of the subtree. -/
  span : Nat
  /-- The horizontal tile around the entries. -/
  x : Tile
  /-- The vertical tile around the entries. -/
  y : Tile
  /-- The fold of the values of the subtree, `absent` if it is not known. -/
  fold : Value
  deriving DecidableEq, Repr

namespace Header

/-- The header that a text without fields would give. -/
def blank : Header := ⟨0, 0, 0, 0, 0, 0, ⟨0⟩, ⟨0⟩, .absent⟩

instance : Inhabited Header := ⟨blank⟩

/-- The page is stored in a zone. -/
def isCommitted (h : Header) : Bool :=
  0 < h.zone && 0 < h.base

/-! ## Printing -/

/-- A tile in hexadecimal. -/
def renderTile (t : Tile) : List Char :=
  "0x".toList ++ Text.hexDigits 16 t.bits.toNat

/-- A named count. -/
def renderCount (name : String) (n : Nat) : List Char :=
  name.toList ++ ':' :: Text.decimal n

/-- The printed fields of a header.  The post is left out where it is the zone, the tiles
where the tree has none, and the fold where it is not known. -/
def renderFields (h : Header) (isTiled : Bool) : List (List Char) :=
  (if h.post = h.zone then [] else [renderCount "post" h.post]) ++
  [renderCount "zone" h.zone, renderCount "base" h.base, renderCount "size" h.size,
   renderCount "area" h.area, renderCount "span" h.span] ++
  (if isTiled then ["x:".toList ++ renderTile h.x, "y:".toList ++ renderTile h.y] else []) ++
  (if h.fold.isDefined then ["fold:".toList ++ h.fold.render] else [])

/-- The characters of a header's text. -/
def render (h : Header) (isTiled : Bool) : List Char :=
  "@page(".toList ++ (Text.joinWith ',' (h.renderFields isTiled) ++ [')'])

/-- The text of a header. -/
def toText (h : Header) (isTiled : Bool) : String :=
  String.ofList (h.render isTiled)

/-- The size of a header's text in bytes. -/
def textSize (h : Header) (isTiled : Bool) : Nat :=
  Text.byteLength (h.render isTiled)

/-! ## Reading -/

/-- A field as it is read. -/
inductive Field where
  | post (zone : Nat)
  | zone (zone : Nat)
  | base (offset : Nat)
  | size (bytes : Nat)
  | area (bytes : Nat)
  | span (entries : Nat)
  | x (tile : Tile)
  | y (tile : Tile)
  | fold (value : Value)
  deriving DecidableEq, Repr

/-- Sets a field; the post is settled after all fields are known. -/
def setField (h : Header) : Field → Header
  | .post _ => h
  | .zone zone => { h with zone }
  | .base base => { h with base }
  | .size size => { h with size }
  | .area area => { h with area }
  | .span span => { h with span }
  | .x x => { h with x }
  | .y y => { h with y }
  | .fold fold => { h with fold }

/-- The last post among fields. -/
def lastPost? : List Field → Option Nat
  | [] => none
  | .post zone :: fields => some ((lastPost? fields).getD zone)
  | _ :: fields => lastPost? fields

/-- The header that fields give.  The last of several fields of one name counts, and a post
that is not given is the zone. -/
def ofFields (fields : List Field) : Header :=
  let h := fields.foldl setField blank
  { h with post := (lastPost? fields).getD h.zone }

end Header

namespace Reading

/-- Reads items with commas between them, at most `n + 1` of them. -/
def separated {α : Type} (item : Reading α) : (n : Nat) → Reading (List α)
  | 0 => return [← item]
  | n + 1 => do
    let a ← item
    if ← eat ',' then
      return a :: (← separated item n)
    else
      return [a]

/-- Reads items with commas between them.  Each comma is a character, so there are not more
items than characters left and one. -/
def commaSeparated {α : Type} (item : Reading α) : Reading (List α) := do
  separated item (← get).rest.length

/-- Reads items with commas between them in braces. -/
def braced {α : Type} (item : Reading α) : Reading (List α) := do
  expect '\x7b'
  if ← eat '\x7d' then
    return []
  else
    let items ← commaSeparated item
    expect '\x7d'
    return items

/-- Reads a count, a decimal number of 63 bits. -/
def count (what : String) : Reading Nat := do
  let n ← integer
  if n.toInt < 0 then
    fail ("negative " ++ what)
  return n.toInt.toNat

/-- Reads the number of a zone, which has 32 bits. -/
def zoneNumber (what : String) : Reading Nat := do
  let n ← count what
  if UInt32.size ≤ n then
    fail (what ++ " out of range")
  return n

/-- Reads a tile. -/
def tile : Reading Tile :=
  return ⟨← hexNumber⟩

/-- Reads a field of a header. -/
def headerField : Reading Header.Field := do
  let name ← ident
  expect ':'
  match name with
  | "post" => return .post (← zoneNumber "post")
  | "zone" => return .zone (← zoneNumber "zone")
  | "base" => return .base (← count "base")
  | "size" => return .size (← count "size")
  | "area" => return .area (← count "area")
  | "span" => return .span (← count "span")
  | "x" => return .x (← tile)
  | "y" => return .y (← tile)
  | "fold" => return .fold (← value)
  | _ => fail ("unknown field \"" ++ name ++ "\"")

/-- Reads a header. -/
def header : Reading Header := do
  expectText "@page("
  let fields ← commaSeparated headerField
  expect ')'
  return .ofFields fields

end Reading

/-- The header that a whole text spells. -/
def Header.parse (text : String) : Except StoreError Header :=
  (Reading.header.parse text).mapError fun e => .malformedPageRef e.reason text

end PageTree
