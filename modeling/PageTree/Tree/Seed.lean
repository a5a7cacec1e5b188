import PageTree.Ref.Load
import PageTree.Timestamp

/-!
# Seeds

A seed is what a tree is known by outside of the store: its kind, its stem and its dates.
The text of a seed is followed by the header of the root, so that it is enough to open the
tree again.
-/

namespace PageTree

/-- The lasting identity of a tree. -/
structure Seed where
  kind : TreeKind
  /-- The stem of the tree's pages. -/
  stem : Nat
  created : Timestamp
  /-- When the tree was last committed. -/
  updated : Timestamp
  deriving DecidableEq, Repr, Inhabited

namespace Seed

/-- The seed with the date of a commit; dates never go back. -/
def touched (seed : Seed) (now : Timestamp) : Seed :=
  { seed with updated := seed.updated.latest now }

/-- The characters of a seed and a header. -/
def render (seed : Seed) (root : List Char) : List Char :=
  "@seed(tree:".toList ++ seed.kind.name.toList ++
    ",stem:".toList ++ Text.decimal seed.stem ++
    ",created:".toList ++ Text.decimal seed.created.millis ++
    ",updated:".toList ++ Text.decimal seed.updated.millis ++ ')' :: root

/-- The text of a seed and the root of its tree. -/
def toText (seed : Seed) (root : PageRef) : String :=
  String.ofList (seed.render (root.header.render root.tree.isTiled))

end Seed

namespace Reading

/-- Reads a point of time. -/
def timestamp (what : String) : Reading Timestamp :=
  return ⟨← count what⟩

/-- Reads a seed without the root's header. -/
def seed : Reading Seed := do
  expectText "@seed(tree:"
  let name ← ident
  let some kind := TreeKind.ofName? name | fail ("unknown tree type \"" ++ name ++ "\"")
  expectText ",stem:"
  let stem ← count "stem"
  expectText ",created:"
  let created ← timestamp "created"
  expectText ",updated:"
  let updated ← timestamp "updated"
  expect ')'
  return ⟨kind, stem, created, updated⟩

/-- Reads a seed and the root's header. -/
def seedAndRoot : Reading (Seed × Header) := do
  let seed ← seed
  return (seed, ← header)

end Reading

/-- The seed and the root's header that a whole text spells. -/
def Seed.parse (text : String) : Except StoreError (Seed × Header) :=
  (Reading.seedAndRoot.parse text).mapError fun e => .malformedSeed e.reason text

end PageTree
