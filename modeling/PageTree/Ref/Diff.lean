import PageTree.Ref.Load

/-!
# Diffs

A diff is the text that a commit appends to a zone: the uncommitted pages of a tree, children
before parents, each followed by a newline.  Writing it gives every page its place.
-/

namespace PageTree

/-- What texts can be written into one after another. -/
class Sink (ω : Type) where
  /-- Nothing has been written yet. -/
  blank : ω
  put : ω → List Char → ω

/-- Texts that are kept, last first. -/
instance : Sink (List (List Char)) where
  blank := []
  put texts text := text :: texts

/-- The number of bytes of texts that are not kept. -/
structure ByteCount where
  bytes : Nat

instance : Sink ByteCount where
  blank := ⟨0⟩
  put count text := ⟨count.bytes + Text.byteLength text⟩

/-- A diff that is being written into something. -/
structure DiffWriter (ω : Type) where
  /-- The zone that the diff goes to. -/
  zone : Nat
  /-- The offset of the next page in the zone. -/
  offset : Nat
  /-- Pages newer than this version are left out. -/
  version : Nat
  /-- The pages written so far, each with its newline. -/
  pages : ω

namespace DiffWriter

variable {ω : Type} [Sink ω]

/-- A diff that starts at an offset of a zone. -/
def start (zone offset version : Nat) : DiffWriter ω :=
  ⟨zone, offset, version, Sink.blank⟩

/-- Appends a page's text. -/
def append (diff : DiffWriter ω) (text : List Char) : DiffWriter ω :=
  { diff with
    offset := diff.offset + Text.byteLength text + 1
    pages := Sink.put diff.pages (text ++ ['\n']) }

end DiffWriter

/-- A diff that keeps the texts of its pages, last first. -/
abbrev Diff := DiffWriter (List (List Char))

/-- The text of a diff. -/
def DiffWriter.toText (diff : Diff) : String :=
  String.ofList diff.pages.reverse.flatten

/-- The header of a page that is written to a zone and ends at an offset. -/
def Header.located (h : Header) (page : Page Header) (zone base : Nat) : Header :=
  { h with
    post := page.childPosts.foldl min zone
    zone
    base
    size := page.size
    area := page.area }

namespace PageRef

section Commit

variable {ω : Type} [Sink ω]

/-- Does the work of `committed` within a depth, appending to a diff. -/
def commitWithin : Nat → PageRef → StateT (DiffWriter ω) StoreM PageRef
  | 0, _ => throw StoreM.tooDeep
  | depth + 1, r => do
    if r.isCommitted then return r
    match ← (r.hold : StoreM Hold) with
    | .strong copy =>
      let version := copy.page.version
      if (← get).version < version then return r
      let copy ←
        if copy.page.isNode then do
          let page ← copy.page.mapChildren version (commitWithin depth)
          (copyOf page : StoreM PageCopy)
        else pure copy
      let page := copy.page.stored
      modify (·.append page.render)
      let diff ← get
      (holding r.tree r.stem (r.header.located page diff.zone (diff.offset - 1)) copy :
        StoreM PageRef)
    | _ => throw (.notCommitted (← (r.describe : StoreM String)))

/-- Writes the uncommitted pages of the subtree into a diff and gives them their places.
Pages newer than the diff's version are left as they are. -/
def commitInto (r : PageRef) (diff : DiffWriter ω) : StoreM (PageRef × DiffWriter ω) := do
  commitWithin ((← get).depthBound r) r diff

end Commit

/-- The reference with the places that its pages would have in a diff.  The texts are only
counted. -/
def committed (r : PageRef) (zone base version : Nat) : StoreM PageRef := do
  let (root, _) ← r.commitInto (.start zone base version : DiffWriter ByteCount)
  return root

/-! ## Rebasing -/

/-- Uncommitted references, by identity, each with its committed counterpart. -/
abbrev CommitPairs := List (Nat × PageRef)

/-- Does the work of `pairCommitted` within a depth. -/
def pairWithin : Nat → PageRef → PageRef → StateT CommitPairs StoreM Unit
  | 0, _, _ => throw StoreM.tooDeep
  | depth + 1, r, counterpart => do
    if r.same counterpart then return
    match ← (r.hardPage? : StoreM _), ← (counterpart.hardPage? : StoreM _) with
    | some page, some written =>
      (page.children.zip written.children).forM fun (a, b) => pairWithin depth a b
    | _, _ => pure ()
    modify ((r.id, counterpart) :: ·)

/-- The pages of a subtree with their counterparts in the same subtree after a commit. -/
def pairCommitted (r counterpart : PageRef) : StoreM CommitPairs := do
  let (_, pairs) ← pairWithin ((← get).depthBound r) r counterpart []
  return pairs

/-- The counterpart of a reference. -/
def CommitPairs.find? (pairs : CommitPairs) (r : PageRef) : Option PageRef :=
  (List.find? (fun pair => pair.1 == r.id) pairs).map Prod.snd

/-- Does the work of `rebased` within a depth. -/
def rebasedWithin (pairs : CommitPairs) : Nat → PageRef → StoreM PageRef
  | 0, _ => throw StoreM.tooDeep
  | depth + 1, r => do
    match pairs.find? r with
    | some counterpart => return counterpart
    | none =>
      if r.isCommitted then return r
      match ← r.hardPage? with
      | none => return r
      | some page =>
        if !page.isNode then return r
        let rebuilt ← page.mapChildren page.version (rebasedWithin pairs depth)
        if anyMoved page.children rebuilt.children then
          ofPage rebuilt r.fold
        else
          return r

/-- The subtree with every page replaced that has a counterpart, and the uncommitted pages
above them rebuilt. -/
def rebased (r : PageRef) (pairs : CommitPairs) : StoreM PageRef := do
  rebasedWithin pairs ((← get).depthBound r) r

end PageRef
end PageTree
