import PageTree.Page.Summary
import PageTree.Proofs.Pages
import PageTree.Proofs.Text.Headers
import PageTree.Tree.Seed

/-!
# The texts of pages and seeds

A page whose numbers can be read is what its text spells (`Page.parse_toText`), and so is a header
with or without its tiles (`Page.texts_spell_back`).  The text of any other page may be refused, but
it never spells another page (`Page.parse_toText_cases`).

A seed is written with the header of the root of its tree, and both are what is read of the text
(`Seed.parse_toText_cases`).
-/

namespace PageTree

/-- The numbers of a page can be read. -/
structure Page.Fits (p : Page Header) : Prop where
  stem : p.stem < 2 ^ 63
  version : p.version < 2 ^ 63
  children : ∀ h ∈ p.children, h.Fits

namespace Reading

variable {fits : Prop}

/-! ## What pages hold -/

theorem renderKeyed_begins (key : Value) (item : List Char) : Begins (renderKeyed key item) := by
  obtain ⟨c, cs, htext, hc⟩ := begins_render key
  exact ⟨c, cs ++ ':' :: item, by rw [renderKeyed, htext, List.cons_append], hc⟩

/-- A key with what belongs to it. -/
theorem keyed_spells {α : Type} {item : Reading α} {key : Value} {a : α} {text : List Char}
    {after : List Char → Prop} (hitem : Spells item a text after fits) :
    Spells (value >>= fun key => expect ':' >>= fun _ => item >>= fun a => return (key, a))
      (key, a) (renderKeyed key text) after fits := by
  refine (value_spells key).bind ((expect_spells ':').bind hitem.map fun _ _ => trivial) ?_
  exact fun _ _ => open_cons (by decide)

theorem slot_begins (s : Slot) : Begins s.render := by
  obtain ⟨c, cs, htext, hc⟩ := begins_render s.key
  exact ⟨c, _, by rw [Slot.render, htext]; rfl, hc⟩

/-- The text of a slot spells it. -/
theorem slot_spells (s : Slot) : Spells slot s s.render Open fits := by
  have hvalue : Spells (value >>= fun v => return Slot.mk s.key s.x s.y v) s s.value.render Open
      fits := (value_spells s.value).map
  unfold Slot.render
  simp only [List.append_assoc]
  refine (value_spells s.key).bind ((expectText_spells "@tile(x:").bind
    ((tile_spells s.x).bind ((expectText_spells ",y:").bind ((tile_spells s.y).bind
      ((expectText_spells "):").bind hvalue ?_) ?_) ?_) ?_) ?_) ?_
  · exact fun _ _ => trivial
  · exact fun _ _ => open_cons (c := ')') (by decide)
  · exact fun _ _ => trivial
  · exact fun _ _ => open_cons (c := ',') (by decide)
  · exact fun _ _ => trivial
  · exact fun _ _ => open_cons (c := '@') (by decide)

theorem header_begins (h : Header) (isTiled : Bool) : Begins (h.render isTiled) :=
  ⟨'@', _, rfl, by decide⟩

/-- The text of what a page holds spells it. -/
theorem pageBody_spells (p : Page Header) (huntiled : p.treeKind ≠ .qtree →
    ∀ h ∈ p.children, h.x = ⟨0⟩ ∧ h.y = ⟨0⟩) :
    Spells (pageBody p.kind) p.body ('\x7b' :: (p.body.render ++ ['\x7d'])) Anything
      (∀ h ∈ p.children, h.Fits) := by
  obtain ⟨version, stem, body⟩ := p
  cases body with
  | btreeLeaf slots =>
      have hslots : Spells (braced keyValue) slots ('\x7b' :: (Text.joinWith ','
          (slots.map fun slot => renderKeyed slot.1 slot.2.render) ++ ['\x7d'])) Anything
          (∀ h ∈ ([] : List Header), h.Fits) := by
        refine braced_spells keyValue (fun slot => renderKeyed slot.1 slot.2.render) slots ?_ ?_
        · exact fun slot _ => keyed_spells (value_spells slot.2)
        · exact fun slot _ => renderKeyed_begins slot.1 _
      exact hslots.map (f := PageBody.btreeLeaf)
  | btreeNode children =>
      have hchildren : Spells (braced keyHeader) children ('\x7b' :: (Text.joinWith ','
          (children.map fun child => renderKeyed child.1 (child.2.render false)) ++ ['\x7d']))
          Anything (∀ h ∈ children.map Prod.snd, h.Fits) := by
        refine braced_spells keyHeader (fun child => renderKeyed child.1 (child.2.render false))
          children ?_ ?_
        · intro child hchild
          have hmem : child.2 ∈ children.map Prod.snd := List.mem_map_of_mem hchild
          -- without tiles a header is written shorter, and still spells itself
          have hheader := header_spells child.2 false fun _ =>
            huntiled (fun hkind => TreeKind.noConfusion hkind) child.2 hmem
          exact ((keyed_spells hheader).weaken fun hfits => hfits child.2 hmem).narrow
            fun _ _ => trivial
        · exact fun child _ => renderKeyed_begins child.1 _
      exact hchildren.map (f := PageBody.btreeNode)
  | utreeLeaf v =>
      refine (expect_spells '\x7b').bind ((value_spells v).bind
        ((expect_spells '\x7d').bind (Spells.pure _) ?_) ?_) ?_
      · exact fun _ _ => trivial
      · exact fun _ _ => open_cons (by decide)
      · exact fun _ _ => trivial
  | qtreeLeaf slots =>
      have hslots : Spells (braced slot) slots _ Anything (∀ h ∈ ([] : List Header), h.Fits) :=
        braced_spells slot Slot.render slots (fun s _ => slot_spells s) fun s _ => slot_begins s
      exact hslots.map (f := PageBody.qtreeLeaf)
  | qtreeNode children =>
      have hchildren : Spells (braced header) children ('\x7b' :: (Text.joinWith ','
          (children.map fun child => child.render true) ++ ['\x7d'])) Anything
          (∀ h ∈ children, h.Fits) := by
        refine braced_spells header (fun child => child.render true) children ?_ ?_
        · intro child hchild
          have hheader := header_spells child true fun h => Bool.noConfusion h
          exact (hheader.weaken fun hfits => hfits child hchild).narrow fun _ _ => trivial
        · exact fun child _ => header_begins child true
      exact hchildren.map (f := PageBody.qtreeNode)

/-! ## Pages -/

theorem tag_spells (kind : PageKind) : Spells ident kind.tag kind.tag.toList Open fits := by
  apply ident_spells
  cases kind <;> decide

/-- The text of a page spells it, if its numbers can be read. -/
theorem page_spells (p : Page Header) (huntiled : p.treeKind ≠ .qtree →
    ∀ h ∈ p.children, h.x = ⟨0⟩ ∧ h.y = ⟨0⟩) : Spells page p p.render Anything p.Fits := by
  have hbody : Spells (pageBody p.kind >>= fun body => return ⟨p.version, p.stem, body⟩) p
      ('\x7b' :: (p.body.render ++ ['\x7d'])) Anything p.Fits :=
    ((pageBody_spells p huntiled).weaken Page.Fits.children).map
  have hversion := (count_spells "version" p.version).weaken Page.Fits.version
  have hstem := (count_spells "stem" p.stem).weaken Page.Fits.stem
  have hrest : Spells (do
      expectText "(stem:"
      let stem ← count "stem"
      expectText ",v:"
      let version ← count "version"
      expect ')'
      return ⟨version, stem, ← pageBody p.kind⟩) p
      ("(stem:".toList ++ (Text.decimal p.stem ++ (",v:".toList ++ (Text.decimal p.version ++
        ([')'] ++ ('\x7b' :: (p.body.render ++ ['\x7d']))))))) Anything p.Fits := by
    refine (expectText_spells "(stem:").bind (hstem.bind ((expectText_spells ",v:").bind
      (hversion.bind ((expect_spells ')').bind hbody ?_) ?_) ?_) ?_) ?_
    · exact fun _ _ => trivial
    · exact fun _ _ => open_cons (c := ')') (by decide)
    · exact fun _ _ => trivial
    · exact fun _ _ => open_cons (c := ',') (by decide)
    · exact fun _ _ => trivial
  unfold Page.render
  simp only [List.append_assoc]
  refine (expect_spells '@').bind ((tag_spells p.kind).bind ?_ ?_) fun _ _ => trivial
  · -- the tag says how the rest is to be read
    rw [PageKind.ofTag?_tag]
    exact hrest
  · exact fun _ _ => open_cons (c := '(') (by decide)

end Reading

/-- A whole text is read from its start to its end. -/
theorem Reading.parse_ofList {α : Type} (step : Reading α) (cs : List Char) :
    step.parse (String.ofList cs) =
      (Reading.exec (step >>= fun a => finish >>= fun _ => return a) ⟨[], cs⟩).1 := by
  rw [Reading.parse, TextReader.ofString, String.toList_ofList]
  rfl

/-- What spells a value to the end of a text is parsed as it. -/
theorem Reading.Spells.parse_cases {α : Type} {step : Reading α} {a : α} {cs : List Char}
    {after : List Char → Prop} {fits : Prop} (hstep : Spells step a cs after fits)
    (hend : after []) :
    step.parse (String.ofList cs) = .ok a ∨
      ¬ fits ∧ ∃ e, step.parse (String.ofList cs) = .error e := by
  rw [parse_ofList, exec_bind]
  have hrun := hstep [] [] hend
  rw [List.append_nil] at hrun
  rcases hrun with hok | ⟨hunfit, e, r, herror⟩
  · refine Or.inl ?_
    rw [hok]
    rfl
  · refine Or.inr ⟨hunfit, e, ?_⟩
    rw [herror]

/-- A page whose numbers can be read is what its text spells; the text of any other page may be
refused. -/
theorem Page.parse_toText_cases (p : Page Header)
    (huntiled : p.treeKind ≠ .qtree → ∀ h ∈ p.children, h.x = ⟨0⟩ ∧ h.y = ⟨0⟩) :
    Page.parse p.toText = .ok p ∨
      ¬ p.Fits ∧ ∃ reason text, Page.parse p.toText = .error (.malformedPage reason text) := by
  unfold Page.parse Page.toText
  rcases (Reading.page_spells p huntiled).parse_cases trivial with hok | ⟨hunfit, e, herror⟩
  · refine Or.inl ?_
    rw [hok]
    rfl
  · refine Or.inr ⟨hunfit, e.reason, String.ofList p.render, ?_⟩
    rw [herror]
    rfl

/-- A page whose numbers can be read is what its text spells. -/
theorem Page.parse_toText {p : Page Header}
    (huntiled : p.treeKind ≠ .qtree → ∀ h ∈ p.children, h.x = ⟨0⟩ ∧ h.y = ⟨0⟩)
    (hfits : p.Fits) : Page.parse p.toText = .ok p := by
  rcases p.parse_toText_cases huntiled with hok | ⟨hunfit, -⟩
  · exact hok
  · exact absurd hfits hunfit

/-- A header whose numbers can be read is what its text spells. -/
theorem Header.parse_toText {h : Header} {isTiled : Bool}
    (htiles : isTiled = false → h.x = ⟨0⟩ ∧ h.y = ⟨0⟩) (hfits : h.Fits) :
    Header.parse (h.toText isTiled) = .ok h := by
  unfold Header.parse Header.toText
  rcases (Reading.header_spells h isTiled htiles).parse_cases trivial with hok | ⟨hunfit, -⟩
  · rw [hok]
    rfl
  · exact absurd hfits hunfit

/-- Printing loses nothing of pages and headers whose numbers can be read, whatever values they
hold: the text of a page spells the page, and so does the text of a header, with its tiles or,
where it has none, without. -/
theorem Page.texts_spell_back :
    (∀ p : Page Header, p.Fits →
      (p.treeKind = .btree → ∀ h ∈ p.children, h.x = ⟨0⟩ ∧ h.y = ⟨0⟩) →
      Page.parse p.toText = .ok p) ∧
    ∀ (h : Header) (isTiled : Bool), h.Fits → (isTiled = false → h.x = ⟨0⟩ ∧ h.y = ⟨0⟩) →
      Header.parse (h.toText isTiled) = .ok h := by
  refine ⟨fun p hfits huntiled => Page.parse_toText (fun hkind h hmem => ?_) hfits,
    fun h isTiled hfits htiles => Header.parse_toText htiles hfits⟩
  obtain ⟨version, stem, body⟩ := p
  cases body with
  | btreeNode children => exact huntiled rfl h hmem
  | qtreeNode children => exact absurd rfl hkind
  | btreeLeaf _ | utreeLeaf _ | qtreeLeaf _ => exact absurd hmem List.not_mem_nil

/-- A node over a child that depends on an older zone than its own, and that child's header. -/
theorem Page.texts_spell_back_node :
    let child : Header := ⟨1, 2, 40, 33, 34, 3, ⟨0⟩, ⟨0⟩, .list [.text "a,\x7d", .absent]⟩
    let node : Page Header := ⟨5, 1, .btreeNode [(.list [.int (-1), .data [0]], child)]⟩
    Page.parse node.toText = .ok node ∧ Header.parse (child.toText true) = .ok child := by
  have hchild : Header.Fits
      ⟨1, 2, 40, 33, 34, 3, ⟨0⟩, ⟨0⟩, .list [.text "a,\x7d", .absent]⟩ := by
    constructor <;> decide
  refine ⟨Page.texts_spell_back.1 _ ⟨by decide, by decide, fun h hmem => ?_⟩ fun _ h hmem => ?_,
    Page.texts_spell_back.2 _ true hchild fun htiles => absurd htiles (by decide)⟩
  · rw [List.mem_singleton.1 hmem]
    exact hchild
  · rw [List.mem_singleton.1 hmem]
    exact ⟨rfl, rfl⟩

/-! ## Sizes -/

/-- The size of a text is that of its characters. -/
theorem Text.utf8ByteSize_ofList (cs : List Char) :
    (String.ofList cs).utf8ByteSize = byteLength cs := by
  induction cs with
  | nil => rfl
  | cons c cs ih =>
      rw [String.ofList_cons, String.utf8ByteSize_append, byteLength_cons, ← ih]
      simp

theorem Text.length_le_byteLength (cs : List Char) : cs.length ≤ Text.byteLength cs := by
  induction cs with
  | nil => simp
  | cons c cs ih =>
      have hpos := c.utf8Size_pos
      rw [Text.byteLength_cons, List.length_cons]
      omega

theorem Text.length_le_length_joinWith {α : Type} (f : α → List Char) (as : List α) :
    as.length ≤ (Text.joinWith ',' (as.map f)).length + 1 := by
  cases as with
  | nil => simp
  | cons a as =>
      have hrest := Reading.length_le_joinWith (f a) (as.map f)
      rw [List.length_map] at hrest
      simpa using hrest

/-- Each slot of a page takes room. -/
theorem Page.arity_le_size (p : Page Header) : p.arity ≤ p.size := by
  have hbody : p.arity ≤ p.body.render.length + 1 := by
    obtain ⟨version, stem, body⟩ := p
    cases body with
    | utreeLeaf value =>
        simp only [Page.arity]
        split <;> omega
    | _ => exact Text.length_le_length_joinWith _ _
  have hlength := Text.length_le_byteLength p.render
  have hrender : p.body.render.length + 1 ≤ p.render.length := by
    simp only [Page.render, List.length_cons, List.length_append]
    omega
  exact Nat.le_trans hbody (Nat.le_trans hrender hlength)

/-! ## Seeds -/

section Seeds

/-- The numbers of a seed can be read. -/
structure Seed.Fits (seed : Seed) : Prop where
  stem : seed.stem < 2 ^ 63
  created : seed.created.millis < 2 ^ 63
  updated : seed.updated.millis < 2 ^ 63

/-- What follows the seed stands behind it. -/
theorem Seed.render_append (s : Seed) (root : List Char) :
    s.render root = s.render [] ++ root := by
  have happend : ∀ text : List Char, text ++ ')' :: root = (text ++ [')']) ++ root := by simp
  unfold Seed.render
  exact happend _

namespace Reading

/-- The text of a point of time spells it. -/
theorem timestamp_spells (what : String) (t : Timestamp) :
    Spells (timestamp what) t (Text.decimal t.millis) Open (t.millis < 2 ^ 63) :=
  (count_spells what t.millis).map

/-- The text of a seed spells it. -/
theorem seed_spells (s : Seed) : Spells seed s (s.render []) Anything s.Fits := by
  have hstem := (count_spells "stem" s.stem).weaken (fun hfits : s.Fits => hfits.stem)
  have hcreated := (timestamp_spells "created" s.created).weaken
    (fun hfits : s.Fits => hfits.created)
  have hupdated := (timestamp_spells "updated" s.updated).weaken
    (fun hfits : s.Fits => hfits.updated)
  have hrest : Spells (do
      expectText ",stem:"
      let stem ← count "stem"
      expectText ",created:"
      let created ← timestamp "created"
      expectText ",updated:"
      let updated ← timestamp "updated"
      expect ')'
      return ⟨s.kind, stem, created, updated⟩) s
      (",stem:".toList ++ (Text.decimal s.stem ++ (",created:".toList ++
        (Text.decimal s.created.millis ++ (",updated:".toList ++
          (Text.decimal s.updated.millis ++ ([')'] ++ []))))))) Anything s.Fits := by
    refine (expectText_spells ",stem:").bind (hstem.bind ((expectText_spells ",created:").bind
      (hcreated.bind ((expectText_spells ",updated:").bind (hupdated.bind
        ((expect_spells ')').bind (Spells.pure _) ?_) ?_) ?_) ?_) ?_) ?_) ?_
    · exact fun _ _ => trivial
    · exact fun _ _ => open_cons (c := ')') (by decide)
    · exact fun _ _ => trivial
    · exact fun _ _ => open_cons (c := ',') (by decide)
    · exact fun _ _ => trivial
    · exact fun _ _ => open_cons (c := ',') (by decide)
    · exact fun _ _ => trivial
  have hname : s.kind.name.toList ≠ [] ∧ s.kind.name.toList.all isIdentChar = true := by
    cases s.kind <;> decide
  unfold Seed.render
  simp only [List.append_assoc]
  refine (expectText_spells "@seed(tree:").bind ((ident_spells _ hname).bind ?_ ?_) ?_
  · rw [TreeKind.ofName?_name]
    exact hrest
  · exact fun _ _ => open_cons (c := ',') (by decide)
  · exact fun _ _ => trivial

/-- The text of a seed and the root's header spells both. -/
theorem seedAndRoot_spells (s : Seed) (h : Header) (isTiled : Bool)
    (htiles : isTiled = false → h.x = ⟨0⟩ ∧ h.y = ⟨0⟩) :
    Spells seedAndRoot (s, h) (s.render (h.render isTiled)) Anything (s.Fits ∧ h.Fits) := by
  have hheader : Spells (header >>= fun h => return (s, h)) (s, h) (h.render isTiled) Anything
      (s.Fits ∧ h.Fits) := ((header_spells h isTiled htiles).weaken And.right).map
  have hseed : Spells seed s (s.render []) Anything (s.Fits ∧ h.Fits) :=
    (seed_spells s).weaken And.left
  rw [Seed.render_append, seedAndRoot]
  apply Spells.bind hseed hheader
  exact fun _ _ => trivial

end Reading

/-- A seed and a header whose numbers can be read are what their text spells; other text may be
refused. -/
theorem Seed.parse_toText_cases (seed : Seed) (root : PageRef)
    (htiles : root.tree.isTiled = false → root.header.x = ⟨0⟩ ∧ root.header.y = ⟨0⟩) :
    Seed.parse (seed.toText root) = .ok (seed, root.header) ∨
      ¬ (seed.Fits ∧ root.header.Fits) ∧ ∃ e, Seed.parse (seed.toText root) = .error e := by
  unfold Seed.parse
  rcases (Reading.seedAndRoot_spells seed root.header root.tree.isTiled htiles).parse_cases
      trivial with
    hok | ⟨hunfit, e, herror⟩
  · refine Or.inl ?_
    rw [Seed.toText, hok]
    rfl
  · refine Or.inr ⟨hunfit, .malformedSeed e.reason (seed.toText root), ?_⟩
    rw [Seed.toText, herror]
    rfl

end Seeds

end PageTree
