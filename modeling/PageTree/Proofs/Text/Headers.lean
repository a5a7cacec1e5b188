import PageTree.Proofs.Text.Values

/-!
# The text of a header spells the header

A header is written as the list of its fields, without those that reading fills in by itself:
the post where it is the zone, the tiles where the tree has none, and the fold where it is not
known.
-/

namespace PageTree

namespace Header

/-- The characters of a field. -/
def renderField : Field → List Char
  | .post zone => renderCount "post" zone
  | .zone zone => renderCount "zone" zone
  | .base offset => renderCount "base" offset
  | .size bytes => renderCount "size" bytes
  | .area bytes => renderCount "area" bytes
  | .span entries => renderCount "span" entries
  | .x tile => "x:".toList ++ renderTile tile
  | .y tile => "y:".toList ++ renderTile tile
  | .fold value => "fold:".toList ++ value.render

/-- The fields that are written of a header. -/
def fields (h : Header) (isTiled : Bool) : List Field :=
  (if h.post = h.zone then [] else [.post h.post]) ++
  [.zone h.zone, .base h.base, .size h.size, .area h.area, .span h.span] ++
  (if isTiled then [.x h.x, .y h.y] else []) ++
  (if h.fold.isDefined then [.fold h.fold] else [])

/-- The number of a field can be read. -/
def Field.Fits : Field → Prop
  | .post id => id < 2 ^ 32
  | .zone id => id < 2 ^ 32
  | .base n => n < 2 ^ 63
  | .size n => n < 2 ^ 63
  | .area n => n < 2 ^ 63
  | .span n => n < 2 ^ 63
  | .x _ => True
  | .y _ => True
  | .fold _ => True

/-- The numbers of a header can be read. -/
structure Fits (h : Header) : Prop where
  post : h.post < 2 ^ 32
  zone : h.zone < 2 ^ 32
  base : h.base < 2 ^ 63
  size : h.size < 2 ^ 63
  area : h.area < 2 ^ 63
  span : h.span < 2 ^ 63

theorem Fits.field {h : Header} (hfits : h.Fits) {isTiled : Bool} :
    ∀ field ∈ h.fields isTiled, field.Fits := by
  intro field hmem
  simp only [fields, List.mem_append, List.mem_cons, List.not_mem_nil, or_false] at hmem
  rcases hmem with ((hmem | hmem) | hmem) | hmem
  · split at hmem
    · cases hmem
    · rw [List.mem_singleton.1 hmem]
      exact hfits.post
  · rcases hmem with rfl | rfl | rfl | rfl | rfl
    · exact hfits.zone
    · exact hfits.base
    · exact hfits.size
    · exact hfits.area
    · exact hfits.span
  · split at hmem
    · rcases List.mem_cons.1 hmem with rfl | hmem
      · trivial
      · rw [List.mem_singleton.1 hmem]
        trivial
    · cases hmem
  · split at hmem
    · rw [List.mem_singleton.1 hmem]
      trivial
    · cases hmem

theorem renderFields_eq (h : Header) (isTiled : Bool) :
    h.renderFields isTiled = (h.fields isTiled).map renderField := by
  unfold renderFields fields
  rw [List.map_append, List.map_append, List.map_append]
  congr 1
  · congr 1
    · congr 1
      split <;> rfl
    · split <;> rfl
  · split <;> rfl

/-- The header is what its fields give, if it has no tiles that are not written. -/
theorem ofFields_fields (h : Header) (isTiled : Bool)
    (htiles : isTiled = false → h.x = ⟨0⟩ ∧ h.y = ⟨0⟩) : ofFields (h.fields isTiled) = h := by
  obtain ⟨post, zone, base, size, area, span, x, y, fold⟩ := h
  have habsent : fold.isDefined = false → fold = .absent := by
    cases fold <;> simp [Value.isDefined]
  by_cases hpost : post = zone <;> cases isTiled <;> cases hfold : fold.isDefined <;>
    simp_all [fields, ofFields, setField, lastPost?, blank]

end Header

namespace Reading

variable {fits : Prop} {text : List Char}

/-! ## Fields -/

/-- What is named is read by its name. -/
theorem named_spells {α : Type} (name : String) {read : String → Reading α} {a : α}
    {text : List Char}
    (hname : name.toList ≠ [] ∧ name.toList.all isIdentChar = true)
    (hread : Spells (read name) a text Open fits) :
    Spells (ident >>= fun found => expect ':' >>= fun _ => read found) a
      (name.toList ++ ':' :: text) Open fits := by
  refine (ident_spells name hname).bind ((expect_spells ':').bind hread fun _ _ => trivial) ?_
  exact fun _ _ => open_cons (by decide)

/-- The text of a field spells it. -/
theorem headerField_spells (field : Header.Field) :
    Spells headerField field (Header.renderField field) Open field.Fits := by
  cases field with
  | post id => exact named_spells "post" (by decide) (zoneNumber_spells "post" id).map
  | zone id => exact named_spells "zone" (by decide) (zoneNumber_spells "zone" id).map
  | base n => exact named_spells "base" (by decide) (count_spells "base" n).map
  | size n => exact named_spells "size" (by decide) (count_spells "size" n).map
  | area n => exact named_spells "area" (by decide) (count_spells "area" n).map
  | span n => exact named_spells "span" (by decide) (count_spells "span" n).map
  | x t => exact named_spells "x" (by decide) (tile_spells t).map
  | y t => exact named_spells "y" (by decide) (tile_spells t).map
  | fold v => exact named_spells "fold" (by decide) (value_spells v).map

/-- A text that derives a field spells it. -/
theorem headerField_spells_of_derives {field : Header.Field} (hderives : field.Derives text) :
    Spells headerField field text Open fits := by
  obtain ⟨content, rfl, hcontent⟩ := hderives
  cases field with
  | post n =>
      exact named_spells "post" (by decide)
        ((zoneNumber_spells_of_derives "post" hcontent.1).weaken fun _ => hcontent.2).map
  | zone n =>
      exact named_spells "zone" (by decide)
        ((zoneNumber_spells_of_derives "zone" hcontent.1).weaken fun _ => hcontent.2).map
  | base n =>
      exact named_spells "base" (by decide)
        ((count_spells_of_derives "base" hcontent.1).weaken fun _ => hcontent.2).map
  | size n =>
      exact named_spells "size" (by decide)
        ((count_spells_of_derives "size" hcontent.1).weaken fun _ => hcontent.2).map
  | area n =>
      exact named_spells "area" (by decide)
        ((count_spells_of_derives "area" hcontent.1).weaken fun _ => hcontent.2).map
  | span n =>
      exact named_spells "span" (by decide)
        ((count_spells_of_derives "span" hcontent.1).weaken fun _ => hcontent.2).map
  | x t => exact named_spells "x" (by decide) (tile_spells_of_derives hcontent).map
  | y t => exact named_spells "y" (by decide) (tile_spells_of_derives hcontent).map
  | fold v => exact named_spells "fold" (by decide) (value_spells_of_derives hcontent).map

/-! ## Headers -/

/-- The text of a header spells it, if its numbers can be read. -/
theorem header_spells (h : Header) (isTiled : Bool)
    (htiles : isTiled = false → h.x = ⟨0⟩ ∧ h.y = ⟨0⟩) :
    Spells header h (h.render isTiled) Anything h.Fits := by
  -- some fields are always written, so there is a first one
  obtain ⟨field, fields, hfields⟩ : ∃ field fields, h.fields isTiled = field :: fields := by
    unfold Header.fields
    split
    · exact ⟨_, _, rfl⟩
    · exact ⟨_, _, rfl⟩
  have hitems : Spells (commaSeparated headerField) (field :: fields)
      (Text.joinWith ',' ((field :: fields).map Header.renderField)) _ h.Fits :=
    written_spells Header.renderField field fields fun b hb =>
      (headerField_spells b).weaken fun hfits => hfits.field b (hfields ▸ hb)
  have hend : Spells (expect ')' >>= fun _ => return Header.ofFields (field :: fields)) h [')']
      Anything h.Fits := by
    rw [← hfields, Header.ofFields_fields h isTiled htiles]
    exact (expect_spells ')').bind (Spells.pure _) fun _ _ => trivial
  rw [← hfields, ← Header.renderFields_eq] at hitems
  rw [← hfields] at hend
  refine (expectText_spells "@page(").bind (hitems.bind hend ?_) fun _ _ => trivial
  exact fun _ _ => ⟨open_cons (by decide), by simp⟩

/-- A text that derives the fields of a header spells the header that they make. -/
theorem header_spells_of_derives {fields : List Header.Field}
    (hderives : Header.Derives text fields) :
    Spells header (.ofFields fields) text Anything fits := by
  obtain ⟨hne, texts, hall, rfl⟩ := hderives
  obtain ⟨field, fields, rfl⟩ := List.exists_cons_of_ne_nil hne
  obtain ⟨text, texts, hfirst, hmore, rfl⟩ := List.forall₂_cons_right_iff.1 hall
  have hitems : Spells (commaSeparated headerField) (field :: fields)
      (Text.joinWith ',' (text :: texts)) _ fits :=
    commaSeparated_spells ((List.Forall₂.cons hfirst hmore).imp fun _ _ hfield =>
      headerField_spells_of_derives hfield)
  have hend : Spells (expect ')' >>= fun _ => return Header.ofFields (field :: fields))
      (.ofFields (field :: fields)) [')'] Anything fits :=
    (expect_spells ')').bind (Spells.pure _) fun _ _ => trivial
  refine (expectText_spells "@page(").bind (hitems.bind hend ?_) fun _ _ => trivial
  exact fun _ _ => ⟨open_cons (by decide), by simp⟩

end Reading
end PageTree
