import PageTree.Proofs.Text.Pages

/-!
# Only derived texts are read

A reader takes off a text what derives its result, and nothing else; where it fails, it refuses the
whole text at a place that is not past its end (`Reading.ReadsAt`).  Together with what is known of
derived texts this decides for every text whether it is a value (`Value.parse_decides_grammar`) or
a header (`Header.parse_settles_fields`), and which.
-/

namespace PageTree

namespace Text

/-- A number of so many hexadecimal digits. -/
theorem Numeral.lt_pow {text : List Char} {n : Nat}
    (hnumeral : Numeral 16 hexadecimalDigits text n) : n < 16 ^ text.length := by
  have htable : ∀ e ∈ hexadecimalDigits, e.2 < 16 := by decide
  induction hnumeral with
  | first digit => simpa using htable _ digit
  | @next text n c d _ digit ih =>
      have hd : d < 16 := htable _ digit
      rw [List.length_append, List.length_singleton, Nat.pow_succ]
      omega

end Text

namespace Reading

variable {α β : Type} {r : TextReader} {step : Reading α} {derives : List Char → α → Prop}

/-! ## The judgment -/

/-- At a place, the step reads what derives its result, or refuses the text where it has got to. -/
def ReadsAt (r : TextReader) (step : Reading α) (derives : List Char → α → Prop) : Prop :=
  match exec step r with
  | (.ok a, r') => ∃ text, r.rest = text ++ r'.rest ∧ r'.before = text.reverse ++ r.before ∧
      derives text a
  | (.error e, _) => ∃ reason offset, e = .malformedValue reason r.input offset ∧
      offset ≤ r.input.utf8ByteSize

/-- A place is not past the end of its text. -/
theorem position_le (r : TextReader) : r.position ≤ r.input.utf8ByteSize := by
  rw [TextReader.input, Text.utf8ByteSize_ofList, Text.byteLength_append, Text.byteLength_reverse,
    TextReader.position]
  exact Nat.le_add_right _ _

namespace ReadsAt

theorem of_ok (a : α) (text rest : List Char)
    (hexec : exec step r = (.ok a, ⟨text.reverse ++ r.before, rest⟩))
    (hrest : r.rest = text ++ rest) (hderives : derives text a) : ReadsAt r step derives := by
  rw [ReadsAt, hexec]
  exact ⟨text, hrest, rfl, hderives⟩

protected theorem pure {a : α} (hderives : derives [] a) :
    ReadsAt r (pure a : Reading α) derives :=
  of_ok a [] r.rest rfl rfl hderives

theorem mono {derives' : List Char → α → Prop} (hstep : ReadsAt r step derives)
    (himp : ∀ text a, derives text a → derives' text a) : ReadsAt r step derives' := by
  unfold ReadsAt at hstep ⊢
  split at hstep
  · obtain ⟨text, hrest, hbefore, hderives⟩ := hstep
    exact ⟨text, hrest, hbefore, himp _ _ hderives⟩
  · exact hstep

/-- One step after another. -/
protected theorem bind {f : α → Reading β} {derives' : List Char → β → Prop}
    (hstep : ReadsAt r step derives)
    (hf : ∀ a text r', r'.input = r.input → derives text a →
      ReadsAt r' (f a) fun text' b => derives' (text ++ text') b) :
    ReadsAt r (step >>= f) derives' := by
  unfold ReadsAt at hstep ⊢
  rw [exec_bind]
  generalize exec step r = outcome at hstep
  obtain ⟨e | a, r'⟩ := outcome
  · exact hstep
  · obtain ⟨text, hrest, hbefore, hderives⟩ := hstep
    have hinput : r'.input = r.input := by
      simp [TextReader.input, hbefore, hrest]
    have hnext := hf a text r' hinput hderives
    unfold ReadsAt at hnext
    rw [hinput] at hnext
    dsimp only
    generalize exec (f a) r' = outcome at hnext
    obtain ⟨e | b, r''⟩ := outcome
    · exact hnext
    · obtain ⟨text', hrest', hbefore', hderives'⟩ := hnext
      refine ⟨text ++ text', ?_, ?_, hderives'⟩
      · rw [hrest, hrest', List.append_assoc]
      · rw [hbefore', hbefore, List.reverse_append, List.append_assoc]

/-- A result that is made of what has been read. -/
theorem map {f : α → β} {derives' : List Char → β → Prop} (hstep : ReadsAt r step derives)
    (himp : ∀ text a, derives text a → derives' text (f a)) :
    ReadsAt r (step >>= fun a => pure (f a)) derives' :=
  hstep.bind fun a text _ _ hderives => .pure (by rw [List.append_nil]; exact himp _ _ hderives)

/-- The place may be looked at. -/
theorem get {f : TextReader → Reading α} (hf : ReadsAt r (f r) derives) :
    ReadsAt r (get >>= f) derives := by
  rwa [ReadsAt, exec_bind, exec_get]

theorem peek {f : Option Char → Reading α} (hf : ReadsAt r (f r.rest.head?) derives) :
    ReadsAt r (Reading.peek >>= f) derives := by
  rwa [ReadsAt, exec_bind, exec_peek]

theorem fail (reason : String) : ReadsAt r (Reading.fail reason) derives :=
  ⟨reason, r.position, rfl, position_le r⟩

/-- A failure may be reported at an earlier place of the text. -/
theorem failAt {start : TextReader} (hstart : start.input = r.input) (reason : String)
    (f : β → Reading α) :
    ReadsAt r (set start >>= fun _ => Reading.fail reason >>= f) derives :=
  ⟨reason, start.position, by rw [← hstart]; rfl, hstart ▸ position_le start⟩

end ReadsAt

/-! ## Single characters and words -/

theorem eat_reads (c : Char) (r : TextReader) :
    ReadsAt r (eat c) fun text found => text = if found then [c] else [] := by
  by_cases hnext : r.rest.head? = some c
  · obtain ⟨cs, hrest⟩ := List.head?_eq_some_iff.1 hnext
    refine .of_ok true [c] cs ?_ hrest rfl
    simp only [eat, exec_bind, exec_peek, hnext, if_true, exec_modify, exec_pure]
    simp [TextReader.advance, hrest]
  · refine .of_ok false [] r.rest ?_ rfl rfl
    simp [eat, exec_bind, exec_peek, hnext]

theorem expect_reads (c : Char) (r : TextReader) :
    ReadsAt r (expect c) fun text _ => text = [c] := by
  refine (eat_reads c r).bind fun found text r' hinput htext => ?_
  cases found with
  | true => exact .pure (by simpa using htext)
  | false => exact .fail _

theorem eatText_reads (word : String) (r : TextReader) :
    ReadsAt r (eatText word) fun text found => text = if found then word.toList else [] := by
  unfold eatText
  refine .get ?_
  split
  · next hnext =>
      obtain ⟨rest, hrest⟩ := List.isPrefixOf_iff_prefix.1 hnext
      have hadvance := advance_append r.before word.toList rest
      rw [String.length_toList, hrest] at hadvance
      refine .of_ok true word.toList rest ?_ hrest.symm rfl
      rw [exec_bind, exec_modify, ← hadvance]
      rfl
  · exact .pure rfl

theorem expectText_reads (word : String) (r : TextReader) :
    ReadsAt r (expectText word) fun text _ => text = word.toList := by
  refine (eatText_reads word r).bind fun found text r' hinput htext => ?_
  cases found with
  | true => exact .pure (by simpa using htext)
  | false => exact .fail _

theorem takeWhile_reads (p : Char → Bool) (r : TextReader) :
    ReadsAt r (takeWhile p) fun text run => text = run ∧ ∀ c ∈ run, p c = true := by
  exact .of_ok _ (r.rest.takeWhile p) (r.rest.dropWhile p) (exec_takeWhile p r)
    (List.takeWhile_append_dropWhile).symm ⟨rfl, List.all_eq_true.1 List.all_takeWhile⟩

theorem ident_reads (r : TextReader) :
    ReadsAt r ident fun text name => text = name.toList := by
  refine (takeWhile_reads isIdentChar r).bind fun run text r' hinput htext => ?_
  split
  · exact .fail _
  · exact .pure (by simp [htext.1])

/-! ## Numbers -/

theorem integer_reads (r : TextReader) :
    ReadsAt r integer fun text n => Text.DerivesInteger text n.toInt := by
  unfold integer
  refine .get ((eat_reads '-' r).bind fun negative text r' hinput htext => ?_)
  refine (takeWhile_reads Char.isDigit r').bind fun digits text' r'' hinput' hdigits => ?_
  obtain ⟨rfl, hall⟩ := hdigits
  have hderives : text' ≠ [] → Text.DerivesInteger (text ++ text')
      (if negative then -Text.ofDecimal text' else Text.ofDecimal text') := by
    intro hne
    have hnumeral := Text.numeral_decimal_iff.2 ⟨hne, hall, rfl⟩
    rw [htext]
    cases negative with
    | true => exact .negated hnumeral
    | false => exact .plain hnumeral
  dsimp only
  generalize (if negative = true then -(Text.ofDecimal text' : Int) else Text.ofDecimal text') = i
    at hderives
  rw [Bool.or_assoc, fits_int64]
  split
  · exact .failAt (hinput'.trans hinput).symm _ _
  · next hgood =>
      simp only [Bool.or_eq_true, decide_eq_true_eq, List.isEmpty_iff, not_or, Int.not_lt,
        Int.not_le] at hgood
      obtain ⟨hne, hlow, hhigh⟩ := hgood
      refine .pure ?_
      rw [Int64.toInt_ofInt_of_le hlow hhigh, List.append_nil]
      exact hderives hne

theorem count_reads (what : String) (r : TextReader) :
    ReadsAt r (count what) fun text n => Text.DerivesInteger text n ∧ n < 2 ^ 63 := by
  refine (integer_reads r).bind fun n text r' hinput hderives => ?_
  split
  · exact .fail _
  · next hnatural =>
      have hhigh : n.toInt < 2 ^ 63 := n.toInt_lt
      have hback : (n.toInt.toNat : Int) = n.toInt := Int.toNat_of_nonneg (by omega)
      refine .pure ⟨?_, by omega⟩
      rwa [hback, List.append_nil]

theorem zoneNumber_reads (what : String) (r : TextReader) :
    ReadsAt r (zoneNumber what) fun text n => Text.DerivesInteger text n ∧ n < 2 ^ 32 := by
  refine (count_reads what r).bind fun n text r' hinput hderives => ?_
  split
  · exact .fail _
  · next hfits =>
    refine .pure ⟨?_, Nat.not_le.1 hfits⟩
    rw [List.append_nil]
    exact hderives.1

theorem tile_reads (r : TextReader) : ReadsAt r tile fun text t => t.Derives text := by
  unfold tile hexNumber
  suffices hbits : ReadsAt r hexNumber fun text bits => Tile.Derives text ⟨bits⟩ from
    hbits.map fun _ _ hderives => hderives
  refine (expectText_reads "0x" r).bind fun _ text r' hinput htext => ?_
  refine .get ((takeWhile_reads _ r').bind fun digits text' r'' hinput' hdigits => ?_)
  obtain ⟨rfl, hall⟩ := hdigits
  dsimp only
  split
  · exact .failAt hinput'.symm _ _
  · next hgood =>
      simp only [Bool.or_eq_true, decide_eq_true_eq, List.isEmpty_iff, not_or, Nat.not_lt] at hgood
      have hnumeral := Text.numeral_hexadecimal_iff.2 ⟨hgood.1, hall, rfl⟩
      have hfits : Text.ofHexDigits text' < 2 ^ 64 := by
        refine Nat.lt_of_lt_of_le hnumeral.lt_pow ?_
        exact Nat.pow_le_pow_right (n := 16) (by decide) hgood.2
      refine .pure ⟨text', by rw [htext, List.append_nil], hgood.2, ?_⟩
      rwa [UInt64.toNat_ofNat_of_lt' hfits]

/-! ## Texts and bytes -/

/-- A scanner moves over what derives its result. -/
theorem scan_reads {scanner : List Char → Except String α × Nat}
    (hscan : ∀ cs a, (scanner cs).1 = .ok a → derives (cs.take (scanner cs).2) a) (r : TextReader) :
    ReadsAt r (scan scanner) derives := by
  unfold scan
  refine .get ?_
  have hok := hscan r.rest
  generalize scanner r.rest = result at hok
  obtain ⟨outcome, moved⟩ := result
  cases outcome with
  | ok a => exact .of_ok a _ _ rfl (List.take_append_drop moved r.rest).symm (hok a rfl)
  | error reason =>
      exact ⟨reason, (r.advance moved).position, by rw [← r.input_advance moved]; rfl,
        r.input_advance moved ▸ position_le (r.advance moved)⟩

theorem mem_escapes {c d : Char} (hescape : Text.unescape? c = some d) : (c, d) ∈ Text.escapes := by
  unfold Text.unescape? at hescape
  split at hescape <;> cases hescape <;> decide

/-- What is scanned behind a quote derives its text, and ends with a quote. -/
theorem scanQuoted_derives (cs text : List Char) (hok : (scanQuoted cs).1 = .ok text) :
    ∃ inner, cs.take (scanQuoted cs).2 = inner ++ ['"'] ∧ Text.DerivesQuoted inner text := by
  fun_induction scanQuoted cs generalizing text with
  | case1 | case2 | case3 => cases hok
  | case4 c rest d hescape outcome moved hrest ih =>
      rw [hrest] at ih
      cases outcome with
      | error reason => cases hok
      | ok found =>
          cases hok
          obtain ⟨inner, htake, hderives⟩ := ih found rfl
          refine ⟨'\\' :: c :: inner, ?_, .escaped (mem_escapes hescape) hderives⟩
          simpa using htake
  | case5 rest =>
      cases hok
      exact ⟨[], rfl, .nil⟩
  | case6 c rest hlast hescape hquote outcome moved hrest ih =>
      rw [hrest] at ih
      have hbackslash : c ≠ '\\' := by
        rintro rfl
        cases rest with
        | nil => exact hlast rfl rfl
        | cons c' rest => exact hescape c' rest rfl rfl
      cases outcome with
      | error reason => cases hok
      | ok found =>
          cases hok
          obtain ⟨inner, htake, hderives⟩ := ih found rfl
          exact ⟨c :: inner, by simpa using htake, .plain hquote hbackslash hderives⟩

/-- What is scanned as bytes derives them. -/
theorem scanBytes_derives (cs : List Char) (bs : List UInt8) (hok : (scanBytes cs).1 = .ok bs) :
    Text.DerivesBytes (cs.take (scanBytes cs).2) bs := by
  fun_induction scanBytes cs generalizing bs with
  | case2 | case5 => cases hok
  | case1 | case3 | case4 =>
      cases hok
      exact .nil
  | case6 high low rest l h hlow hhigh outcome moved hrest ih =>
      rw [hrest] at ih
      cases outcome with
      | error reason => cases hok
      | ok found =>
          cases hok
          exact .cons ((Text.mem_hexadecimalDigits _ _).2 hhigh)
            ((Text.mem_hexadecimalDigits _ _).2 hlow) (ih found rfl)

theorem quoted_reads (r : TextReader) :
    ReadsAt r quoted fun text s => Value.Derives text (.text s) := by
  refine (expect_reads '"' r).bind fun _ text r' hinput htext => ?_
  have hscan : ReadsAt r' (scan scanQuoted) fun text cs =>
      ∃ inner, text = inner ++ ['"'] ∧ Text.DerivesQuoted inner cs :=
    scan_reads scanQuoted_derives r'
  refine hscan.map fun text' cs hderives => ?_
  obtain ⟨inner, rfl, hquoted⟩ := hderives
  rw [htext]
  exact .text hquoted

theorem bytes_reads (r : TextReader) :
    ReadsAt r bytes fun text bs => Value.Derives text (.data bs) := by
  refine (expect_reads '%' r).bind fun _ text r' hinput htext => ?_
  refine (scan_reads scanBytes_derives r').mono fun text' bs hderives => ?_
  rw [htext]
  exact .data hderives

/-! ## Values -/

theorem literal_reads (r : TextReader) : ReadsAt r literal Value.Derives := by
  unfold literal
  refine .get ((ident_reads r).bind fun word text r' hinput htext => ?_)
  split
  · exact .pure (by rw [htext, List.append_nil]; exact .absent)
  · exact .pure (by rw [htext, List.append_nil]; exact .true)
  · exact .pure (by rw [htext, List.append_nil]; exact .false)
  · exact .failAt hinput.symm _ pure

section Step

variable {bound : Nat}
  (hitems : ∀ r, ReadsAt r (itemsWithin bound) fun text vs =>
    ∃ inner, text = inner ++ ['\x7d'] ∧ Value.DerivesAll inner vs)

include hitems

/-- What is read derives a value if what is read of the lists inside it derives their items. -/
theorem valueWithin_reads (r : TextReader) :
    ReadsAt r (valueWithin (bound + 1)) Value.Derives := by
  unfold valueWithin
  refine .peek ?_
  split
  · exact .fail _
  split
  · exact (quoted_reads r).map fun _ _ hderives => hderives
  split
  · exact (bytes_reads r).map fun _ _ hderives => hderives
  split
  · refine (expect_reads '\x7b' r).bind fun _ text r' hinput htext => ?_
    refine (eat_reads '\x7d' r').bind fun closed text' r'' hinput' htext' => ?_
    subst htext htext'
    cases closed with
    | true => exact .pure .empty
    | false =>
        refine (hitems r'').map fun text'' vs hderives => ?_
        obtain ⟨inner, rfl, hall⟩ := hderives
        exact .list hall
  split
  · exact (integer_reads r).map fun _ _ hderives => .int hderives
  split
  · exact literal_reads r
  · exact .fail _

/-- What is read of a list derives its items if each item and the items after it do. -/
theorem itemsWithin_reads (hvalue : ∀ r, ReadsAt r (valueWithin bound) Value.Derives)
    (r : TextReader) : ReadsAt r (itemsWithin (bound + 1)) fun text vs =>
      ∃ inner, text = inner ++ ['\x7d'] ∧ Value.DerivesAll inner vs := by
  unfold itemsWithin
  refine (hvalue r).bind fun v text r' hinput hvalue => ?_
  refine (eat_reads ',' r').bind fun more text' r'' hinput' htext' => ?_
  subst htext'
  cases more with
  | true =>
      refine (hitems r'').map fun text'' vs hderives => ?_
      obtain ⟨inner, rfl, hall⟩ := hderives
      exact ⟨text ++ ',' :: inner, by simp, .more hvalue hall⟩
  | false =>
      refine (expect_reads '\x7d' r'').map fun text'' _ htext'' => ?_
      subst htext''
      exact ⟨text, rfl, .last hvalue⟩

end Step

/-- Within any bound on the nesting, what is read derives a value, and what is read of a list
behind its opening brace derives the items. -/
theorem within_reads (bound : Nat) :
    (∀ r, ReadsAt r (valueWithin bound) Value.Derives) ∧
      ∀ r, ReadsAt r (itemsWithin bound) fun text vs =>
        ∃ inner, text = inner ++ ['\x7d'] ∧ Value.DerivesAll inner vs := by
  -- reading a list and reading its items take turns, so the induction is on both at once
  induction bound with
  | zero => exact ⟨fun r => .fail _, fun r => .fail _⟩
  | succ bound ih => exact ⟨valueWithin_reads ih.2, itemsWithin_reads ih.2 ih.1⟩

theorem value_reads (r : TextReader) : ReadsAt r value Value.Derives :=
  .get ((within_reads _).1 r)

/-! ## Headers -/

theorem headerField_reads (r : TextReader) :
    ReadsAt r headerField fun text field => field.Derives text := by
  refine (ident_reads r).bind fun name text r' hinput htext => ?_
  refine (expect_reads ':' r').bind fun _ text' r'' hinput' htext' => ?_
  subst htext htext'
  split
  · exact (zoneNumber_reads _ r'').map fun content _ hcontent => ⟨content, rfl, hcontent⟩
  · exact (zoneNumber_reads _ r'').map fun content _ hcontent => ⟨content, rfl, hcontent⟩
  · exact (count_reads _ r'').map fun content _ hcontent => ⟨content, rfl, hcontent⟩
  · exact (count_reads _ r'').map fun content _ hcontent => ⟨content, rfl, hcontent⟩
  · exact (count_reads _ r'').map fun content _ hcontent => ⟨content, rfl, hcontent⟩
  · exact (count_reads _ r'').map fun content _ hcontent => ⟨content, rfl, hcontent⟩
  · exact (tile_reads r'').map fun content _ hcontent => ⟨content, rfl, hcontent⟩
  · exact (tile_reads r'').map fun content _ hcontent => ⟨content, rfl, hcontent⟩
  · exact (value_reads r'').map fun content _ hcontent => ⟨content, rfl, hcontent⟩
  · exact .fail _

/-- Items with commas between them are at least one, and each is read off its own text. -/
theorem separated_reads {item : Reading α} (hitem : ∀ r, ReadsAt r item derives) (n : Nat)
    (r : TextReader) :
    ReadsAt r (separated item n) fun text as => as ≠ [] ∧
      ∃ texts, List.Forall₂ derives texts as ∧ text = Text.joinWith ',' texts := by
  induction n generalizing r with
  | zero =>
      refine (hitem r).map fun text a hderives => ?_
      exact ⟨by simp, [text], .cons hderives .nil, rfl⟩
  | succ n ih =>
      refine (hitem r).bind fun a text r' hinput hderives => ?_
      refine (eat_reads ',' r').bind fun more text' r'' hinput' htext' => ?_
      subst htext'
      cases more with
      | true =>
          refine (ih r'').map fun text'' as hall => ?_
          obtain ⟨hne, texts, hall, rfl⟩ := hall
          obtain ⟨b, bs, rfl⟩ := List.exists_cons_of_ne_nil hne
          obtain ⟨first, texts, hfirst, hmore, rfl⟩ := List.forall₂_cons_right_iff.1 hall
          exact ⟨by simp, text :: first :: texts, .cons hderives (.cons hfirst hmore), by
            simp [Text.joinWith]⟩
      | false => exact .pure ⟨by simp, [text], .cons hderives .nil, by simp [Text.joinWith]⟩

theorem header_reads (r : TextReader) :
    ReadsAt r header fun text h => ∃ fields, Header.Derives text fields ∧ h = .ofFields fields := by
  refine (expectText_reads "@page(" r).bind fun _ text r' hinput htext => ?_
  refine ReadsAt.bind (.get (separated_reads headerField_reads _ r'))
    fun fields text' r'' hinput' hfields => ?_
  refine (expect_reads ')' r'').map fun text'' _ htext'' => ?_
  obtain ⟨hne, texts, hall, rfl⟩ := hfields
  subst htext htext''
  exact ⟨fields, ⟨hne, texts, hall, rfl⟩, rfl⟩

/-! ## Whole texts -/

/-- A step that reads a whole text has read what derives its result, or refuses the text. -/
theorem parse_reads (hstep : ∀ r, ReadsAt r step derives) (text : String) :
    (∃ a, step.parse text = .ok a ∧ derives text.toList a) ∨
      ∃ reason offset, step.parse text = .error (.malformedValue reason text offset) ∧
        offset ≤ text.utf8ByteSize := by
  have hinput : (TextReader.mk [] text.toList).input = text := String.ofList_toList
  have hread := hstep ⟨[], text.toList⟩
  have hparse := parse_ofList step text.toList
  rw [String.ofList_toList] at hparse
  rw [hparse, exec_bind]
  unfold ReadsAt at hread
  rw [hinput] at hread
  generalize exec step ⟨[], text.toList⟩ = outcome at hread
  obtain ⟨e | a, r'⟩ := outcome
  · obtain ⟨reason, offset, rfl, hoffset⟩ := hread
    exact Or.inr ⟨reason, offset, rfl, hoffset⟩
  · obtain ⟨read, hrest, hbefore, hderives⟩ := hread
    -- a text is only accepted if nothing is left of it
    cases hend : r'.rest with
    | nil =>
        refine Or.inl ⟨a, ?_, ?_⟩
        · simp [finish, exec_bind, TextReader.isDone, hend]
        · have hall : text.toList = read := by simpa [hend] using hrest
          rwa [hall]
    | cons c rest =>
        have hinput' : r'.input = text := by
          rw [← hinput]
          simp [TextReader.input, hbefore, ← hrest]
        refine Or.inr ⟨"trailing input", r'.position, ?_, hinput' ▸ position_le r'⟩
        simp only [finish, exec_bind, exec_get, TextReader.isDone, hend, List.isEmpty_cons,
          Bool.not_false, if_true]
        rw [← hinput']
        rfl

/-- What spells a value to the end of a text is parsed as it. -/
theorem Spells.parse_eq {a : α} {after : List Char → Prop} {text : String}
    (hstep : Spells step a text.toList after True) (hend : after []) :
    step.parse text = .ok a := by
  rcases hstep.parse_cases hend with hok | ⟨hfalse, -⟩
  · rwa [String.ofList_toList] at hok
  · exact absurd trivial hfalse

end Reading

/-! ## Which texts are values -/

/-- A text is parsed as a value if it derives it, and as no other.  So no text derives two values.
A text that derives none is refused whole, at a place that is not past its end. -/
theorem Value.parse_decides_grammar (text : String) :
    (∀ v, Value.parse text = .ok v ↔ Value.Derives text.toList v) ∧
      ((∃ v, Value.Derives text.toList v) ∨
        ∃ reason offset, Value.parse text = .error (.malformedValue reason text offset) ∧
          offset ≤ text.utf8ByteSize) := by
  have hparse : ∀ v, Value.Derives text.toList v → Value.parse text = .ok v := fun v hderives =>
    (Reading.value_spells_of_derives hderives).parse_eq fun _ hc => nomatch hc
  rcases Reading.parse_reads Reading.value_reads text with ⟨v, hok, hderives⟩ | hrefused
  · refine ⟨fun v' => ⟨fun hok' => ?_, hparse v'⟩, Or.inl ⟨v, hderives⟩⟩
    rw [Value.parse, hok] at hok'
    rwa [← Except.ok.inj hok']
  · refine ⟨fun v => ⟨fun hok => ?_, hparse v⟩, Or.inr hrefused⟩
    obtain ⟨reason, offset, herror, -⟩ := hrefused
    rw [Value.parse, herror] at hok
    cases hok

/-! ## Which texts are headers -/

namespace Header

theorem last?_append {α : Type} (select : Field → Option α) (fields : List Field)
    (field : Field) :
    last? select (fields ++ [field]) = (select field).or (last? select fields) := by
  cases hselect : select field <;> simp [last?, List.filterMap_append, hselect]

theorem lastPost?_eq (fields : List Field) :
    lastPost? fields = last? (fun | .post n => some n | _ => none) fields := by
  induction fields with
  | nil => rfl
  | cons field fields ih =>
      cases field with
      | post n => simp [lastPost?, ih, last?, List.getLast?_cons]
      | _ => simpa [lastPost?, last?] using ih

/-- Fields that are set one after another settle all but the post. -/
theorem foldl_setField (fields : List Field) :
    fields.foldl setField blank = { settled fields with post := 0 } := by
  induction fields using List.reverseRecOn with
  | nil => rfl
  | append_singleton fields field ih =>
      rw [List.foldl_append, ih]
      cases field <;> simp [setField, settled, last?_append]

theorem ofFields_eq_settled (fields : List Field) : ofFields fields = settled fields := by
  rw [ofFields, foldl_setField, lastPost?_eq]
  rfl

/-- A text is parsed as a header if it derives fields that settle it, whatever their order and
however often a name is repeated, and as no other.  A text that derives no fields is refused
whole. -/
theorem parse_settles_fields (text : String) :
    (∀ h, Header.parse text = .ok h ↔ ∃ fields, Derives text.toList fields ∧ h = settled fields) ∧
      ((∃ fields, Derives text.toList fields) ∨
        ∃ reason, Header.parse text = .error (.malformedPageRef reason text)) := by
  have hparse : ∀ fields, Derives text.toList fields →
      Header.parse text = .ok (settled fields) := by
    intro fields hderives
    have hok := (Reading.header_spells_of_derives hderives).parse_eq trivial
    rw [Header.parse, hok, ofFields_eq_settled]
    rfl
  rcases Reading.parse_reads Reading.header_reads text with
    ⟨_, hok, fields, hderives, rfl⟩ | ⟨reason, offset, herror, -⟩
  · refine ⟨fun h => ⟨fun hok' => ⟨fields, hderives, ?_⟩, ?_⟩, Or.inl ⟨fields, hderives⟩⟩
    · rw [hparse fields hderives] at hok'
      exact (Except.ok.inj hok').symm
    · rintro ⟨fields', hderives', rfl⟩
      exact hparse fields' hderives'
  · have hrefused : Header.parse text = .error (.malformedPageRef reason text) := by
      rw [Header.parse, herror]
      rfl
    refine ⟨fun h => ⟨fun hok => ?_, ?_⟩, Or.inr ⟨reason, hrefused⟩⟩
    · rw [hrefused] at hok
      cases hok
    · rintro ⟨fields, hderives, rfl⟩
      exact hparse fields hderives

/-- The post is the last zone, even of those behind other fields, unless it is given. -/
example : (settled [.zone 1, .span 4, .zone 2]).post = 2 ∧
    (settled [.post 3, .zone 1, .post 5, .zone 2]).post = 5 := by decide

end Header
end PageTree
