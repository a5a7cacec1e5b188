import PageTree.Page.Summary
import PageTree.Proofs.Text.Pages
import PageTree.Proofs.Text.Values

/-!
# Lines, and the texts of values

Newlines, carriage returns and tabs are what texts are broken by.  Quoted texts write each of them
as a backslash and a letter, and nothing else has any, so the text of a value is unbroken
(`Value.unbroken_render`) and the text of a page is on one line (`Page.oneLine_render`).  So pages
that are written one after another, each followed by a newline, are the lines of what is written
(`Text.splitOn_lines`).

The text of a value stands for the value wherever it stands.  It may be followed by anything that
does not continue a word or a number, and is read back up to its end and no further; as a text of
its own it is parsed as the value.  So two values never share a text, and no text of a value is
broken by a newline, a carriage return or a tab (`Value.values_spell_back`).
-/

namespace PageTree

namespace Text

/-! ## Unbroken texts -/

/-- The characters that quoted texts write as a backslash and a letter. -/
def isBreak (c : Char) : Bool :=
  c = '\n' || c = '\r' || c = '\t'

/-- The text is not broken by any character. -/
def Unbroken (cs : List Char) : Prop :=
  ∀ c ∈ cs, isBreak c = false

instance (cs : List Char) : Decidable (Unbroken cs) :=
  List.decidableBAll (fun c => isBreak c = false) cs

/-- The text has no newline in it. -/
def OneLine (cs : List Char) : Prop :=
  '\n' ∉ cs

instance (cs : List Char) : Decidable (OneLine cs) :=
  inferInstanceAs (Decidable ('\n' ∉ cs))

namespace Unbroken

variable {as bs : List Char} {c : Char}

theorem oneLine (has : Unbroken as) : OneLine as :=
  fun hmem => absurd (has _ hmem) (by decide)

theorem append (has : Unbroken as) (hbs : Unbroken bs) : Unbroken (as ++ bs) :=
  List.forall_mem_append.2 ⟨has, hbs⟩

theorem cons (hc : isBreak c = false) (has : Unbroken as) : Unbroken (c :: as) :=
  List.forall_mem_cons.2 ⟨hc, has⟩

/-- Characters of a class that has no breaks in it. -/
theorem of_all {p : Char → Bool} (hbreaks : ∀ c, isBreak c = true → p c = false)
    (hall : ∀ c ∈ as, p c = true) : Unbroken as := by
  intro c hc
  cases hbreak : isBreak c with
  | false => rfl
  | true =>
      have hp := hall c hc
      rw [hbreaks c hbreak] at hp
      cases hp

theorem flatMap {α : Type} {l : List α} {f : α → List Char} (hf : ∀ a ∈ l, Unbroken (f a)) :
    Unbroken (l.flatMap f) := by
  intro c hmem
  obtain ⟨a, ha, hmem⟩ := List.mem_flatMap.1 hmem
  exact hf a ha c hmem

theorem joinWith {items : List (List Char)} (hc : isBreak c = false)
    (hitems : ∀ item ∈ items, Unbroken item) : Unbroken (joinWith c items) := by
  induction items with
  | nil => exact List.forall_mem_nil _
  | cons item items ih =>
      have hitem := hitems item List.mem_cons_self
      cases items with
      | nil => exact hitem
      | cons item' items =>
          exact hitem.append (.cons hc (ih fun i hi => hitems i (List.mem_cons_of_mem _ hi)))

theorem eq_of_isBreak (hbreak : isBreak c = true) : c = '\n' ∨ c = '\r' ∨ c = '\t' := by
  simpa [isBreak, or_assoc] using hbreak

theorem decimal (n : Nat) : Unbroken (decimal n) := by
  refine of_all (fun c hbreak => ?_) Reading.isDigit_of_mem_decimal
  rcases eq_of_isBreak hbreak with rfl | rfl | rfl <;> decide

theorem signedDecimal (n : Int) : Unbroken (signedDecimal n) := by
  cases n with
  | ofNat n => exact decimal n
  | negSucc n => exact .cons (by decide) (decimal (n + 1))

theorem hexDigits (width n : Nat) : Unbroken (hexDigits width n) := by
  refine of_all (p := fun c => (hexDigit? c).isSome) (fun c hbreak => ?_)
    (Reading.hexDigit?_of_mem_hexDigits width n)
  rcases eq_of_isBreak hbreak with rfl | rfl | rfl <;> decide

theorem escape (c : Char) : Unbroken (escape c) := by
  unfold Text.escape
  split
  any_goals decide
  next _ _ hnewline hreturn htab =>
    intro c' hc'
    rw [List.mem_singleton.1 hc']
    simpa [isBreak, and_assoc] using ⟨hnewline, hreturn, htab⟩

theorem quote (cs : List Char) : Unbroken (quote cs) :=
  .cons (by decide) ((flatMap fun c _ => escape c).append (by decide))

end Unbroken
end Text

open Text

/-! ## Values -/

mutual

theorem Value.unbroken_render : (v : Value) → Unbroken v.render
  | .absent => by decide
  | .bool true => by decide
  | .bool false => by decide
  | .int n => .signedDecimal n.toInt
  | .text s => .quote s.toList
  | .data _ => .cons (by decide) (.flatMap fun b _ => .hexDigits 2 b.toNat)
  | .list items => .cons (by decide) ((Value.unbroken_renderAll items).append (by decide))

theorem Value.unbroken_renderAll : (vs : List Value) → Unbroken (Value.renderAll vs)
  | [] => List.forall_mem_nil _
  | [v] => Value.unbroken_render v
  | v :: w :: vs =>
    (Value.unbroken_render v).append (.cons (by decide) (Value.unbroken_renderAll (w :: vs)))

end

/-! ## Pages -/

namespace Header

theorem unbroken_renderTile (t : Tile) : Unbroken (renderTile t) :=
  .append (by decide) (.hexDigits 16 t.bits.toNat)

theorem unbroken_renderCount {name : String} (hname : Unbroken name.toList) (n : Nat) :
    Unbroken (renderCount name n) :=
  hname.append (.cons (by decide) (.decimal n))

theorem unbroken_render (h : Header) (isTiled : Bool) : Unbroken (h.render isTiled) := by
  refine .append (by decide) (.append (.joinWith (by decide) ?_) (by decide))
  intro field hfield
  simp only [renderFields, List.mem_append] at hfield
  rcases hfield with ((hpost | hcount) | htile) | hfold
  · split at hpost
    · cases hpost
    · rw [List.mem_singleton.1 hpost]
      exact unbroken_renderCount (by decide) _
  · simp only [List.mem_cons, List.not_mem_nil, or_false] at hcount
    rcases hcount with rfl | rfl | rfl | rfl | rfl <;> exact unbroken_renderCount (by decide) _
  · split at htile
    · simp only [List.mem_cons, List.not_mem_nil, or_false] at htile
      rcases htile with rfl | rfl <;> exact .append (by decide) (unbroken_renderTile _)
    · cases htile
  · split at hfold
    · rw [List.mem_singleton.1 hfold]
      exact .append (by decide) (Value.unbroken_render _)
    · cases hfold

end Header

theorem Slot.unbroken_render (s : Slot) : Unbroken s.render :=
  .append (.append (.append (.append (.append (.append (Value.unbroken_render s.key) (by decide))
    (Header.unbroken_renderTile s.x)) (by decide)) (Header.unbroken_renderTile s.y)) (by decide))
    (Value.unbroken_render s.value)

theorem unbroken_renderKeyed (key : Value) {item : List Char} (hitem : Unbroken item) :
    Unbroken (renderKeyed key item) :=
  (Value.unbroken_render key).append (.cons (by decide) hitem)

theorem PageBody.unbroken_render (body : PageBody Header) : Unbroken body.render := by
  cases body with
  | btreeLeaf slots =>
      exact .joinWith (by decide) (List.forall_mem_map.2 fun slot _ =>
        unbroken_renderKeyed _ (Value.unbroken_render _))
  | btreeNode children =>
      exact .joinWith (by decide) (List.forall_mem_map.2 fun child _ =>
        unbroken_renderKeyed _ (Header.unbroken_render _ _))
  | utreeLeaf value => exact Value.unbroken_render value
  | qtreeLeaf slots =>
      exact .joinWith (by decide) (List.forall_mem_map.2 fun slot _ => Slot.unbroken_render slot)
  | qtreeNode children =>
      exact .joinWith (by decide) (List.forall_mem_map.2 fun child _ =>
        Header.unbroken_render child true)

theorem Page.unbroken_render (p : Page Header) : Unbroken p.render := by
  have htag : Unbroken p.kind.tag.toList := by
    cases p.kind <;> decide
  exact .cons (by decide) ((((htag.append (by decide)).append (.decimal p.stem)).append
    (by decide)).append (.decimal p.version) |>.append (.cons (by decide) (.cons (by decide)
      ((PageBody.unbroken_render p.body).append (by decide)))))

/-- The text of a page is on one line. -/
theorem Page.oneLine_render (p : Page Header) : OneLine p.render :=
  p.unbroken_render.oneLine

/-! ## Splitting into lines -/

/-- Texts on one line, each followed by a newline, are the lines of what they make together. -/
theorem Text.splitOn_lines {lines : List (List Char)} (hlines : ∀ line ∈ lines, OneLine line) :
    (lines.flatMap (· ++ ['\n'])).splitOn '\n' = lines ++ [[]] := by
  have hjoin : lines.flatMap (· ++ ['\n']) = ['\n'].intercalate (lines ++ [[]]) := by
    clear hlines
    induction lines with
    | nil => rfl
    | cons line lines ih =>
        rw [List.flatMap_cons, ih, List.cons_append, List.intercalate_cons_of_ne_nil (by simp)]
  rw [hjoin]
  refine List.splitOn_intercalate '\n' ?_ (by simp)
  intro line hline
  rcases List.mem_append.1 hline with hline | hline
  · exact hlines line hline
  · rw [List.mem_singleton.1 hline]
    exact List.not_mem_nil

/-! ## The text of a value -/

section Values

namespace Value

theorem toList_toText (v : Value) : v.toText.toList = v.render :=
  String.toList_ofList

/-- What is read at the text of a value is the value, up to the end of its text. -/
theorem exec_value_toText (v : Value) (before : List Char) {rest : List Char}
    (hopen : Reading.Open rest) :
    Reading.exec Reading.value ⟨before, v.toText.toList ++ rest⟩ =
      (.ok v, ⟨v.toText.toList.reverse ++ before, rest⟩) := by
  rw [toList_toText]
  exact (Reading.value_spells v).exec before hopen

theorem parse_toText (v : Value) : Value.parse v.toText = .ok v := by
  have hend : Reading.Open [] := fun c hc => nomatch hc
  have hexec := exec_value_toText v [] hend
  rw [toList_toText, List.append_nil, List.append_nil] at hexec
  rw [Value.parse, toText, Reading.parse_ofList, Reading.exec_bind, hexec]
  rfl

/-- Two values that have one text are the same. -/
theorem toText_injective : Function.Injective toText := by
  intro v w htext
  have hv := parse_toText v
  rw [htext, parse_toText w] at hv
  exact (Except.ok.inj hv).symm

/-- The text of a value, whatever is nested in it, is read back as the value: from any place where
it is followed by nothing or by a character that continues no word and no number, up to where the
next text starts, and as a text of its own.  Values that differ have texts that differ, and no text
has a newline, a carriage return or a tab in it. -/
theorem values_spell_back :
    (∀ (v : Value) (before rest : List Char), Reading.Open rest →
      Reading.exec Reading.value ⟨before, v.toText.toList ++ rest⟩ =
        (.ok v, ⟨v.toText.toList.reverse ++ before, rest⟩)) ∧
    (∀ v : Value, Value.parse v.toText = .ok v) ∧
    (∀ v w : Value, v ≠ w → v.toText ≠ w.toText) ∧
    ∀ v : Value, ∀ c ∈ v.toText.toList, c ≠ '\n' ∧ c ≠ '\r' ∧ c ≠ '\t' := by
  refine ⟨fun v before rest hopen => exec_value_toText v before hopen, parse_toText,
    fun v w hne htext => hne (toText_injective htext), fun v c hc => ?_⟩
  rw [toList_toText] at hc
  have hbreak := unbroken_render v c hc
  simpa [Text.isBreak, and_assoc] using hbreak

/-- A list that ends with bytes, with a key behind it, and two values whose texts are alike. -/
theorem values_spell_back_list :
    let v : Value := .list [.int (-1), .text "a\n\"b\"", .list [], .data [0x0a, 0xff]]
    Reading.exec Reading.value ⟨['('], v.toText.toList ++ ":true".toList⟩ =
        (.ok v, ⟨v.toText.toList.reverse ++ ['('], ":true".toList⟩) ∧
      Value.parse v.toText = .ok v ∧ (Value.text "1").toText ≠ (Value.int 1).toText ∧
      ∀ c ∈ v.toText.toList, c ≠ '\n' ∧ c ≠ '\r' ∧ c ≠ '\t' := by
  intro v
  have hopen : Reading.Open ":true".toList := Reading.open_cons (c := ':') (by decide)
  exact ⟨values_spell_back.1 v ['('] _ hopen, values_spell_back.2.1 v,
    values_spell_back.2.2.1 _ _ (fun heq => nomatch heq), values_spell_back.2.2.2 v⟩

end Value

end Values

end PageTree
