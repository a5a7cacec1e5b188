import Mathlib.Algebra.Ring.Nat
import Mathlib.Algebra.Ring.Int.Defs
import Mathlib.Data.List.Forall2
import PageTree.Page.Parser

/-!
# Texts that spell a value

`Spells step a text after fits` says that a reading step reads `a` where it finds `text`, and
stops right behind it, whenever what follows satisfies `after`; only where `fits` fails may it
refuse to read at all.  A step that ends with a run of characters has to be followed by one
that does not continue the run (`Open`).
-/

namespace PageTree
namespace Reading

variable {α β : Type}

/-! ## Running a step -/

/-- The outcome of a step and the place it has reached. -/
def exec (step : Reading α) (r : TextReader) : Except StoreError α × TextReader :=
  step.run.run r

@[simp] theorem exec_pure (a : α) (r : TextReader) : exec (pure a : Reading α) r = (.ok a, r) :=
  rfl

theorem exec_bind (step : Reading α) (f : α → Reading β) (r : TextReader) :
    exec (step >>= f) r =
      match exec step r with
      | (.ok a, r') => exec (f a) r'
      | (.error e, r') => (.error e, r') := by
  simp only [exec, ExceptT.run_bind, StateT.run_bind]
  generalize (step.run.run r : Id _) = outcome
  obtain ⟨_ | _, r'⟩ := outcome <;> rfl

@[simp] theorem exec_get (r : TextReader) : exec (get : Reading TextReader) r = (.ok r, r) := rfl

@[simp] theorem exec_set (r' r : TextReader) : exec (set r' : Reading Unit) r = (.ok (), r') :=
  rfl

@[simp] theorem exec_modify (f : TextReader → TextReader) (r : TextReader) :
    exec (modify f : Reading Unit) r = (.ok (), f r) := rfl

theorem exec_peek (r : TextReader) : exec peek r = (.ok r.rest.head?, r) := rfl

theorem advance_append (before text rest : List Char) :
    TextReader.advance ⟨before, text ++ rest⟩ text.length = ⟨text.reverse ++ before, rest⟩ := by
  simp [TextReader.advance]

/-- A run of characters of a class is moved over. -/
theorem exec_takeWhile (p : Char → Bool) (r : TextReader) :
    exec (takeWhile p) r =
      (.ok (r.rest.takeWhile p),
        ⟨(r.rest.takeWhile p).reverse ++ r.before, r.rest.dropWhile p⟩) := by
  have hadvance := advance_append r.before (r.rest.takeWhile p) (r.rest.dropWhile p)
  rw [List.takeWhile_append_dropWhile] at hadvance
  simp only [takeWhile, exec_bind, exec_get, exec_modify, exec_pure]
  rw [hadvance]

/-! ## Spelling -/

/-- What follows does not continue an identifier, a number or a run of digits. -/
def Open (rest : List Char) : Prop :=
  ∀ c ∈ rest.head?, isIdentChar c = false

/-- Whatever follows. -/
def Anything (_ : List Char) : Prop := True

/-- The step reads the value off the text, unless the value does not fit. -/
def Spells (step : Reading α) (a : α) (text : List Char) (after : List Char → Prop)
    (fits : Prop) : Prop :=
  ∀ before rest, after rest →
    exec step ⟨before, text ++ rest⟩ = (.ok a, ⟨text.reverse ++ before, rest⟩) ∨
      ¬ fits ∧ ∃ e r, exec step ⟨before, text ++ rest⟩ = (.error e, r)

namespace Spells

variable {step : Reading α} {a : α} {b : β} {text text' : List Char}
  {after after' : List Char → Prop} {fits fits' : Prop}

/-- A step that reads the value off the text in any case. -/
theorem of_exec (hexec : ∀ before rest, after rest →
    exec step ⟨before, text ++ rest⟩ = (.ok a, ⟨text.reverse ++ before, rest⟩)) :
    Spells step a text after fits :=
  fun before rest hafter => Or.inl (hexec before rest hafter)

/-- What a step reads where every value fits. -/
theorem exec (hstep : Spells step a text after True) {rest : List Char} (before : List Char)
    (hrest : after rest) :
    Reading.exec step ⟨before, text ++ rest⟩ = (.ok a, ⟨text.reverse ++ before, rest⟩) := by
  rcases hstep before rest hrest with hok | ⟨hfalse, -⟩
  · exact hok
  · exact absurd trivial hfalse

protected theorem pure (a : α) : Spells (pure a : Reading α) a [] after fits :=
  of_exec fun _ _ _ => rfl

/-- One step after another. -/
protected theorem bind {f : α → Reading β} (hstep : Spells step a text after fits)
    (hf : Spells (f a) b text' after' fits)
    (hafter : ∀ rest, after' rest → after (text' ++ rest)) :
    Spells (step >>= f) b (text ++ text') after' fits := by
  intro before rest hrest
  rw [List.append_assoc, exec_bind]
  rcases hstep before (text' ++ rest) (hafter rest hrest) with hok | ⟨hunfit, e, r, herror⟩
  · rw [hok]
    rcases hf (text.reverse ++ before) rest hrest with hok' | herror'
    · refine Or.inl ?_
      simp only [hok', List.reverse_append, List.append_assoc]
    · exact Or.inr herror'
  · exact Or.inr ⟨hunfit, e, r, by rw [herror]⟩

/-- A result that is made of what has been read. -/
theorem map {f : α → β} (hstep : Spells step a text after fits) :
    Spells (step >>= fun a => pure (f a)) (f a) text after fits := by
  have hpure : Spells (pure (f a) : Reading β) (f a) [] after fits := Spells.pure (f a)
  have hruns := hstep.bind (f := fun a => pure (f a)) hpure fun _ hrest => hrest
  rwa [List.append_nil] at hruns

theorem weaken (hfits : fits' → fits) (hstep : Spells step a text after fits) :
    Spells step a text after fits' := by
  intro before rest hrest
  rcases hstep before rest hrest with hok | ⟨hunfit, herror⟩
  · exact Or.inl hok
  · exact Or.inr ⟨fun h => hunfit (hfits h), herror⟩

theorem narrow (hafter : ∀ rest, after' rest → after rest)
    (hstep : Spells step a text after fits) : Spells step a text after' fits :=
  fun before rest hrest => hstep before rest (hafter rest hrest)

end Spells

/-! ## Single characters and words -/

section Tokens

variable {fits : Prop}

theorem eat_spells (c : Char) : Spells (eat c) true [c] Anything fits :=
  Spells.of_exec fun before rest _ => by
    simp only [eat, exec_bind, exec_peek, List.cons_append, List.head?_cons, if_true,
      exec_modify, exec_pure, List.nil_append]
    rfl

theorem eat_other_spells (c : Char) :
    Spells (eat c) false [] (fun rest => rest.head? ≠ some c) fits :=
  Spells.of_exec fun before rest hne => by
    simp [eat, exec_bind, exec_peek, hne]

theorem expect_spells (c : Char) : Spells (expect c) () [c] Anything fits :=
  Spells.of_exec fun before rest _ => by
    simp [expect, eat, exec_bind, exec_peek, TextReader.advance]

theorem expectText_spells (text : String) :
    Spells (expectText text) () text.toList Anything fits :=
  Spells.of_exec fun before rest _ => by
    have hhead : text.toList.isPrefixOf (text.toList ++ rest) = true :=
      List.isPrefixOf_iff_prefix.2 (List.prefix_append _ _)
    have hadvance := advance_append before text.toList rest
    rw [String.length_toList] at hadvance
    simp only [expectText, eatText, exec_bind, exec_get, hhead, if_true, exec_modify,
      exec_pure, hadvance]
    rfl

/-- A run of characters of a class ends where the text does. -/
theorem takeWhile_append {p : Char → Bool} {text rest : List Char} (hall : ∀ c ∈ text, p c = true)
    (hnext : ∀ c ∈ rest.head?, p c = false) : (text ++ rest).takeWhile p = text := by
  rw [List.takeWhile_append_of_pos hall]
  cases rest with
  | nil => simp
  | cons c rest => simp [hnext c rfl]

theorem takeWhile_spells {p : Char → Bool} {text : List Char} (hall : ∀ c ∈ text, p c = true) :
    Spells (takeWhile p) text text (fun rest => ∀ c ∈ rest.head?, p c = false) fits :=
  Spells.of_exec fun before rest hnext => by
    simp only [takeWhile, exec_bind, exec_get, exec_modify, exec_pure,
      takeWhile_append hall hnext, advance_append]

/-- An identifier spells itself. -/
theorem ident_spells (word : String)
    (hword : word.toList ≠ [] ∧ word.toList.all isIdentChar = true) :
    Spells ident word word.toList Open fits := by
  obtain ⟨hne, hall⟩ := hword
  refine Spells.of_exec fun before rest hopen => ?_
  simp only [ident, takeWhile, exec_bind, exec_get, exec_modify, exec_pure,
    takeWhile_append (List.all_eq_true.1 hall) hopen, advance_append]
  simp [hne]

end Tokens

/-! ## Numbers -/

section Numbers

variable {fits : Prop}

theorem isIdentChar_of_isDigit {c : Char} (hdigit : c.isDigit = true) :
    isIdentChar c = true := by
  simp [isIdentChar, Char.isAlphanum, hdigit]

/-- A run of characters that identifiers may have does not go on into what follows. -/
theorem Open.ends {p : Char → Bool} {rest : List Char} (hopen : Open rest)
    (hp : ∀ c, p c = true → isIdentChar c = true) : ∀ c ∈ rest.head?, p c = false := by
  intro c hc
  cases hclass : p c with
  | false => rfl
  | true =>
      have hident := hp c hclass
      rw [hopen c hc] at hident
      cases hident

theorem decimal_ne_nil (n : Nat) : Text.decimal n ≠ [] :=
  Nat.toDigits_ne_nil

theorem isDigit_of_mem_decimal {n : Nat} : ∀ c ∈ Text.decimal n, c.isDigit = true :=
  fun _ hc => Nat.isDigit_of_mem_toDigits (by decide) (by decide) hc

theorem ofDecimal_decimal (n : Nat) : Text.ofDecimal (Text.decimal n) = n :=
  Nat.ofDigitChars_ten_toDigits

/-- The sign of a number. -/
def sign (negative : Bool) : List Char :=
  if negative then ['-'] else []

/-- The numbers of 64 bits. -/
theorem fits_int64 (i : Int) :
    (decide (i < Int64.minValue.toInt) || decide (Int64.maxValue.toInt < i)) =
      decide (i < -2 ^ 63 ∨ 2 ^ 63 ≤ i) := by
  have hmin : Int64.minValue.toInt = -2 ^ 63 := rfl
  have hmax : Int64.maxValue.toInt = 2 ^ 63 - 1 := rfl
  rw [hmin, hmax, ← Bool.decide_or, decide_eq_decide]
  omega

/-- What digits behind a sign give. -/
theorem exec_integer (negative : Bool) {digits : List Char} (hne : digits ≠ [])
    (hall : ∀ c ∈ digits, c.isDigit = true) (before rest : List Char) (hopen : Open rest) :
    exec integer ⟨before, sign negative ++ digits ++ rest⟩ =
      let i : Int := if negative then -Text.ofDecimal digits else Text.ofDecimal digits
      if i < -2 ^ 63 ∨ 2 ^ 63 ≤ i then
        (.error (TextReader.error ⟨before, sign negative ++ digits ++ rest⟩ "expected integer"),
          ⟨before, sign negative ++ digits ++ rest⟩)
      else (.ok (Int64.ofInt i), ⟨(sign negative ++ digits).reverse ++ before, rest⟩) := by
  have heat : exec (eat '-') ⟨before, sign negative ++ digits ++ rest⟩ =
      (.ok negative, ⟨(sign negative).reverse ++ before, digits ++ rest⟩) := by
    cases negative with
    | true =>
        exact (eat_spells '-').exec before trivial
    | false =>
        obtain ⟨c, cs, rfl⟩ := List.exists_cons_of_ne_nil hne
        have hminus : c ≠ '-' := by
          rintro rfl
          exact absurd (hall '-' List.mem_cons_self) (by decide)
        exact (eat_other_spells '-').exec before (by simpa using hminus)
  have htake : exec (takeWhile Char.isDigit) ⟨(sign negative).reverse ++ before, digits ++ rest⟩ =
      (.ok digits, ⟨(sign negative ++ digits).reverse ++ before, rest⟩) := by
    rw [(takeWhile_spells hall).exec _ (hopen.ends fun _ => isIdentChar_of_isDigit),
      List.reverse_append, List.append_assoc]
  have hempty : digits.isEmpty = false := by simpa using hne
  simp only [integer, exec_bind, exec_get, heat, htake, hempty, Bool.false_or]
  generalize (if negative = true then -(Text.ofDecimal digits : Int)
    else (Text.ofDecimal digits : Int)) = i
  rw [fits_int64]
  by_cases hrange : i < -2 ^ 63 ∨ 2 ^ 63 ≤ i
  · rw [if_pos hrange, if_pos (decide_eq_true hrange)]
    rfl
  · rw [if_neg hrange, if_neg (by simpa using hrange)]
    rfl

theorem hexDigit?_digitChar : ∀ d < 16, Text.hexDigit? (Nat.digitChar d) = some d := by
  decide

theorem length_hexDigits (width n : Nat) : (Text.hexDigits width n).length = width := by
  induction width generalizing n with
  | zero => rfl
  | succ width ih => simp [Text.hexDigits, ih]

theorem hexDigit?_of_mem_hexDigits (width n : Nat) :
    ∀ c ∈ Text.hexDigits width n, (Text.hexDigit? c).isSome = true := by
  induction width generalizing n with
  | zero => simp [Text.hexDigits]
  | succ width ih =>
      intro c hc
      rcases List.mem_append.1 hc with hc | hc
      · exact ih (n / 16) c hc
      · rw [List.mem_singleton.1 hc, hexDigit?_digitChar _ (Nat.mod_lt _ (by decide))]
        rfl

theorem ofHexDigits_hexDigits (width n : Nat) :
    Text.ofHexDigits (Text.hexDigits width n) = n % 16 ^ width := by
  induction width generalizing n with
  | zero => simp [Text.hexDigits, Text.ofHexDigits, Nat.mod_one]
  | succ width ih =>
      have hlast := hexDigit?_digitChar (n % 16) (Nat.mod_lt _ (by decide))
      have hfold : Text.ofHexDigits (Text.hexDigits (width + 1) n) =
          16 * Text.ofHexDigits (Text.hexDigits width (n / 16)) + n % 16 := by
        simp [Text.ofHexDigits, Text.hexDigits, hlast]
      rw [hfold, ih, Nat.pow_succ, Nat.mul_comm (16 ^ width) 16, Nat.mod_mul]
      omega

theorem isIdentChar_of_hexDigit? {c : Char} (hhex : (Text.hexDigit? c).isSome = true) :
    isIdentChar c = true := by
  unfold Text.hexDigit? at hhex
  unfold isIdentChar Char.isAlphanum Char.isAlpha Char.isUpper Char.isLower Char.isDigit
  split at hhex
  · next h =>
      have h₀ : '0'.val ≤ c.val := h.1
      have h₉ : c.val ≤ '9'.val := h.2
      simp_all
  · split at hhex
    · next h =>
        have ha : 'a'.val ≤ c.val := h.1
        have hf : c.val ≤ 'f'.val := h.2
        have hz : c.val ≤ 'z'.val := UInt32.le_trans hf (by decide)
        simp_all
    · split at hhex
      · next h =>
          have ha : 'A'.val ≤ c.val := h.1
          have hf : c.val ≤ 'F'.val := h.2
          have hz : c.val ≤ 'Z'.val := UInt32.le_trans hf (by decide)
          simp_all
      · cases hhex

end Numbers

/-! ## Lists -/

section Lists

variable {item : Reading α} {fits : Prop}

/-- Something that can stand in a list: it does not begin with a closing brace and is not
empty. -/
def Begins (text : List Char) : Prop :=
  ∃ c cs, text = c :: cs ∧ c ≠ '\x7d'

theorem open_cons {c : Char} {cs : List Char} (hc : isIdentChar c = false) : Open (c :: cs) := by
  intro c' hc'
  cases hc'
  exact hc

/-- Items with commas between them, each with its text. -/
theorem separated_spells (n : Nat) {a : α} {as : List α} {text : List Char}
    {texts : List (List Char)} (henough : as.length ≤ n)
    (hfirst : Spells item a text Open fits)
    (hitems : List.Forall₂ (fun text b => Spells item b text Open fits) texts as) :
    Spells (separated item n) (a :: as) (Text.joinWith ',' (text :: texts))
      (fun rest => Open rest ∧ rest.head? ≠ some ',') fits := by
  induction hitems generalizing n a text with
  | nil =>
      cases n with
      | zero =>
          -- the bound is used up, so no comma is looked for
          exact hfirst.map.narrow fun _ hrest => hrest.1
      | succ n =>
          have hend : Spells (eat ',' >>= fun more =>
              if more then (do return a :: (← separated item n)) else return [a]) [a] []
              (fun rest => Open rest ∧ rest.head? ≠ some ',') fits :=
            ((eat_other_spells ',').bind (Spells.pure [a]) fun _ hrest => hrest).narrow
              fun _ hrest => hrest.2
          have hall : Spells (separated item (n + 1)) [a] (text ++ [])
              (fun rest => Open rest ∧ rest.head? ≠ some ',') fits :=
            hfirst.bind hend fun _ hrest => hrest.1
          rwa [List.append_nil] at hall
  | @cons text' b texts bs hb _ ih =>
      cases n with
      | zero => exact absurd henough (by simp)
      | succ n =>
          have hrest := ih n (by simpa using henough) hb
          have hmore : Spells (eat ',' >>= fun more =>
              if more then (do return a :: (← separated item n)) else return [a]) (a :: b :: bs)
              ([','] ++ Text.joinWith ',' (text' :: texts))
              (fun rest => Open rest ∧ rest.head? ≠ some ',') fits :=
            (eat_spells ',').bind hrest.map fun _ _ => trivial
          exact hfirst.bind hmore fun _ _ => open_cons (by decide)

theorem length_le_joinWith (a : List Char) (as : List (List Char)) :
    as.length ≤ (Text.joinWith ',' (a :: as)).length := by
  induction as generalizing a with
  | nil => simp
  | cons b bs ih =>
      have hrest := ih b
      simp only [Text.joinWith, List.length_append, List.length_cons] at hrest ⊢
      omega

/-- Items with commas between them, as many as there may be. -/
theorem commaSeparated_spells {a : α} {as : List α} {text : List Char} {texts : List (List Char)}
    (hitems : List.Forall₂ (fun text b => Spells item b text Open fits) (text :: texts) (a :: as)) :
    Spells (commaSeparated item) (a :: as) (Text.joinWith ',' (text :: texts))
      (fun rest => Open rest ∧ rest.head? ≠ some ',') fits := by
  obtain ⟨hfirst, hmore⟩ := List.forall₂_cons.1 hitems
  intro before rest hrest
  have henough : as.length ≤ (Text.joinWith ',' (text :: texts) ++ rest).length := by
    have hjoin := length_le_joinWith text texts
    rw [hmore.length_eq] at hjoin
    rw [List.length_append]
    exact Nat.le_trans hjoin (Nat.le_add_right _ _)
  exact separated_spells _ henough hfirst hmore before rest hrest

/-- Items with commas between them, each as it is written. -/
theorem written_spells (render : α → List Char) (a : α) (as : List α)
    (hitem : ∀ b ∈ a :: as, Spells item b (render b) Open fits) :
    Spells (commaSeparated item) (a :: as) (Text.joinWith ',' ((a :: as).map render))
      (fun rest => Open rest ∧ rest.head? ≠ some ',') fits := by
  have hall : List.Forall₂ (fun text b => Spells item b text Open fits)
      ((a :: as).map render) (a :: as) :=
    List.forall₂_map_left_iff.2 (List.forall₂_same.2 hitem)
  exact commaSeparated_spells hall

/-- A list begins as its first item does. -/
theorem begins_joinWith {a : List Char} (as : List (List Char)) (hbegins : Begins a) :
    Begins (Text.joinWith ',' (a :: as)) := by
  obtain ⟨c, cs, rfl, hc⟩ := hbegins
  cases as with
  | nil => exact ⟨c, cs, rfl, hc⟩
  | cons b bs => exact ⟨c, _, rfl, hc⟩

/-- Items in braces. -/
theorem braced_spells (item : Reading α) (render : α → List Char) (items : List α)
    {after : List Char → Prop}
    (hitem : ∀ b ∈ items, Spells item b (render b) Open fits)
    (hbegins : ∀ b ∈ items, Begins (render b)) :
    Spells (braced item) items
      ('\x7b' :: (Text.joinWith ',' (items.map render) ++ ['\x7d'])) after fits := by
  have hopening : Spells (expect '\x7b') () ['\x7b'] Anything fits := expect_spells '\x7b'
  cases items with
  | nil =>
      have hclosing : Spells (eat '\x7d' >>= fun closed => if closed then return [] else do
          let items ← commaSeparated item
          expect '\x7d'
          return items) ([] : List α) (['\x7d'] ++ []) after fits :=
        (eat_spells '\x7d').bind (Spells.pure []) fun _ _ => trivial
      exact hopening.bind hclosing fun _ _ => trivial
  | cons a as =>
      have hitems := written_spells render a as hitem
      have hclosing : Spells (expect '\x7d' >>= fun _ => return a :: as) (a :: as) ['\x7d']
          after fits := (expect_spells '\x7d').bind (Spells.pure _) fun _ _ => trivial
      have hrest : Spells (eat '\x7d' >>= fun closed => if closed then return [] else do
          let items ← commaSeparated item
          expect '\x7d'
          return items) (a :: as)
          ([] ++ (Text.joinWith ',' ((a :: as).map render) ++ ['\x7d'])) after fits := by
        refine (eat_other_spells '\x7d').bind (hitems.bind hclosing ?_) ?_
        · exact fun _ _ => ⟨open_cons (by decide), by simp⟩
        · intro rest _
          obtain ⟨c, cs, htext, hc⟩ :=
            begins_joinWith (as.map render) (hbegins a List.mem_cons_self)
          rw [List.map_cons, htext]
          simpa using hc
      exact hopening.bind hrest fun _ _ => trivial

end Lists
end Reading
end PageTree
