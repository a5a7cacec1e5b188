import Mathlib.Data.List.Induction
import PageTree.Proofs.Text.Grammar
import PageTree.Proofs.Text.Spelling

/-!
# Derived texts are read

A reader finds whatever the grammar derives: the texts of numbers and of tiles spell them, and a
text that derives a value spells it (`Reading.value_spells_of_derives`).  A value is told by its
first character, and a list nests no deeper than its text is long, so the bound that reading starts
with is enough.  Since a text is read in one way only, it derives one value at most.
-/

namespace PageTree

/-! ## Numerals -/

namespace Text

variable {base : Nat} {digits : List (Char × Nat)} {text : List Char} {n : Nat}

/-- What a numeral is, if there is a test for digits and a function for their values. -/
theorem numeral_iff {p : Char → Bool} {value : Char → Nat}
    (hdigits : ∀ c d, (c, d) ∈ digits ↔ p c = true ∧ value c = d) :
    Numeral base digits text n ↔ text ≠ [] ∧ (∀ c ∈ text, p c = true) ∧
      text.foldl (fun n c => base * n + value c) 0 = n := by
  constructor
  · intro hnumeral
    induction hnumeral with
    | @first c d digit =>
        obtain ⟨hp, rfl⟩ := (hdigits c d).1 digit
        simp [hp]
    | @next text n c d _ digit ih =>
        obtain ⟨hp, rfl⟩ := (hdigits c d).1 digit
        obtain ⟨-, hall, rfl⟩ := ih
        refine ⟨by simp, ?_, by simp⟩
        intro c' hc'
        rcases List.mem_append.1 hc' with hc' | hc'
        · exact hall c' hc'
        · rw [List.mem_singleton.1 hc', hp]
  · rintro ⟨hne, hall, rfl⟩
    induction text using List.reverseRecOn with
    | nil => exact absurd rfl hne
    | append_singleton text c ih =>
        have hlast := (hdigits c (value c)).2 ⟨hall c (by simp), rfl⟩
        rw [List.foldl_append]
        cases text with
        | nil => simpa using Numeral.first hlast
        | cons c' text =>
            exact .next (ih (by simp) fun x hx => hall x (List.mem_append_left _ hx)) hlast

theorem toNat_lt_of_isDigit {c : Char} (hdigit : c.isDigit = true) : c.toNat < 128 := by
  simp only [Char.isDigit, Bool.and_eq_true, decide_eq_true_eq] at hdigit
  exact Nat.lt_of_le_of_lt hdigit.2 (by decide)

theorem mem_decimalDigits (c : Char) (d : Nat) :
    (c, d) ∈ decimalDigits ↔ c.isDigit = true ∧ c.toNat - '0'.toNat = d := by
  constructor
  · intro hmem
    have htable : ∀ e ∈ decimalDigits, e.1.isDigit = true ∧ e.1.toNat - '0'.toNat = e.2 := by
      decide
    exact htable _ hmem
  · rintro ⟨hdigit, rfl⟩
    have htable : ∀ n < 128, (Char.ofNat n).isDigit = true →
        (Char.ofNat n, (Char.ofNat n).toNat - '0'.toNat) ∈ decimalDigits := by
      decide
    have hc := htable c.toNat (toNat_lt_of_isDigit hdigit)
    rw [Char.ofNat_toNat] at hc
    exact hc hdigit

theorem numeral_decimal_iff : Numeral 10 decimalDigits text n ↔
    text ≠ [] ∧ (∀ c ∈ text, c.isDigit = true) ∧ ofDecimal text = n :=
  numeral_iff mem_decimalDigits

theorem toNat_lt_of_hexDigit? {c : Char} {d : Nat} (hhex : hexDigit? c = some d) :
    c.toNat < 128 := by
  unfold hexDigit? at hhex
  split at hhex
  · next h => exact Nat.lt_of_le_of_lt h.2 (by decide)
  · split at hhex
    · next h => exact Nat.lt_of_le_of_lt h.2 (by decide)
    · split at hhex
      · next h => exact Nat.lt_of_le_of_lt h.2 (by decide)
      · cases hhex

theorem mem_hexadecimalDigits (c : Char) (d : Nat) :
    (c, d) ∈ hexadecimalDigits ↔ hexDigit? c = some d := by
  constructor
  · intro hmem
    have htable : ∀ e ∈ hexadecimalDigits, hexDigit? e.1 = some e.2 := by decide
    exact htable _ hmem
  · intro hhex
    have htable : ∀ n < 128, ∀ d ∈ hexDigit? (Char.ofNat n),
        (Char.ofNat n, d) ∈ hexadecimalDigits := by
      decide
    have hc := htable c.toNat (toNat_lt_of_hexDigit? hhex)
    rw [Char.ofNat_toNat] at hc
    exact hc d hhex

theorem numeral_hexadecimal_iff : Numeral 16 hexadecimalDigits text n ↔
    text ≠ [] ∧ (∀ c ∈ text, (hexDigit? c).isSome = true) ∧ ofHexDigits text = n := by
  have hdigits : ∀ c d, (c, d) ∈ hexadecimalDigits ↔
      (hexDigit? c).isSome = true ∧ (hexDigit? c).getD 0 = d := by
    intro c d
    rw [mem_hexadecimalDigits]
    cases hexDigit? c <;> simp
  exact numeral_iff hdigits

end Text

namespace Reading

variable {α β : Type} {fits : Prop} {after : List Char → Prop} {text : List Char}

/-! ## Numbers -/

/-- What is read where a text derives an integer, of 64 bits or not. -/
theorem exec_integer_of_derives {i : Int} (hderives : Text.DerivesInteger text i)
    (before rest : List Char) (hopen : Open rest) :
    exec integer ⟨before, text ++ rest⟩ =
      if i < -2 ^ 63 ∨ 2 ^ 63 ≤ i then
        (.error (TextReader.error ⟨before, text ++ rest⟩ "expected integer"),
          ⟨before, text ++ rest⟩)
      else (.ok (Int64.ofInt i), ⟨text.reverse ++ before, rest⟩) := by
  cases hderives with
  | plain digits =>
      obtain ⟨hne, hall, rfl⟩ := Text.numeral_decimal_iff.1 digits
      exact exec_integer false hne hall before rest hopen
  | negated digits =>
      obtain ⟨hne, hall, rfl⟩ := Text.numeral_decimal_iff.1 digits
      exact exec_integer true hne hall before rest hopen

/-- The text of an integer of 64 bits spells it. -/
theorem integer_spells_of_derives {n : Int64} (hderives : Text.DerivesInteger text n.toInt) :
    Spells integer n text Open fits := by
  have hlow : -2 ^ 63 ≤ n.toInt := n.le_toInt
  have hhigh : n.toInt < 2 ^ 63 := n.toInt_lt
  refine Spells.of_exec fun before rest hopen => ?_
  rw [exec_integer_of_derives hderives before rest hopen, if_neg (by omega), Int64.ofInt_toInt]

/-- The text of a number spells it as a count, if it has 63 bits. -/
theorem count_spells_of_derives (what : String) {n : Nat} (hderives : Text.DerivesInteger text n) :
    Spells (count what) n text Open (n < 2 ^ 63) := by
  intro before rest hopen
  have hexec := exec_integer_of_derives hderives before rest hopen
  by_cases hfits : n < 2 ^ 63
  · rw [if_neg (by omega)] at hexec
    have hback : (Int64.ofInt n).toInt = n := Int64.toInt_ofInt_of_le (by omega) (by omega)
    refine Or.inl ?_
    simp only [count, exec_bind, hexec, hback]
    rw [if_neg (by omega)]
    rfl
  · rw [if_pos (by omega)] at hexec
    refine Or.inr ⟨hfits, ?_⟩
    rw [count, exec_bind, hexec]
    exact ⟨_, _, rfl⟩

/-- The text of a number spells it as that of a zone, if it has 32 bits. -/
theorem zoneNumber_spells_of_derives (what : String) {n : Nat}
    (hderives : Text.DerivesInteger text n) :
    Spells (zoneNumber what) n text Open (n < 2 ^ 32) := by
  intro before rest hopen
  have hsize : UInt32.size = 2 ^ 32 := rfl
  rcases count_spells_of_derives what hderives before rest hopen with
    hok | ⟨hunfit, e, r, herror⟩
  · by_cases hfits : n < 2 ^ 32
    · refine Or.inl ?_
      simp only [zoneNumber, exec_bind, hok]
      rw [hsize, if_neg (by omega)]
      rfl
    · refine Or.inr ⟨hfits, ?_⟩
      simp only [zoneNumber, exec_bind, hok]
      rw [hsize, if_pos (by omega)]
      exact ⟨_, _, rfl⟩
  · refine Or.inr ⟨fun hfits => hunfit (by omega), ?_⟩
    rw [zoneNumber, exec_bind, herror]
    exact ⟨_, _, rfl⟩

/-- The text of a tile spells it. -/
theorem tile_spells_of_derives {t : Tile} (hderives : t.Derives text) :
    Spells tile t text Open fits := by
  obtain ⟨digits, rfl, hlength, hnumeral⟩ := hderives
  obtain ⟨hne, hall, hvalue⟩ := Text.numeral_hexadecimal_iff.1 hnumeral
  refine Spells.of_exec fun before rest hopen => ?_
  have hhead : exec (expectText "0x") ⟨before, "0x".toList ++ (digits ++ rest)⟩ = _ :=
    (expectText_spells "0x").exec before trivial
  have hdigits := (takeWhile_spells hall).exec ("0x".toList.reverse ++ before)
    (hopen.ends fun _ => isIdentChar_of_hexDigit?)
  have hbad : (digits.isEmpty || decide (16 < digits.length)) = false := by
    simpa using ⟨hne, hlength⟩
  rw [List.append_assoc]
  simp only [tile, hexNumber, exec_bind, hhead, exec_get, hdigits, hbad, hvalue]
  simp

/-! ## Texts and bytes -/

/-- A character that needs no escape is read as it is. -/
theorem scanQuoted_plain {c : Char} (hquote : c ≠ '"') (hbackslash : c ≠ '\\')
    (rest : List Char) :
    scanQuoted (c :: rest) = ((scanQuoted rest).1.map (c :: ·), (scanQuoted rest).2 + 1) := by
  rw [scanQuoted.eq_def]
  split
  · next heq => cases heq
  · next heq => exact absurd (List.cons.inj heq).1 hbackslash
  · next heq => exact absurd (List.cons.inj heq).1 hbackslash
  · next heq => exact absurd (List.cons.inj heq).1 hquote
  · next heq =>
      cases heq
      rfl

/-- A scanner reads what it moves over. -/
theorem scan_spells {scanner : List Char → Except String α × Nat} {a : α} {text : List Char}
    (hscan : ∀ rest, after rest → scanner (text ++ rest) = (.ok a, text.length)) :
    Spells (scan scanner) a text after fits :=
  Spells.of_exec fun before rest hrest => by
    simp only [scan, exec_bind, exec_get, hscan rest hrest, exec_modify, advance_append, exec_pure]

theorem unescape?_of_mem {c d : Char} (hescape : (c, d) ∈ Text.escapes) :
    Text.unescape? c = some d := by
  have htable : ∀ e ∈ Text.escapes, Text.unescape? e.1 = some e.2 := by decide
  exact htable _ hescape

theorem scanQuoted_of_derives {cs : List Char} (hderives : Text.DerivesQuoted text cs)
    (rest : List Char) : scanQuoted (text ++ '"' :: rest) = (.ok cs, (text ++ ['"']).length) := by
  induction hderives with
  | nil => rfl
  | plain notQuote notBackslash _ ih =>
      rw [List.cons_append, scanQuoted_plain notQuote notBackslash, ih]
      rfl
  | escaped escape _ ih =>
      simp only [List.cons_append, scanQuoted, unescape?_of_mem escape, ih]
      rfl

theorem quoted_spells_of_derives {cs : List Char} (hderives : Text.DerivesQuoted text cs) :
    Spells quoted (String.ofList cs) ('"' :: (text ++ ['"'])) after fits := by
  have hscan : Spells (scan scanQuoted) cs (text ++ ['"']) after fits :=
    scan_spells fun rest _ => by
      rw [List.append_assoc]
      exact scanQuoted_of_derives hderives rest
  exact (expect_spells '"').bind (hscan.map (f := String.ofList)) fun _ _ => trivial

/-- Nothing that may follow bytes continues them. -/
theorem scanBytes_open {rest : List Char} (hopen : Open rest) : scanBytes rest = (.ok [], 0) := by
  have hnext : ∀ c ∈ rest.head?, Text.hexDigit? c = none := fun c hc => by
    simpa using hopen.ends (fun _ => isIdentChar_of_hexDigit?) c hc
  -- bytes are read two characters at a time, so a single one that is left is a case of its own
  match rest, hnext with
  | [], _ => rfl
  | [c], hnext => simp [scanBytes, hnext c rfl]
  | c :: d :: rest, hnext => simp [scanBytes, hnext c rfl]

theorem scanBytes_of_derives {bs : List UInt8} (hderives : Text.DerivesBytes text bs)
    {rest : List Char} (hopen : Open rest) : scanBytes (text ++ rest) = (.ok bs, text.length) := by
  induction hderives with
  | nil => exact scanBytes_open hopen
  | cons highDigit lowDigit _ ih =>
      have hhigh := (Text.mem_hexadecimalDigits _ _).1 highDigit
      have hlow := (Text.mem_hexadecimalDigits _ _).1 lowDigit
      simp only [List.cons_append, scanBytes, hhigh, hlow, ih]
      rfl

theorem bytes_spells_of_derives {bs : List UInt8} (hderives : Text.DerivesBytes text bs) :
    Spells bytes bs ('%' :: text) Open fits :=
  (expect_spells '%').bind (scan_spells fun _ hopen => scanBytes_of_derives hderives hopen)
    fun _ _ => trivial

/-! ## Values -/

/-- The next character may be looked at. -/
theorem Spells.peek {f : Option Char → Reading β} {b : β} {c : Char} {cs : List Char}
    (hf : Spells (f (some c)) b (c :: cs) after fits) :
    Spells (Reading.peek >>= f) b (c :: cs) after fits := by
  intro before rest hrest
  have hrun : Reading.exec (Reading.peek >>= f) ⟨before, c :: cs ++ rest⟩ =
      Reading.exec (f (some c)) ⟨before, c :: cs ++ rest⟩ := by
    rw [exec_bind, exec_peek]
    rfl
  rw [hrun]
  exact hf before rest hrest

/-- One of the words that are values. -/
theorem literal_spells (word : String) {v : Value}
    (hword : (word = "absent" ∧ v = .absent) ∨ (word = "true" ∧ v = .bool true) ∨
      (word = "false" ∧ v = .bool false)) :
    Spells literal v word.toList Open fits := by
  refine Spells.of_exec fun before rest hopen => ?_
  have hident : word.toList ≠ [] ∧ word.toList.all isIdentChar = true := by
    rcases hword with ⟨rfl, -⟩ | ⟨rfl, -⟩ | ⟨rfl, -⟩ <;> decide
  have hexec := (ident_spells word hident).exec before hopen
  simp only [literal, exec_bind, exec_get, hexec]
  rcases hword with ⟨rfl, rfl⟩ | ⟨rfl, rfl⟩ | ⟨rfl, rfl⟩ <;> rfl

/-- The first character of a numeral is a digit. -/
theorem integer_begins {i : Int} (hderives : Text.DerivesInteger text i) :
    ∃ c cs, text = c :: cs ∧ (c = '-' ∨ c.isDigit = true) := by
  cases hderives with
  | plain digits =>
      obtain ⟨hne, hall, -⟩ := Text.numeral_decimal_iff.1 digits
      obtain ⟨c, cs, rfl⟩ := List.exists_cons_of_ne_nil hne
      exact ⟨c, cs, rfl, Or.inr (hall c List.mem_cons_self)⟩
  | negated digits => exact ⟨'-', _, rfl, Or.inl rfl⟩

theorem begins_of_derives {v : Value} (hderives : Value.Derives text v) : Begins text := by
  cases hderives with
  | int number =>
      obtain ⟨c, cs, rfl, hc⟩ := integer_begins number
      refine ⟨c, cs, rfl, ?_⟩
      rintro rfl
      revert hc
      decide
  | absent => exact ⟨'a', _, rfl, by decide⟩
  | true => exact ⟨'t', _, rfl, by decide⟩
  | false => exact ⟨'f', _, rfl, by decide⟩
  | text => exact ⟨'"', _, rfl, by decide⟩
  | data => exact ⟨'%', _, rfl, by decide⟩
  | empty => exact ⟨'\x7b', _, rfl, by decide⟩
  | list => exact ⟨'\x7b', _, rfl, by decide⟩

theorem begins_of_derivesAll {vs : List Value} (hderives : Value.DerivesAll text vs) :
    Begins text := by
  cases hderives with
  | last item => exact begins_of_derives item
  | more item _ =>
      obtain ⟨c, cs, rfl, hc⟩ := begins_of_derives item
      exact ⟨c, _, rfl, hc⟩

/-- A numeral is told from the other values by its first character. -/
theorem number_spells {bound : Nat} {n : Int64} (hderives : Text.DerivesInteger text n.toInt) :
    Spells (valueWithin (bound + 1)) (.int n) text Open fits := by
  have hinteger : Spells integer n text Open fits := integer_spells_of_derives hderives
  obtain ⟨c, cs, rfl, hc⟩ := integer_begins hderives
  have hquote : c ≠ '"' := by rintro rfl; revert hc; decide
  have hpercent : c ≠ '%' := by rintro rfl; revert hc; decide
  have hbrace : c ≠ '\x7b' := by rintro rfl; revert hc; decide
  have hdigit : (decide (c = '-') || c.isDigit) = true := by simpa using hc
  unfold valueWithin
  refine Spells.peek ?_
  simp only [if_neg hquote, if_neg hpercent, if_neg hbrace, hdigit, if_true]
  exact hinteger.map (f := Value.int)

section Step

variable {bound : Nat}
  (hitems : ∀ text vs, Value.DerivesAll text vs → text.length + 1 < bound →
    Spells (itemsWithin bound) vs (text ++ ['\x7d']) Open fits)

include hitems

/-- A value is read as its derivation says if the lists inside it are. -/
theorem valueWithin_spells {v : Value} (hderives : Value.Derives text v)
    (hlength : text.length < bound + 1) : Spells (valueWithin (bound + 1)) v text Open fits := by
  have hopening : Spells (expect '\x7b') () ['\x7b'] Anything fits := expect_spells '\x7b'
  cases hderives with
  | absent => exact Spells.peek (literal_spells "absent" (Or.inl ⟨rfl, rfl⟩))
  | true => exact Spells.peek (literal_spells "true" (Or.inr (Or.inl ⟨rfl, rfl⟩)))
  | false => exact Spells.peek (literal_spells "false" (Or.inr (Or.inr ⟨rfl, rfl⟩)))
  | int number => exact number_spells number
  | text quoted => exact Spells.peek ((quoted_spells_of_derives quoted).map (f := Value.text))
  | data digits => exact Spells.peek ((bytes_spells_of_derives digits).map (f := Value.data))
  | empty =>
      have hclosing : Spells (eat '\x7d' >>= fun closed =>
          if closed then return .list [] else return .list (← itemsWithin bound))
          (Value.list []) (['\x7d'] ++ []) Open fits :=
        (eat_spells '\x7d').bind (Spells.pure _) fun _ _ => trivial
      exact Spells.peek (hopening.bind hclosing fun _ _ => trivial)
  | @list text items hderives =>
      simp only [List.length_cons, List.length_append, List.length_nil] at hlength
      have hall := (hitems text items hderives (by omega)).map (f := Value.list)
      -- no value begins with the brace that closes a list, so the list is not taken as empty
      have hrest : Spells (eat '\x7d' >>= fun closed =>
          if closed then return .list [] else return .list (← itemsWithin bound))
          (Value.list items) ([] ++ (text ++ ['\x7d'])) Open fits := by
        refine (eat_other_spells '\x7d').bind hall ?_
        intro rest _
        obtain ⟨c, cs, rfl, hc⟩ := begins_of_derivesAll hderives
        simpa using hc
      exact Spells.peek (hopening.bind hrest fun _ _ => trivial)

/-- Items are read as their derivation says if each item and the items after it are. -/
theorem itemsWithin_spells
    (hvalue : ∀ text v, Value.Derives text v → text.length < bound →
      Spells (valueWithin bound) v text Open fits)
    {vs : List Value} (hderives : Value.DerivesAll text vs)
    (hlength : text.length + 1 < bound + 1) :
    Spells (itemsWithin (bound + 1)) vs (text ++ ['\x7d']) Open fits := by
  unfold itemsWithin
  cases hderives with
  | @last _ v item =>
      have hclosing : Spells (eat ',' >>= fun more =>
          if more then (do return v :: (← itemsWithin bound)) else do
            expect '\x7d'
            return [v]) [v] ([] ++ ['\x7d']) Open fits := by
        refine (eat_other_spells ',').bind
          ((expect_spells '\x7d').bind (Spells.pure [v]) fun _ _ => trivial) ?_
        intro rest _
        simp
      exact (hvalue text v item (by omega)).bind hclosing fun _ _ => open_cons (by decide)
  | @more text text' v vs item rest =>
      simp only [List.length_append, List.length_cons] at hlength
      have hne : 0 < text.length := by
        obtain ⟨c, cs, rfl, -⟩ := begins_of_derives item
        exact Nat.succ_pos _
      have hmore : Spells (eat ',' >>= fun more =>
          if more then (do return v :: (← itemsWithin bound)) else do
            expect '\x7d'
            return [v]) (v :: vs) ([','] ++ (text' ++ ['\x7d'])) Open fits :=
        (eat_spells ',').bind (hitems text' vs rest (by omega)).map fun _ _ => trivial
      rw [List.append_assoc]
      exact (hvalue text v item (by omega)).bind hmore fun _ _ => open_cons (by decide)

end Step

/-- Derived texts spell their values and lists of values if the bound is longer than the text. -/
theorem within_spells_of_derives (bound : Nat) :
    (∀ text v, Value.Derives text v → text.length < bound →
      Spells (valueWithin bound) v text Open fits) ∧
    ∀ text vs, Value.DerivesAll text vs → text.length + 1 < bound →
      Spells (itemsWithin bound) vs (text ++ ['\x7d']) Open fits := by
  -- reading a list and reading its items take turns, so the induction is on both at once
  induction bound with
  | zero =>
      exact ⟨fun _ _ _ hlength => absurd hlength (Nat.not_lt_zero _),
        fun _ _ _ hlength => absurd hlength (Nat.not_lt_zero _)⟩
  | succ bound ih =>
      obtain ⟨hvalue, hitems⟩ := ih
      exact ⟨fun _ _ hderives hlength => valueWithin_spells hitems hderives hlength,
        fun _ _ hderives hlength => itemsWithin_spells hitems hvalue hderives hlength⟩

/-- A text that derives a value spells it. -/
theorem value_spells_of_derives {v : Value} (hderives : Value.Derives text v) :
    Spells value v text Open fits := by
  intro before rest hrest
  have hlength : text.length < 2 * (text ++ rest).length + 1 := by
    rw [List.length_append]
    omega
  exact (within_spells_of_derives _).1 text v hderives hlength before rest hrest

end Reading
end PageTree
