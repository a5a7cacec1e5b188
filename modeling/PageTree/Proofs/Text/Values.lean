import PageTree.Proofs.Text.Derivations

/-!
# What is written is derived

Of the texts that derive a number, a tile or a value, one is written: decimal numbers without
leading zeros, digits in lower case, and escapes only where a character has to be escaped.  The text
that is written of a value derives it (`Value.derives_render`), so it spells the value
(`Reading.value_spells`).
-/

namespace PageTree

open Reading

/-! ## Numbers -/

namespace Text

theorem numeral_decimal (n : Nat) : Numeral 10 decimalDigits (decimal n) n :=
  numeral_decimal_iff.2 ⟨decimal_ne_nil n, isDigit_of_mem_decimal, ofDecimal_decimal n⟩

theorem derivesInteger_decimal (n : Nat) : DerivesInteger (decimal n) n :=
  .plain (numeral_decimal n)

theorem derivesInteger_signedDecimal (i : Int) : DerivesInteger (signedDecimal i) i := by
  cases i with
  | ofNat n => exact derivesInteger_decimal n
  | negSucc n => exact .negated (numeral_decimal (n + 1))

end Text

/-- A tile is written with sixteen digits. -/
theorem Tile.derives_renderTile (t : Tile) : t.Derives (Header.renderTile t) := by
  have hlength := length_hexDigits 16 t.bits.toNat
  refine ⟨Text.hexDigits 16 t.bits.toNat, rfl, Nat.le_of_eq hlength,
    Text.numeral_hexadecimal_iff.2 ⟨?_, hexDigit?_of_mem_hexDigits 16 _, ?_⟩⟩
  · rw [← List.length_pos_iff, hlength]
    decide
  · have hlt : t.bits.toNat < 16 ^ 16 := t.bits.toNat_lt
    rw [ofHexDigits_hexDigits, Nat.mod_eq_of_lt hlt]

/-! ## Texts and bytes -/

namespace Text

theorem derivesQuoted_escape (cs : List Char) : DerivesQuoted (cs.flatMap escape) cs := by
  induction cs with
  | nil => exact .nil
  | cons c cs ih =>
      rw [List.flatMap_cons]
      unfold escape
      split
      any_goals exact .escaped (by decide) ih
      next hquote hbackslash _ _ _ => exact .plain hquote hbackslash ih

theorem byteDigits_eq (b : UInt8) :
    Value.byteDigits b = [Nat.digitChar (b.toNat / 16), Nat.digitChar (b.toNat % 16)] := by
  have hlt : b.toNat / 16 % 16 = b.toNat / 16 := by
    have := b.toNat_lt
    omega
  simp [Value.byteDigits, Text.hexDigits, hlt]

theorem derivesBytes_digits (bytes : List UInt8) :
    DerivesBytes (bytes.flatMap Value.byteDigits) bytes := by
  induction bytes with
  | nil => exact .nil
  | cons b bytes ih =>
      have hhigh := hexDigit?_digitChar (b.toNat / 16) (by have := b.toNat_lt; omega)
      have hlow := hexDigit?_digitChar (b.toNat % 16) (Nat.mod_lt _ (by decide))
      have hbyte : UInt8.ofNat (16 * (b.toNat / 16) + b.toNat % 16) = b := by
        rw [Nat.div_add_mod, UInt8.ofNat_toNat]
      have hall := DerivesBytes.cons ((mem_hexadecimalDigits _ _).2 hhigh)
        ((mem_hexadecimalDigits _ _).2 hlow) ih
      rw [hbyte] at hall
      rwa [List.flatMap_cons, byteDigits_eq]

end Text

/-! ## Values -/

namespace Value

mutual

/-- The text of a value derives the value. -/
theorem derives_render : (v : Value) → Derives v.render v
  | .absent => .absent
  | .bool true => .true
  | .bool false => .false
  | .int n => .int (Text.derivesInteger_signedDecimal n.toInt)
  | .text s => by
    have hquoted := Derives.text (Text.derivesQuoted_escape s.toList)
    rwa [String.ofList_toList] at hquoted
  | .data bytes => .data (Text.derivesBytes_digits bytes)
  | .list [] => .empty
  | .list (v :: vs) => .list (derivesAll_renderAll (v :: vs) (List.cons_ne_nil v vs))

theorem derivesAll_renderAll : (vs : List Value) → vs ≠ [] → DerivesAll (renderAll vs) vs
  | [], hne => absurd rfl hne
  | [v], _ => .last (derives_render v)
  | v :: w :: vs, _ =>
    .more (derives_render v) (derivesAll_renderAll (w :: vs) (List.cons_ne_nil w vs))

end

end Value

namespace Reading

variable {fits : Prop}

/-- The decimal text of a number of 63 bits spells it. -/
theorem count_spells (what : String) (n : Nat) :
    Spells (count what) n (Text.decimal n) Open (n < 2 ^ 63) :=
  count_spells_of_derives what (Text.derivesInteger_decimal n)

/-- The decimal text of the number of a zone spells it. -/
theorem zoneNumber_spells (what : String) (n : Nat) :
    Spells (zoneNumber what) n (Text.decimal n) Open (n < 2 ^ 32) :=
  zoneNumber_spells_of_derives what (Text.derivesInteger_decimal n)

/-- The sixteen digits of a tile spell it. -/
theorem tile_spells (t : Tile) : Spells tile t (Header.renderTile t) Open fits :=
  tile_spells_of_derives t.derives_renderTile

theorem begins_render (v : Value) : Begins v.render :=
  begins_of_derives v.derives_render

/-- The text of a value spells the value. -/
theorem value_spells (v : Value) : Spells value v v.render Open fits :=
  value_spells_of_derives v.derives_render

end Reading
end PageTree
