/-!
# Texts

Texts are lists of characters while they are put together or taken apart.  Their size is
counted in bytes of UTF-8, and byte offsets find stretches in them; an offset counts only where a
character begins or where the text ends.

A quoted text stands between two double quotes.  Inside, the quote, the backslash, the line
feed, the carriage return and the tab are written as a backslash and one character; every
other character stands for itself.
-/

namespace PageTree
namespace Text

/-! ## Length -/

/-- The number of bytes that characters take in UTF-8. -/
def byteLength (cs : List Char) : Nat :=
  (cs.map Char.utf8Size).foldr (· + ·) 0

@[simp] theorem byteLength_nil : byteLength [] = 0 := rfl

@[simp] theorem byteLength_cons (c : Char) (cs : List Char) :
    byteLength (c :: cs) = c.utf8Size + byteLength cs := rfl

@[simp] theorem byteLength_append (as bs : List Char) :
    byteLength (as ++ bs) = byteLength as + byteLength bs := by
  induction as with
  | nil => simp
  | cons a as ih => simp [ih, Nat.add_assoc]

@[simp] theorem byteLength_reverse (cs : List Char) : byteLength cs.reverse = byteLength cs := by
  induction cs with
  | nil => rfl
  | cons c cs ih => simp [ih, Nat.add_comm]

/-- Lists of characters with a character between each two. -/
def joinWith (separator : Char) : List (List Char) → List Char
  | [] => []
  | [item] => item
  | item :: items => item ++ separator :: joinWith separator items

/-! ## Stretches -/

/-- The part of a text between two byte offsets, if both of them count and the first is not
after the last. -/
def between? (start stop : Nat) (text : String) : Option String := do
  let first ← text.pos? ⟨start⟩
  let last ← text.pos? ⟨stop⟩
  if start ≤ stop then return String.extract first last else none

/-- An offset that counts is found. -/
theorem pos?_of_isValid {text : String} {p : String.Pos.Raw} (h : p.IsValid text) :
    text.pos? p = some ⟨p, h⟩ := by
  simp only [String.pos?, String.Slice.pos?]
  split
  · rfl
  · simp_all

/-- What lies between two texts is the stretch between their sizes. -/
theorem between?_append (a b c : String) :
    between? a.utf8ByteSize (a.utf8ByteSize + b.utf8ByteSize) (a ++ b ++ c) = some b := by
  have first : String.Pos.Raw.IsValid (a ++ b ++ c) ⟨a.utf8ByteSize⟩ :=
    String.Pos.Raw.isValid_iff_exists_append.2 ⟨a, b ++ c, String.append_assoc .., rfl⟩
  have last : String.Pos.Raw.IsValid (a ++ b ++ c) ⟨a.utf8ByteSize + b.utf8ByteSize⟩ :=
    String.Pos.Raw.isValid_iff_exists_append.2 ⟨a ++ b, c, rfl, by ext; simp⟩
  have tail : (a.toByteArray ++ (b.toByteArray ++ c.toByteArray)).extract
      a.toByteArray.size (a.toByteArray.size + b.toByteArray.size) = b.toByteArray := by
    have h := @ByteArray.extract_append_size_add a.toByteArray (b.toByteArray ++ c.toByteArray)
      0 b.toByteArray.size
    simpa using h.trans (ByteArray.extract_append_eq_left rfl)
  simp only [between?, pos?_of_isValid first, pos?_of_isValid last, Option.bind_some,
    Option.pure_def, Option.bind_eq_bind, Nat.le_add_right, if_true, Option.some.injEq,
    ← String.toByteArray_inj, String.toByteArray_extract, String.toByteArray_append,
    ByteArray.append_assoc]
  simpa using tail

/-! ## Quotes -/

/-- The characters that stand for one character inside quotes. -/
def escape (c : Char) : List Char :=
  match c with
  | '"' => ['\\', '"']
  | '\\' => ['\\', '\\']
  | '\n' => ['\\', 'n']
  | '\r' => ['\\', 'r']
  | '\t' => ['\\', 't']
  | c => [c]

/-- The character that a backslash and `c` stand for. -/
def unescape? (c : Char) : Option Char :=
  match c with
  | '"' => some '"'
  | '\\' => some '\\'
  | 'n' => some '\n'
  | 'r' => some '\r'
  | 't' => some '\t'
  | _ => none

/-- A text between quotes. -/
def quote (cs : List Char) : List Char :=
  '"' :: (cs.flatMap escape ++ ['"'])

end Text
end PageTree
