import PageTree.Proofs.Memory
import PageTree.Proofs.Text.Pages

/-!
# Pages in a diff

`Diff.Prints start text base p` says where a page stands in the text of a diff that starts at an
offset of a zone: the page's text ends at `base` and is followed by a newline.  Text that comes
later does not change this, and once the diff is appended to its zone, the page is found there.
-/

namespace PageTree

namespace Text

theorem isValid_of_pos? {text : String} {p : String.Pos.Raw} {q : text.Pos}
    (hpos : text.pos? p = some q) : p.IsValid text := by
  simp only [String.pos?, String.Slice.pos?] at hpos
  split at hpos
  · next hvalid => simpa using hvalid
  · simp at hpos

/-- A stretch of a text lies between what is before it and what is after it. -/
theorem exists_of_between? {start stop : Nat} {text found : String}
    (hfound : between? start stop text = some found) :
    ∃ before after : String, start = before.utf8ByteSize ∧
      stop = before.utf8ByteSize + found.utf8ByteSize ∧ text = before ++ found ++ after := by
  have hfound' := hfound
  simp only [between?, Option.bind_eq_bind, Option.bind_eq_some_iff] at hfound'
  obtain ⟨first, hfirst, last, hlast, hextract⟩ := hfound'
  have hle : start ≤ stop := by
    split at hextract
    · assumption
    · cases hextract
  obtain ⟨a, b, hab, hstart⟩ :=
    String.Pos.Raw.isValid_iff_exists_append.1 (isValid_of_pos? hfirst)
  obtain ⟨c, d, hcd, hstop⟩ :=
    String.Pos.Raw.isValid_iff_exists_append.1 (isValid_of_pos? hlast)
  replace hstart : start = a.utf8ByteSize := congrArg String.Pos.Raw.byteIdx hstart
  replace hstop : stop = c.utf8ByteSize := congrArg String.Pos.Raw.byteIdx hstop
  -- both are prefixes of the text, so the longer one continues the shorter one
  have hmid : ∃ mid : String, c = a ++ mid := by
    have happend : a.toList ++ b.toList = c.toList ++ d.toList := by
      rw [← String.toList_append, ← String.toList_append, ← hab, ← hcd]
    rcases List.append_eq_append_iff.1 happend with ⟨cs, hc, -⟩ | ⟨cs, ha, -⟩
    · exact ⟨String.ofList cs, by rw [← String.toList_inj]; simpa using hc⟩
    · have hsize : a.utf8ByteSize = c.utf8ByteSize + byteLength cs := by
        rw [← utf8ByteSize_ofList, ← String.utf8ByteSize_append]
        congr 1
        rw [← String.toList_inj]
        simpa using ha
      obtain rfl : cs = [] := by
        cases cs with
        | nil => rfl
        | cons x xs =>
            have hpos := x.utf8Size_pos
            rw [byteLength_cons] at hsize
            omega
      exact ⟨"", by rw [← String.toList_inj]; simpa using ha.symm⟩
  obtain ⟨mid, rfl⟩ := hmid
  have hmidFound : between? start stop text = some mid := by
    rw [hcd, hstart, hstop, String.utf8ByteSize_append]
    exact between?_append a mid d
  rw [hfound] at hmidFound
  cases hmidFound
  exact ⟨a, d, hstart, by rw [hstop, String.utf8ByteSize_append], hcd⟩

/-- A stretch of a text is found in whatever the text is continued to. -/
theorem between?_of_append {start stop : Nat} {text found : String} (more : String)
    (hfound : between? start stop text = some found) :
    between? start stop (text ++ more) = some found := by
  obtain ⟨before, after, rfl, rfl, rfl⟩ := exists_of_between? hfound
  rw [String.append_assoc]
  exact between?_append before found (after ++ more)

end Text

/-- The characters of a diff. -/
def DiffWriter.chars (diff : Diff) : List Char :=
  diff.pages.reverse.flatten

theorem DiffWriter.chars_append (diff : Diff) (text : List Char) :
    (diff.append text).chars = diff.chars ++ (text ++ ['\n']) := by
  simp [chars, append, Sink.put]

namespace Diff

/-- A page stands in the text of a diff that starts at an offset, and ends at another. -/
def Prints (start : Nat) (text : List Char) (base : Nat) (p : Page Header) : Prop :=
  ∃ before after, text = before ++ (p.render ++ '\n' :: after) ∧
    base = start + Text.byteLength before + p.size

namespace Prints

variable {start base : Nat} {text : List Char} {p : Page Header}

theorem append (hprints : Prints start text base p) (more : List Char) :
    Prints start (text ++ more) base p := by
  obtain ⟨before, after, rfl, hbase⟩ := hprints
  exact ⟨before, after ++ more, by simp, hbase⟩

theorem of_prefix {text' : List Char} (hprints : Prints start text base p)
    (hhead : text <+: text') : Prints start text' base p := by
  obtain ⟨more, rfl⟩ := hhead
  exact hprints.append more

/-- The page that is appended to a diff stands at its end. -/
theorem last (start : Nat) (text : List Char) (p : Page Header) :
    Prints start (text ++ (p.render ++ ['\n'])) (start + Text.byteLength text + p.size) p :=
  ⟨text, [], rfl, rfl⟩

/-- A page ends inside of the diff. -/
theorem base_lt (hprints : Prints start text base p) :
    start + p.size ≤ base ∧ base < start + Text.byteLength text := by
  obtain ⟨before, after, rfl, rfl⟩ := hprints
  simp only [Text.byteLength_append, Text.byteLength_cons, Page.size]
  have hnewline := Char.utf8Size_pos '\n'
  omega

/-- Once the diff is appended to a zone, the page is found there. -/
theorem between? (hprints : Prints start text base p) {zone : String}
    (hstart : zone.utf8ByteSize = start) :
    Text.between? (base - p.size) base (zone ++ String.ofList text) = some p.toText := by
  obtain ⟨before, after, rfl, rfl⟩ := hprints
  have hsplit : zone ++ String.ofList (before ++ (p.render ++ '\n' :: after)) =
      zone ++ String.ofList before ++ p.toText ++ String.ofList ('\n' :: after) := by
    simp only [Page.toText, String.ofList_append, String.append_assoc]
  have hfound := Text.between?_append (zone ++ String.ofList before) p.toText
    (String.ofList ('\n' :: after))
  rw [hsplit]
  have hsize : p.toText.utf8ByteSize = p.size := Text.utf8ByteSize_ofList p.render
  rw [String.utf8ByteSize_append, Text.utf8ByteSize_ofList, hsize, hstart] at hfound
  rw [Nat.add_sub_cancel]
  exact hfound

end Prints
end Diff

theorem Page.size_pos (p : Page Header) : 0 < p.size := by
  have hat := Char.utf8Size_pos '@'
  simp only [Page.size, Page.render, Text.byteLength_cons]
  omega

end PageTree
