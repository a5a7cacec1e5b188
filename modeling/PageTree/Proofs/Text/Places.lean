import PageTree.Proofs.Text.Offsets

/-!
# Where steps leave a reader

A run of steps on byte offsets stands where the run on places stands, whatever each step finds
(`TextReader.after_tracks`).  A step that fails stands where it began, unless it is a number with
a prefix, or a value in quotes, in braces or of bytes (`ReadingStep.stays_of_failed`).  So the
offset is the size of the characters read, and what it leaves of the text is the rest
(`TextReader.offsets_between_characters`).
-/

namespace PageTree

/-! ## Every step -/

/-- A step on offsets does what the step on places does. -/
theorem ReadingStep.tracks (step : ReadingStep) (r : TextReader) :
    Reading.Tracks r step.readBytes step.read r := by
  cases step with
  | peek => exact (Reading.peek_tracks (.refl r)).map _
  | bump => exact (Reading.bump_tracks (.refl r)).map _
  | eat c => exact (Reading.eat_tracks c (.refl r)).map _
  | expect c => exact (Reading.expect_tracks c (.refl r)).map _
  | eatText text => exact (Reading.eatText_tracks text (.refl r)).map _
  | expectText text => exact (Reading.expectText_tracks text (.refl r)).map _
  | ident => exact (Reading.ident_tracks (.refl r)).map _
  | integer => exact (Reading.integer_tracks r).map _
  | hexNumber => exact (Reading.hexNumber_tracks r).map _
  | value => exact (Reading.value_tracks r).map _
  | finish => exact (Reading.finish_tracks (.refl r)).map _

/-- The place after some steps, whatever they find. -/
def TextReader.after (r : TextReader) (steps : List ReadingStep) : TextReader :=
  steps.foldl (fun r step => (Reading.exec step.read r).2) r

/-- The offset after some steps, if each of them has a result. -/
def ByteReader.after? (b : ByteReader) (steps : List ReadingStep) : Option ByteReader :=
  steps.foldlM (fun b step => (step.readBytes.exec b).map (·.2)) b

/-- Steps on offsets have results, stand where steps on places stand, and do not go back. -/
theorem TextReader.after_tracks (steps : List ReadingStep) (r : TextReader) :
    r.inBytes.after? steps = some (r.after steps).inBytes ∧ r.Onward (r.after steps) := by
  induction steps generalizing r with
  | nil => exact ⟨rfl, .refl r⟩
  | cons step steps ih =>
      have hstep := step.tracks r
      obtain ⟨hagrees, honward⟩ := ih (Reading.exec step.read r).2
      refine ⟨?_, hstep.onward.trans honward⟩
      rw [ByteReader.after?, List.foldlM_cons, hstep.agrees]
      exact hagrees

/-! ## Places as two texts -/

namespace TextReader

/-- The place behind what has been read, with the rest in front. -/
def between (read rest : String) : TextReader :=
  ⟨read.toList.reverse, rest.toList⟩

theorem inBytes_between (read rest : String) :
    (between read rest).inBytes = ⟨read ++ rest, read.utf8ByteSize⟩ := by
  have hposition := (between read rest).position_eq
  simp only [between, List.reverse_reverse, String.ofList_toList] at hposition
  rw [inBytes, between, hposition]
  simp [input]

/-- Going on moves a text from the rest to what has been read. -/
theorem exists_between (read rest : String) {r : TextReader}
    (honward : (between read rest).Onward r) :
    ∃ more rest', rest = more ++ rest' ∧ r = between (read ++ more) rest' := by
  obtain ⟨text, hrest, hbefore⟩ := honward
  refine ⟨String.ofList text, String.ofList r.rest, ?_, ?_⟩
  · rw [← String.ofList_append, ← hrest, between, String.ofList_toList]
  · obtain ⟨before, rest'⟩ := r
    dsimp only at hbefore
    simp [between, hbefore]

end TextReader

/-! ## Steps that fail -/

theorem TextReader.behind_eq_self {p : Char → Bool} (r : TextReader)
    (hrun : (r.rest.takeWhile p).isEmpty = true) : r.behind p = r := by
  have hrest := List.takeWhile_append_dropWhile (p := p) (l := r.rest)
  rw [List.isEmpty_iff.1 hrun, List.nil_append] at hrest
  rw [behind, List.isEmpty_iff.1 hrun, hrest]
  rfl

namespace Reading

variable {α β : Type} {start r : TextReader} {step : Reading α} {miss : α → Prop}

/-- A step that refuses the text, or gives what counts as a miss, stands at the start. -/
def Stays (start : TextReader) (step : Reading α) (miss : α → Prop) (r : TextReader) : Prop :=
  match exec step r with
  | (.ok a, r') => miss a → r' = start
  | (.error _, r') => r' = start

namespace Stays

protected theorem pure {a : α} (hstart : miss a → r = start) :
    Stays start (pure a : Reading α) miss r :=
  hstart

protected theorem fail (reason : String) (hstart : r = start) :
    Stays start (Reading.fail reason) miss r :=
  hstart

/-- A refusal at the start. -/
theorem back (reason : String) (f : β → Reading α) :
    Stays start (set start >>= fun _ => Reading.fail reason >>= f) miss r :=
  rfl

/-- One step after another. -/
protected theorem bind {f : α → Reading β} {miss' : β → Prop} (hstep : Stays start step miss r)
    (hnext : ∀ a r', (miss a → r' = start) → Stays start (f a) miss' r') :
    Stays start (step >>= f) miss' r := by
  rw [Stays] at hstep ⊢
  rw [exec_bind]
  generalize exec step r = read at hstep
  obtain ⟨_ | a, r'⟩ := read
  · exact hstep
  · exact hnext a r' hstep

/-- A result that is made of what has been read. -/
protected theorem map {f : α → β} {miss' : β → Prop} (hstep : Stays start step miss r)
    (himp : ∀ a, miss' (f a) → miss a) : Stays start (f <$> step) miss' r := by
  rw [map_eq_pure_bind]
  exact hstep.bind fun a r' hstart => .pure fun hmiss => hstart (himp a hmiss)

/-- The place may be looked at. -/
theorem get {f : TextReader → Reading α} (hnext : Stays start (f r) miss r) :
    Stays start (get >>= f) miss r :=
  hnext

theorem peek {f : Option Char → Reading α} (hnext : Stays start (f r.rest.head?) miss r) :
    Stays start (Reading.peek >>= f) miss r :=
  hnext

theorem takeWhile {p : Char → Bool} {f : List Char → Reading α}
    (hnext : Stays start (f (r.rest.takeWhile p)) miss (r.behind p)) :
    Stays start (Reading.takeWhile p >>= f) miss r := by
  rwa [Stays, exec_bind, exec_takeWhile]

end Stays

theorem peek_stays (r : TextReader) : Stays r Reading.peek (fun _ => False) r :=
  False.elim

theorem bump_stays (r : TextReader) : Stays r bump (fun _ => False) r :=
  False.elim

theorem eat_stays (c : Char) (r : TextReader) : Stays r (eat c) (· = false) r := by
  refine .peek ?_
  split
  · exact fun hmiss => absurd hmiss (by decide)
  · exact .pure fun _ => rfl

theorem expect_stays (c : Char) (r : TextReader) : Stays r (expect c) (fun _ => False) r := by
  refine (eat_stays c r).bind fun found r' hstart => ?_
  cases found with
  | true => exact .pure False.elim
  | false => exact .fail _ (hstart rfl)

theorem eatText_stays (text : String) (r : TextReader) :
    Stays r (eatText text) (· = false) r := by
  refine .get ?_
  split
  · exact fun hmiss => absurd hmiss (by decide)
  · exact .pure fun _ => rfl

theorem expectText_stays (text : String) (r : TextReader) :
    Stays r (expectText text) (fun _ => False) r := by
  refine (eatText_stays text r).bind fun found r' hstart => ?_
  cases found with
  | true => exact .pure False.elim
  | false => exact .fail _ (hstart rfl)

theorem ident_stays (r : TextReader) : Stays r ident (fun _ => False) r := by
  refine .takeWhile ?_
  split
  · next hrun => exact .fail _ (r.behind_eq_self hrun)
  · exact .pure False.elim

theorem integer_stays (r : TextReader) : Stays r integer (fun _ => False) r := by
  refine .get ((eat_stays '-' r).bind fun negative r' _ => .takeWhile ?_)
  dsimp only
  generalize (if negative = true then -(Text.ofDecimal (r'.rest.takeWhile Char.isDigit) : Int)
    else (Text.ofDecimal (r'.rest.takeWhile Char.isDigit) : Int)) = n
  split
  · exact .back _ _
  · exact .pure False.elim

theorem literal_stays (r : TextReader) : Stays r literal (fun _ => False) r := by
  refine .get ((ident_stays r).bind fun word r' _ => ?_)
  split
  · exact .pure False.elim
  · exact .pure False.elim
  · exact .pure False.elim
  · exact .back _ pure

theorem finish_stays (r : TextReader) : Stays r finish (fun _ => False) r := by
  refine .get ?_
  split
  · exact .fail _ rfl
  · exact .pure False.elim

/-- A value that begins as a word or an integer does is a word or an integer. -/
theorem value_stays {c : Char} (hnext : c ∈ r.rest.head?)
    (hbegins : (c.isAlphanum || c == '-') = true) : Stays r value (fun _ => False) r := by
  refine .get (.peek ?_)
  rw [hnext]
  dsimp only
  have hother : ∀ d : Char, (d.isAlphanum || d == '-') = false → c ≠ d := by
    rintro d hd rfl
    rw [hd] at hbegins
    cases hbegins
  rw [if_neg (hother '"' (by decide)), if_neg (hother '%' (by decide)),
    if_neg (hother '\x7b' (by decide))]
  split
  · exact (integer_stays r).map fun _ hmiss => hmiss
  · next hnumber =>
      have hletter : c.isAlpha = true := by
        simp only [Char.isAlphanum, Bool.or_eq_true, beq_iff_eq, decide_eq_true_eq, not_or]
          at hbegins hnumber
        tauto
      rw [if_pos hletter]
      exact literal_stays r

end Reading

namespace ReadingStep

/-- The step has refused the text, or has not found what it looks for. -/
def Failed : Except StoreError Finding → Prop
  | .ok (.found it) => it = false
  | .ok _ => False
  | .error _ => True

/-- The steps that move over all they read or over nothing: every step but a number with a prefix
and a value, and of the values the words and the integers. -/
def Whole (rest : List Char) : ReadingStep → Prop
  | hexNumber => False
  | value => ∃ c ∈ rest.head?, (c.isAlphanum || c == '-') = true
  | _ => True

/-- Such a step stands where it began when it fails. -/
theorem stays_of_failed {step : ReadingStep} {r : TextReader} (hwhole : step.Whole r.rest)
    (hfailed : Failed (Reading.exec step.read r).1) : (Reading.exec step.read r).2 = r := by
  have hstays : Reading.Stays r step.read (fun found => Failed (.ok found)) r := by
    cases step with
    | peek => exact (Reading.peek_stays r).map fun _ h => h
    | bump => exact (Reading.bump_stays r).map fun _ h => h
    | eat c => exact (Reading.eat_stays c r).map fun _ h => h
    | expect c => exact (Reading.expect_stays c r).map fun _ h => h
    | eatText text => exact (Reading.eatText_stays text r).map fun _ h => h
    | expectText text => exact (Reading.expectText_stays text r).map fun _ h => h
    | ident => exact (Reading.ident_stays r).map fun _ h => h
    | integer => exact (Reading.integer_stays r).map fun _ h => h
    | hexNumber => exact absurd hwhole id
    | value =>
        obtain ⟨c, hnext, hbegins⟩ := hwhole
        exact (Reading.value_stays hnext hbegins).map fun _ h => h
    | finish => exact (Reading.finish_stays r).map fun _ h => h
  unfold Reading.Stays at hstays
  generalize Reading.exec step.read r = read at hstays hfailed
  obtain ⟨_ | found, r'⟩ := read
  · exact hstays
  · exact hstays hfailed

/-- What a step does where `read` has been read of a text and `rest` is left: it reads `more`. -/
structure Moves (step : ReadingStep) (read rest : String) (outcome : Except StoreError Finding)
    (more rest' : String) : Prop where
  /-- What is left is read on from its beginning. -/
  splits : rest = more ++ rest'
  /-- The step has a result on offsets, and moves over the bytes of what it reads. -/
  onBytes : step.readBytes.exec ⟨read ++ rest, read.utf8ByteSize⟩ =
    some (outcome, ⟨read ++ rest, read.utf8ByteSize + more.utf8ByteSize⟩)
  /-- The step between characters does the same. -/
  onPlaces : Reading.exec step.read (.between read rest) =
    (outcome, .between (read ++ more) rest')
  /-- A step that fails as a whole reads nothing. -/
  stays : step.Whole rest.toList → Failed outcome → more = ""
  /-- A refusal is of the whole text at the offset reached.  If it is of an unknown word, the word
  is still to be read. -/
  refuses : ∀ e, outcome = .error e → ∃ reason,
    e = .malformedValue reason (read ++ rest) (read.utf8ByteSize + more.utf8ByteSize) ∧
      (reason = "unknown literal" → Reading.UnknownWord rest'.toList)

theorem exists_moves (step : ReadingStep) (read rest : String) :
    ∃ outcome more rest', step.Moves read rest outcome more rest' := by
  obtain ⟨hagrees, honward, hrefuses⟩ := step.tracks (.between read rest)
  have hstays := @stays_of_failed step (.between read rest)
  cases hexec : Reading.exec step.read (.between read rest) with
  | mk outcome r =>
      rw [hexec] at hagrees honward hrefuses hstays
      obtain ⟨more, rest', hsplit, hplace⟩ := TextReader.exists_between read rest honward
      dsimp only at hagrees hrefuses hstays hplace
      subst hsplit hplace
      have hoffset : (TextReader.between (read ++ more) rest').inBytes =
          ⟨read ++ (more ++ rest'), read.utf8ByteSize + more.utf8ByteSize⟩ := by
        rw [TextReader.inBytes_between, String.append_assoc, String.utf8ByteSize_append]
      refine ⟨outcome, more, rest', rfl, ?_, hexec, ?_, ?_⟩
      · rw [← TextReader.inBytes_between, hagrees, hoffset]
      · intro hwhole hfailed
        have hstay := congrArg TextReader.rest (hstays hwhole hfailed)
        simpa [TextReader.between] using hstay
      · intro e he
        obtain ⟨reason, rfl, hunknown⟩ := hrefuses e he
        refine ⟨reason, ?_, hunknown⟩
        have herror : (TextReader.between (read ++ more) rest').error reason =
          ((TextReader.between (read ++ more) rest').inBytes).error reason := rfl
        rw [herror, hoffset]
        rfl

end ReadingStep

/-! ## Runs of steps -/

/-- After any steps on any text the byte offset is the size of the characters that have been read,
and cuts off the characters that are left; so it is wherever a further step goes. -/
theorem TextReader.offsets_between_characters (text : String) (steps : List ReadingStep) :
    ∃ read rest : String, text = read ++ rest ∧
      (ByteReader.ofString text).after? steps = some ⟨text, read.utf8ByteSize⟩ ∧
      ByteReader.rest? ⟨text, read.utf8ByteSize⟩ = some rest ∧
      (TextReader.ofString text).after steps = .between read rest ∧
      ∀ step : ReadingStep, ∃ outcome more rest', step.Moves read rest outcome more rest' := by
  have hstart : TextReader.ofString text = .between "" text := rfl
  have hbytes : ByteReader.ofString text = (TextReader.ofString text).inBytes := by
    rw [hstart, TextReader.inBytes_between]
    simp [ByteReader.ofString]
  obtain ⟨hagrees, honward⟩ := TextReader.after_tracks steps (TextReader.ofString text)
  obtain ⟨read, rest, hsplit, hplace⟩ := TextReader.exists_between "" text honward
  rw [String.empty_append] at hplace
  have hcut := TextReader.rest?_inBytes (.between read rest)
  rw [TextReader.inBytes_between, ← hsplit] at hcut
  refine ⟨read, rest, hsplit, ?_, ?_, hplace, fun step => step.exists_moves read rest⟩
  · rw [hbytes, hagrees, hplace, TextReader.inBytes_between, ← hsplit]
  · simpa [TextReader.between] using hcut

end PageTree
