import PageTree.Proofs.Text.Acceptance
import PageTree.Proofs.Text.ByteReader

/-!
# Byte offsets stay between characters

A step on byte offsets has a result, does what the step on places between characters does, and
stands where that one stands (`Reading.Tracks`).  The judgment is closed under the ways in which
steps are put together, and there is one lemma for each step up to `Reading.value_tracks`.  What
takes one byte for a character has to read ASCII only; what puts the offset back has to put it
where a step began.
-/

namespace PageTree

namespace Text

theorem byteLength_eq_zero_iff (cs : List Char) : byteLength cs = 0 ↔ cs.isEmpty = true := by
  cases cs with
  | nil => simp
  | cons c cs =>
      have hpos := c.utf8Size_pos
      simp only [byteLength_cons, List.isEmpty_cons, Bool.false_eq_true, iff_false]
      omega

theorem byteLength_eq_length {cs : List Char} (hall : ∀ c ∈ cs, c.utf8Size = 1) :
    byteLength cs = cs.length := by
  induction cs with
  | nil => rfl
  | cons c cs ih =>
      rw [byteLength_cons, hall c List.mem_cons_self,
        ih fun c hc => hall c (List.mem_cons_of_mem _ hc), List.length_cons, Nat.add_comm]

end Text

/-! ## Places and offsets -/

namespace TextReader

/-- The byte offset of a place. -/
def inBytes (r : TextReader) : ByteReader :=
  ⟨r.input, r.position⟩

/-- Some characters have been read from the first place to the second. -/
def Onward (r r' : TextReader) : Prop :=
  ∃ text, r.rest = text ++ r'.rest ∧ r'.before = text.reverse ++ r.before

namespace Onward

variable {r r' r'' : TextReader}

protected theorem refl (r : TextReader) : r.Onward r :=
  ⟨[], rfl, rfl⟩

protected theorem trans (h : r.Onward r') (h' : r'.Onward r'') : r.Onward r'' := by
  obtain ⟨text, hrest, hbefore⟩ := h
  obtain ⟨text', hrest', hbefore'⟩ := h'
  refine ⟨text ++ text', ?_, ?_⟩
  · rw [hrest, hrest', List.append_assoc]
  · rw [hbefore', hbefore, List.reverse_append, List.append_assoc]

theorem advance (r : TextReader) (n : Nat) : r.Onward (r.advance n) :=
  ⟨r.rest.take n, (List.take_append_drop n r.rest).symm, rfl⟩

theorem input_eq (h : r.Onward r') : r'.input = r.input := by
  obtain ⟨text, hrest, hbefore⟩ := h
  simp [input, hrest, hbefore]

theorem length_le (h : r.Onward r') : r'.rest.length ≤ r.rest.length := by
  obtain ⟨text, hrest, -⟩ := h
  simp [hrest]

end Onward

/-- Behind the run of characters of a class. -/
def behind (r : TextReader) (p : Char → Bool) : TextReader :=
  ⟨(r.rest.takeWhile p).reverse ++ r.before, r.rest.dropWhile p⟩

theorem onward_behind (r : TextReader) (p : Char → Bool) : r.Onward (r.behind p) :=
  ⟨r.rest.takeWhile p, List.takeWhile_append_dropWhile.symm, rfl⟩

theorem position_behind_eq_iff (r : TextReader) (p : Char → Bool) :
    (r.behind p).position = r.position ↔ (r.rest.takeWhile p).isEmpty = true := by
  have hzero := Text.byteLength_eq_zero_iff (r.rest.takeWhile p).reverse
  rw [List.isEmpty_reverse] at hzero
  rw [← hzero, position, position, behind, Text.byteLength_append]
  omega

theorem position_eq (r : TextReader) :
    r.position = (String.ofList r.before.reverse).utf8ByteSize := by
  simp [position, Text.utf8ByteSize_ofList]

/-- The characters between two places are cut out between their offsets. -/
theorem between?_of_onward {r r' : TextReader} {text : List Char} (hrest : r.rest = text ++ r'.rest)
    (hbefore : r'.before = text.reverse ++ r.before) :
    Text.between? r.position r'.position r.input = some (String.ofList text) := by
  have hcut := Text.between?_append (String.ofList r.before.reverse) (String.ofList text)
    (String.ofList r'.rest)
  have hstop : r'.position =
      (String.ofList r.before.reverse).utf8ByteSize + (String.ofList text).utf8ByteSize := by
    rw [position_eq, hbefore]
    simp
  have hinput : r.input =
      String.ofList r.before.reverse ++ String.ofList text ++ String.ofList r'.rest := by
    simp [input, hrest, String.append_assoc]
  rwa [position_eq, hstop, hinput]

theorem rest?_inBytes (r : TextReader) : r.inBytes.rest? = some (String.ofList r.rest) := by
  have hend : (⟨r.rest.reverse ++ r.before, []⟩ : TextReader).position = r.input.utf8ByteSize := by
    rw [position_eq, input]
    simp
  have hrest : r.rest = r.rest ++ (⟨r.rest.reverse ++ r.before, []⟩ : TextReader).rest :=
    (List.append_nil r.rest).symm
  have hcut := between?_of_onward hrest rfl
  rwa [hend] at hcut

theorem size_input (r : TextReader) :
    r.input.utf8ByteSize = r.position + Text.byteLength r.rest := by
  rw [input, position_eq, String.ofList_append, String.utf8ByteSize_append,
    Text.utf8ByteSize_ofList r.rest]

theorem isDone_inBytes (r : TextReader) : r.inBytes.isDone = r.isDone := by
  rw [ByteReader.isDone, inBytes, size_input, isDone, Bool.eq_iff_iff,
    ← Text.byteLength_eq_zero_iff, decide_eq_true_eq]
  dsimp only
  omega

/-- A loop that moves on in each round does not use up its rounds. -/
theorem length_lt_rounds (r : TextReader) : r.rest.length < r.inBytes.rounds := by
  have hlength := Text.length_le_byteLength r.rest
  rw [ByteReader.rounds, inBytes, size_input]
  omega

/-- Moving over characters adds their bytes to the offset. -/
theorem inBytes_advance {r : TextReader} (text : List Char) {rest : List Char}
    (hrest : r.rest = text ++ rest) :
    (r.advance text.length).inBytes = r.inBytes.advance (Text.byteLength text) := by
  have hposition : (r.advance text.length).position = r.position + Text.byteLength text := by
    rw [position, advance, hrest, List.take_left, Text.byteLength_append, Nat.add_comm]
    simp [position]
  rw [inBytes, input_advance, hposition]
  rfl

end TextReader

/-! ## Running a step on offsets -/

namespace ByteReading

variable {α β : Type}

/-- The outcome of a step and the offset it has reached, if it has a result. -/
def exec (step : ByteReading α) (b : ByteReader) : Option (Except StoreError α × ByteReader) :=
  step.run.run b

@[simp] theorem exec_pure (a : α) (b : ByteReader) :
    exec (pure a : ByteReading α) b = some (.ok a, b) :=
  rfl

theorem exec_bind (step : ByteReading α) (f : α → ByteReading β) (b : ByteReader) :
    exec (step >>= f) b = (exec step b).bind fun
      | (.ok a, b') => exec (f a) b'
      | (.error e, b') => some (.error e, b') := by
  simp only [exec, ExceptT.run_bind, StateT.run_bind]
  cases (step.run.run b : Option (Except StoreError α × ByteReader)) with
  | none => rfl
  | some outcome =>
      obtain ⟨_ | _, b'⟩ := outcome <;> rfl

@[simp] theorem exec_get (b : ByteReader) :
    exec (get : ByteReading ByteReader) b = some (.ok b, b) :=
  rfl

@[simp] theorem exec_modify (f : ByteReader → ByteReader) (b : ByteReader) :
    exec (modify f : ByteReading Unit) b = some (.ok (), f b) :=
  rfl

theorem exec_rest (b : ByteReader) : exec rest b = b.rest?.map fun text => (.ok text, b) := by
  cases h : b.rest? <;> simp [rest, exec_bind, h] <;> rfl

theorem exec_since (start : Nat) (b : ByteReader) :
    exec (since start) b =
      (Text.between? start b.offset b.input).map fun text => (.ok text, b) := by
  cases h : Text.between? start b.offset b.input <;> simp [since, exec_bind, h] <;> rfl

end ByteReading

/-! ## Steps that keep together -/

namespace Reading

variable {α β : Type} {start r r' : TextReader} {step : Reading α} {bytes : ByteReading α}

/-- The text begins with a word that begins with a letter and is no value. -/
def UnknownWord (rest : List Char) : Prop :=
  (∃ c ∈ rest.head?, c.isAlpha = true) ∧
    String.ofList (rest.takeWhile isIdentChar) ∉ ["absent", "true", "false"]

/-- From a place behind a start, the step on offsets has the outcome of the step on places and
stands where that one stands, which is behind the start still.  A refusal is of the place that has
been reached, and one of an unknown word is made in front of the word. -/
structure Tracks (start : TextReader) (bytes : ByteReading α) (step : Reading α)
    (r : TextReader) : Prop where
  agrees : bytes.exec r.inBytes = some ((exec step r).1, (exec step r).2.inBytes)
  onward : start.Onward (exec step r).2
  refuses : ∀ e, (exec step r).1 = .error e → ∃ reason, e = (exec step r).2.error reason ∧
    (reason = "unknown literal" → UnknownWord (exec step r).2.rest)

namespace Tracks

/-- A step that reads a value. -/
theorem of_ok (a : α) (honward : start.Onward r') (hexec : exec step r = (.ok a, r'))
    (hbytes : bytes.exec r.inBytes = some (.ok a, r'.inBytes)) : Tracks start bytes step r := by
  refine ⟨?_, ?_, ?_⟩ <;> rw [hexec]
  · exact hbytes
  · exact honward
  · rintro e ⟨⟩

/-- A step that refuses the text. -/
theorem of_error (reason : String) (honward : start.Onward r')
    (hexec : exec step r = (.error (r'.error reason), r'))
    (hbytes : bytes.exec r.inBytes = some (.error (r'.error reason), r'.inBytes))
    (hunknown : reason = "unknown literal" → UnknownWord r'.rest) : Tracks start bytes step r := by
  refine ⟨?_, ?_, ?_⟩ <;> rw [hexec]
  · exact hbytes
  · exact honward
  · rintro e ⟨⟩
    exact ⟨reason, rfl, hunknown⟩

/-- The start may be an earlier one. -/
theorem trans (honward : start.Onward r) (hstep : Tracks r bytes step r) :
    Tracks start bytes step r :=
  ⟨hstep.agrees, honward.trans hstep.onward, hstep.refuses⟩

protected theorem pure (a : α) (honward : start.Onward r) :
    Tracks start (pure a : ByteReading α) (pure a : Reading α) r :=
  of_ok a honward rfl rfl

/-- A refusal where the reader stands. -/
protected theorem fail {reason : String} (honward : start.Onward r)
    (hknown : reason ≠ "unknown literal") :
    Tracks start (ByteReading.fail reason : ByteReading α) (fail reason) r :=
  of_error reason honward rfl rfl fun h => absurd h hknown

/-- A refusal at the start. -/
theorem back (reason : String) (honward : start.Onward r)
    (hunknown : reason = "unknown literal" → UnknownWord start.rest) :
    Tracks start (modify (·.moveTo start.inBytes.offset) >>= fun _ => ByteReading.fail reason :
      ByteReading α) (set start >>= fun _ => fail reason) r := by
  have hplace : r.inBytes.moveTo start.inBytes.offset = start.inBytes := by
    rw [TextReader.inBytes, honward.input_eq]
    rfl
  refine of_error reason (.refl start) rfl ?_ hunknown
  rw [ByteReading.exec_bind, ByteReading.exec_modify, hplace]
  rfl

/-- Steps from a place may be told by steps from a place behind it. -/
theorem along {bytes' : ByteReading α} {step' : Reading α} (honward : r.Onward r')
    (hbytes : bytes.exec r.inBytes = bytes'.exec r'.inBytes) (hexec : exec step r = exec step' r')
    (hstep : Tracks r' bytes' step' r') : Tracks r bytes step r := by
  refine ⟨?_, ?_, ?_⟩ <;> rw [hexec]
  · rw [hbytes, hstep.agrees]
  · exact honward.trans hstep.onward
  · exact hstep.refuses

/-- One step after another. -/
protected theorem bind {f : α → ByteReading β} {g : α → Reading β}
    (hstep : Tracks start bytes step r)
    (hnext : ∀ a r', exec step r = (.ok a, r') → start.Onward r' → Tracks start (f a) (g a) r') :
    Tracks start (bytes >>= f) (step >>= g) r := by
  obtain ⟨hagrees, honward, hrefuses⟩ := hstep
  cases hexec : exec step r with
  | mk outcome r' =>
      rw [hexec] at hagrees honward hrefuses
      dsimp only at hagrees honward hrefuses
      cases outcome with
      | error e =>
          obtain ⟨reason, rfl, hunknown⟩ := hrefuses e rfl
          exact of_error reason honward (by rw [exec_bind, hexec])
            (by rw [ByteReading.exec_bind, hagrees]; rfl) hunknown
      | ok a =>
          have hwhole : exec (step >>= g) r = exec (g a) r' := by rw [exec_bind, hexec]
          obtain ⟨hagrees', honward', hrefuses'⟩ := hnext a r' hexec honward
          refine ⟨?_, ?_, ?_⟩ <;> rw [hwhole]
          · rw [ByteReading.exec_bind, hagrees]
            exact hagrees'
          · exact honward'
          · exact hrefuses'

/-- A result that is made of what has been read. -/
protected theorem map (f : α → β) (hstep : Tracks start bytes step r) :
    Tracks start (f <$> bytes) (f <$> step) r := by
  rw [map_eq_pure_bind, map_eq_pure_bind]
  exact hstep.bind fun a r' _ honward => .pure (f a) honward

/-- The place may be looked at. -/
theorem get {f : ByteReader → ByteReading α} {g : TextReader → Reading α}
    (hnext : Tracks start (f r.inBytes) (g r) r) : Tracks start (get >>= f) (get >>= g) r :=
  ⟨hnext.agrees, hnext.onward, hnext.refuses⟩

/-- The offset may be looked at. -/
theorem getBytes {f : ByteReader → ByteReading α} (hnext : Tracks start (f r.inBytes) step r) :
    Tracks start (MonadState.get >>= f) step r :=
  ⟨hnext.agrees, hnext.onward, hnext.refuses⟩

end Tracks

/-! ## Single characters and words -/

theorem exec_bytePeek (r : TextReader) :
    ByteReading.peek.exec r.inBytes = some (.ok r.rest.head?, r.inBytes) := by
  rw [ByteReading.peek, ByteReading.exec_bind, ByteReading.exec_rest, r.rest?_inBytes]
  simp

theorem peek_tracks (honward : start.Onward r) : Tracks start ByteReading.peek peek r :=
  .of_ok _ honward (exec_peek r) (exec_bytePeek r)

/-- The next character may be looked at. -/
theorem Tracks.peek {f : Option Char → ByteReading α} {g : Option Char → Reading α}
    (hnext : Tracks start (f r.rest.head?) (g r.rest.head?) r) :
    Tracks start (ByteReading.peek >>= f) (Reading.peek >>= g) r := by
  refine ⟨?_, hnext.onward, hnext.refuses⟩
  rw [ByteReading.exec_bind, exec_bytePeek]
  exact hnext.agrees

/-- Consuming the next character adds its bytes. -/
theorem inBytes_advance_one {c : Char} {cs : List Char} (hrest : r.rest = c :: cs) :
    (r.advance 1).inBytes = r.inBytes.advance c.utf8Size := by
  have hmove := TextReader.inBytes_advance [c] hrest
  simpa using hmove

theorem bump_tracks (honward : start.Onward r) : Tracks start ByteReading.bump bump r := by
  refine .peek (.of_ok r.rest.head? (honward.trans (.advance r 1)) rfl ?_)
  obtain ⟨before, rest⟩ := r
  cases rest with
  | nil => rfl
  | cons c cs =>
      rw [inBytes_advance_one rfl]
      rfl

theorem eat_tracks (c : Char) (honward : start.Onward r) :
    Tracks start (ByteReading.eat c) (eat c) r := by
  refine .peek ?_
  split
  · next hnext =>
      obtain ⟨cs, hrest⟩ := List.head?_eq_some_iff.1 hnext
      refine .of_ok true (honward.trans (.advance r 1)) rfl ?_
      rw [inBytes_advance_one hrest]
      rfl
  · exact .pure false honward

theorem ne_unknown {reason : String} (hhead : reason.toList.head? = some 'e') :
    reason ≠ "unknown literal" := by
  rintro rfl
  exact absurd hhead (by decide)

theorem expect_tracks (c : Char) (honward : start.Onward r) :
    Tracks start (ByteReading.expect c) (expect c) r := by
  refine (eat_tracks c honward).bind fun found r' _ honward' => ?_
  cases found with
  | true => exact .pure () honward'
  | false => exact .fail honward' (ne_unknown (by simp))

theorem eatText_tracks (text : String) (honward : start.Onward r) :
    Tracks start (ByteReading.eatText text) (eatText text) r := by
  have hrest : ByteReading.rest.exec r.inBytes = some (.ok (String.ofList r.rest), r.inBytes) := by
    rw [ByteReading.exec_rest, r.rest?_inBytes]
    rfl
  cases hnext : text.toList.isPrefixOf r.rest with
  | true =>
      obtain ⟨cs, hcs⟩ := List.isPrefixOf_iff_prefix.1 hnext
      have hmove := TextReader.inBytes_advance text.toList hcs.symm
      rw [← Text.utf8ByteSize_ofList, String.ofList_toList, String.length_toList] at hmove
      refine .of_ok true (honward.trans (.advance r text.length)) ?_ ?_
      · simp only [eatText, exec_bind, exec_get, hnext, if_true, exec_modify, exec_pure]
      · simp only [ByteReading.eatText, ByteReading.exec_bind, hrest, Option.bind_some,
          String.toList_ofList, hnext, if_true, ByteReading.exec_modify, ByteReading.exec_pure,
          hmove]
  | false =>
      refine .of_ok false honward ?_ ?_
      · simp only [eatText, exec_bind, exec_get, hnext, Bool.false_eq_true, if_false, exec_pure]
      · simp only [ByteReading.eatText, ByteReading.exec_bind, hrest, Option.bind_some,
          String.toList_ofList, hnext, Bool.false_eq_true, if_false, ByteReading.exec_pure]

theorem expectText_tracks (text : String) (honward : start.Onward r) :
    Tracks start (ByteReading.expectText text) (expectText text) r := by
  refine (eatText_tracks text honward).bind fun found r' _ honward' => ?_
  cases found with
  | true => exact .pure () honward'
  | false => exact .fail honward' (ne_unknown (by simp))

theorem finish_tracks (honward : start.Onward r) : Tracks start ByteReading.finish finish r := by
  refine .get ?_
  rw [r.isDone_inBytes]
  split
  · exact .fail honward (by decide)
  · exact .pure () honward

/-! ## Runs of characters -/

/-- One byte a character moves over a run, where the characters of the class take one byte. -/
theorem exec_skipWithin {p : Char → Bool} (hp : ∀ c, p c = true → c.utf8Size = 1)
    (before rest : List Char) {rounds : Nat} (hrounds : rest.length < rounds) :
    (ByteReading.skipWithin p rounds).exec (TextReader.inBytes ⟨before, rest⟩) =
      some (.ok (), (TextReader.behind ⟨before, rest⟩ p).inBytes) := by
  induction rounds generalizing before rest with
  | zero => exact absurd hrounds (Nat.not_lt_zero _)
  | succ rounds ih =>
      rw [ByteReading.skipWithin, ByteReading.exec_bind, exec_bytePeek]
      cases rest with
      | nil => rfl
      | cons c cs =>
          by_cases hc : p c = true
          · have hmove := inBytes_advance_one (r := ⟨before, c :: cs⟩) rfl
            rw [hp c hc] at hmove
            have hnext := ih (c :: before) cs (Nat.lt_of_succ_lt_succ hrounds)
            simp only [Option.bind_some, List.head?_cons, hc, if_true, ByteReading.exec_bind,
              ByteReading.exec_modify, ← hmove]
            simpa [TextReader.advance, TextReader.behind, hc] using hnext
          · simp [TextReader.behind, hc]

namespace Tracks

/-- A run of characters of one byte each is moved over, or taken. -/
theorem run {p : Char → Bool} {f : Unit → ByteReading α} {g : List Char → Reading α}
    (hp : ∀ c, p c = true → c.utf8Size = 1)
    (hnext : Tracks start (f ()) (g (r.rest.takeWhile p)) (r.behind p)) :
    Tracks start (ByteReading.skipWhile p >>= f) (takeWhile p >>= g) r := by
  have hstep : exec (takeWhile p >>= g) r = exec (g (r.rest.takeWhile p)) (r.behind p) := by
    rw [exec_bind, exec_takeWhile]
    rfl
  refine ⟨?_, ?_, ?_⟩ <;> rw [hstep]
  · have hskip : (ByteReading.skipWhile p).exec r.inBytes = some (.ok (), (r.behind p).inBytes) :=
      exec_skipWithin hp r.before r.rest r.length_lt_rounds
    rw [ByteReading.exec_bind, hskip]
    exact hnext.agrees
  · exact hnext.onward
  · exact hnext.refuses

/-- What has been read since a place may be cut out. -/
theorem since (text : List Char) {place : TextReader} {f : String → ByteReading α}
    (hrest : place.rest = text ++ r.rest) (hbefore : r.before = text.reverse ++ place.before)
    (hnext : Tracks start (f (String.ofList text)) step r) :
    Tracks start (ByteReading.since place.inBytes.offset >>= f) step r := by
  have honward : place.Onward r := ⟨text, hrest, hbefore⟩
  have hcut : Text.between? place.inBytes.offset r.inBytes.offset r.inBytes.input =
      some (String.ofList text) := by
    have hcut := TextReader.between?_of_onward hrest hbefore
    rwa [← honward.input_eq] at hcut
  refine ⟨?_, hnext.onward, hnext.refuses⟩
  rw [ByteReading.exec_bind, ByteReading.exec_since, hcut]
  exact hnext.agrees

end Tracks

theorem utf8Size_of_toNat_lt {c : Char} (hascii : c.toNat < 128) : c.utf8Size = 1 :=
  Char.utf8Size_eq_one_iff.2 (UInt32.le_iff_toNat_le.2 (Nat.le_of_lt_succ hascii))

theorem utf8Size_of_isIdentChar {c : Char} (hident : isIdentChar c = true) : c.utf8Size = 1 := by
  refine utf8Size_of_toNat_lt ?_
  unfold isIdentChar Char.isAlphanum Char.isAlpha Char.isUpper Char.isLower Char.isDigit at hident
  simp only [Bool.or_eq_true, Bool.and_eq_true, decide_eq_true_eq, beq_iff_eq, ge_iff_le,
    UInt32.le_iff_toNat_le] at hident
  rcases hident with ((hupper | hlower) | hdigit) | rfl
  · exact Nat.lt_of_le_of_lt hupper.2 (by decide)
  · exact Nat.lt_of_le_of_lt hlower.2 (by decide)
  · exact Nat.lt_of_le_of_lt hdigit.2 (by decide)
  · decide

theorem utf8Size_of_isDigit {c : Char} (hdigit : c.isDigit = true) : c.utf8Size = 1 :=
  utf8Size_of_isIdentChar (isIdentChar_of_isDigit hdigit)

theorem utf8Size_of_hexDigit? {c : Char} (hhex : (Text.hexDigit? c).isSome = true) :
    c.utf8Size = 1 :=
  utf8Size_of_isIdentChar (isIdentChar_of_hexDigit? hhex)

/-! ## Words -/

theorem ident_tracks (honward : start.Onward r) : Tracks start ByteReading.ident ident r := by
  refine .getBytes (.run (fun _ => utf8Size_of_isIdentChar) (.getBytes ?_))
  have hbehind := honward.trans (r.onward_behind isIdentChar)
  -- the offset has not moved just where there is no identifier
  have hmoved : (r.behind isIdentChar).inBytes.offset = r.inBytes.offset ↔
      (r.rest.takeWhile isIdentChar).isEmpty = true := r.position_behind_eq_iff isIdentChar
  cases hrun : (r.rest.takeWhile isIdentChar).isEmpty with
  | true =>
      rw [if_pos (hmoved.2 hrun), if_pos rfl]
      exact .fail hbehind (by decide)
  | false =>
      rw [if_neg (by rw [hmoved, hrun]; decide), if_neg (by decide)]
      rw [← bind_pure (ByteReading.since r.inBytes.offset)]
      exact .since (r.rest.takeWhile isIdentChar) List.takeWhile_append_dropWhile.symm rfl
        (.pure _ hbehind)

theorem exec_ident_ok {word : String} (hexec : exec ident r = (.ok word, r')) :
    word = String.ofList (r.rest.takeWhile isIdentChar) := by
  rw [ident, exec_bind, exec_takeWhile] at hexec
  dsimp only at hexec
  split at hexec <;> cases hexec
  rfl

/-- A word that begins with a letter is a value, or is not consumed. -/
theorem literal_tracks (hletter : ∃ c ∈ r.rest.head?, c.isAlpha = true) :
    Tracks r ByteReading.literal literal r := by
  refine .get ((ident_tracks (.refl r)).bind fun word r' hexec honward => ?_)
  have hword := exec_ident_ok hexec
  split
  · next habsent =>
      rw [habsent]
      exact .pure _ honward
  split
  · next htrue =>
      rw [htrue]
      exact .pure _ honward
  split
  · next hfalse =>
      rw [hfalse]
      exact .pure _ honward
  · next habsent htrue hfalse =>
      have hunknown : UnknownWord r.rest := by
        refine ⟨hletter, ?_⟩
        rw [← hword]
        simp only [List.mem_cons, List.not_mem_nil, or_false, not_or]
        exact ⟨habsent, htrue, hfalse⟩
      split
      · exact absurd rfl habsent
      · exact absurd rfl htrue
      · exact absurd rfl hfalse
      · exact .back _ honward fun _ => hunknown

/-! ## Numbers -/

theorem exec_eat {c : Char} {found : Bool} (hexec : exec (eat c) r = (.ok found, r')) :
    r.rest = (if found then [c] else []) ++ r'.rest ∧
      r'.before = (if found then [c] else []).reverse ++ r.before := by
  have hread := eat_reads c r
  rw [ReadsAt, hexec] at hread
  obtain ⟨text, hrest, hbefore, rfl⟩ := hread
  exact ⟨hrest, hbefore⟩

/-- The integer that digits behind a sign spell is the one that is read. -/
theorem int64?_sign (negative : Bool) {digits : List Char}
    (hall : ∀ c ∈ digits, c.isDigit = true) :
    Text.int64? (sign negative ++ digits) =
      let n : Int := if negative then -Text.ofDecimal digits else Text.ofDecimal digits
      if digits.isEmpty || n < -2 ^ 63 || 2 ^ 63 ≤ n then none else some (Int64.ofInt n) := by
  have hdigits : digits.all Char.isDigit = true := List.all_eq_true.2 hall
  cases negative with
  | true => simp [Text.int64?, sign, hdigits]
  | false =>
      have hhead : digits.head? ≠ some '-' := by
        intro hhead
        exact absurd (hall '-' (List.mem_of_mem_head? hhead)) (by decide)
      simp [Text.int64?, sign, hdigits, hhead]

theorem integer_tracks (r : TextReader) : Tracks r ByteReading.integer integer r := by
  refine .get ((eat_tracks '-' (.refl r)).bind fun negative r' hexec honward => ?_)
  refine .run (fun _ => utf8Size_of_isDigit) ?_
  obtain ⟨hrest, hbefore⟩ := exec_eat hexec
  have hbehind := honward.trans (r'.onward_behind Char.isDigit)
  have hall := List.all_eq_true.1 (List.all_takeWhile (p := Char.isDigit) (l := r'.rest))
  refine .since (sign negative ++ r'.rest.takeWhile Char.isDigit) ?_ ?_ ?_
  · rw [hrest, List.append_assoc, TextReader.behind, List.takeWhile_append_dropWhile]
    rfl
  · rw [List.reverse_append, List.append_assoc, TextReader.behind, hbefore]
    rfl
  rw [String.toList_ofList, int64?_sign negative hall]
  dsimp only
  generalize r'.rest.takeWhile Char.isDigit = digits
  generalize (if negative = true then -(Text.ofDecimal digits : Int)
    else (Text.ofDecimal digits : Int)) = n
  rw [Bool.or_assoc, Bool.or_assoc, fits_int64, Bool.decide_or]
  cases digits.isEmpty || (decide (n < -2 ^ 63) || decide (2 ^ 63 ≤ n)) with
  | true => exact .back "expected integer" hbehind fun h => absurd h (by decide)
  | false => exact .pure _ hbehind

theorem hex64?_of_all {digits : List Char} (hne : digits ≠ [])
    (hall : ∀ c ∈ digits, (Text.hexDigit? c).isSome = true) (hlength : digits.length ≤ 16) :
    Text.hex64? digits = some (UInt64.ofNat (Text.ofHexDigits digits)) := by
  have hnumeral := Text.numeral_hexadecimal_iff.2 ⟨hne, hall, rfl⟩
  have hpow : 16 ^ digits.length ≤ 16 ^ 16 := Nat.pow_le_pow_right (by decide) hlength
  have hfits : Text.ofHexDigits digits < 2 ^ 64 := by
    have hlt := hnumeral.lt_pow
    omega
  simpa [Text.hex64?, hne, List.all_eq_true.2 hall] using hfits

theorem hexNumber_tracks (r : TextReader) : Tracks r ByteReading.hexNumber hexNumber r := by
  refine (expectText_tracks "0x" (.refl r)).bind fun _ r' _ honward => .trans honward ?_
  refine .get (.run (fun _ => utf8Size_of_hexDigit?) (.since
    (r'.rest.takeWhile fun c => (Text.hexDigit? c).isSome)
    List.takeWhile_append_dropWhile.symm rfl ?_))
  have hbehind := r'.onward_behind fun c => (Text.hexDigit? c).isSome
  have hall := List.all_eq_true.1
    (List.all_takeWhile (p := fun c => (Text.hexDigit? c).isSome) (l := r'.rest))
  generalize (r'.rest.takeWhile fun c => (Text.hexDigit? c).isSome) = digits at hall
  -- a digit takes one byte, so sixteen bytes are sixteen digits
  have hsize : (String.ofList digits).utf8ByteSize = digits.length := by
    rw [Text.utf8ByteSize_ofList, 
      Text.byteLength_eq_length fun c hc => utf8Size_of_hexDigit? (hall c hc)]
  have hempty : (String.ofList digits).isEmpty = digits.isEmpty := by
    rw [Bool.eq_iff_iff]
    simp
  rw [hsize, hempty, String.toList_ofList]
  cases hbad : digits.isEmpty || decide (16 < digits.length) with
  | true => exact .back "expected 1 to 16 hex digits" hbehind fun h => absurd h (by decide)
  | false =>
      simp only [Bool.or_eq_false_iff, List.isEmpty_eq_false_iff, decide_eq_false_iff_not,
        Nat.not_lt] at hbad
      rw [hex64?_of_all hbad.1 hall hbad.2]
      exact .pure _ hbehind

/-! ## Texts and bytes -/

/-- A scanner that goes on behind some characters as it does from there. -/
theorem exec_scan_append {scanner : List Char → Except String α × Nat} {f : α → α}
    {outcome : Except String α} {moved : Nat} (text : List Char) {rest : List Char}
    (hrest : scanner rest = (outcome, moved))
    (hwhole : scanner (text ++ rest) = (outcome.map f, moved + text.length))
    (before : List Char) :
    exec (scan scanner) ⟨before, text ++ rest⟩ =
      exec (f <$> scan scanner) ⟨text.reverse ++ before, rest⟩ := by
  have hadvance : TextReader.advance ⟨before, text ++ rest⟩ (moved + text.length) =
      TextReader.advance ⟨text.reverse ++ before, rest⟩ moved := by
    simp [TextReader.advance, List.take_append, List.drop_append, List.take_of_length_le]
  rw [map_eq_pure_bind, exec_bind]
  simp only [scan, exec_bind, exec_get, hrest, hwhole, exec_modify, hadvance]
  cases outcome <;> rfl

theorem exec_byteBump (before : List Char) (c : Char) (cs : List Char) :
    ByteReading.bump.exec (TextReader.inBytes ⟨before, c :: cs⟩) =
      some (.ok (some c), TextReader.inBytes ⟨c :: before, cs⟩) :=
  (bump_tracks (.refl ⟨before, c :: cs⟩)).agrees

/-- The loop behind a character of a quoted text. -/
theorem exec_untilQuote (rounds : Nat) (before : List Char) (c : Char) (cs : List Char) :
    (ByteReading.untilQuote (rounds + 1)).exec (TextReader.inBytes ⟨before, c :: cs⟩) =
      ByteReading.exec (if c = '"' then return [] else if c = '\\' then do
        match (← ByteReading.bump).bind Text.unescape? with
        | none => ByteReading.fail "invalid escape"
        | some d => return d :: (← ByteReading.untilQuote rounds)
      else do return c :: (← ByteReading.untilQuote rounds))
        (TextReader.inBytes ⟨c :: before, cs⟩) := by
  rw [ByteReading.untilQuote, ByteReading.exec_bind, exec_byteBump]
  rfl

theorem untilQuote_tracks (before cs : List Char) {rounds : Nat} (hrounds : cs.length < rounds) :
    Tracks ⟨before, cs⟩ (ByteReading.untilQuote rounds) (scan scanQuoted) ⟨before, cs⟩ := by
  obtain ⟨rounds, rfl⟩ := Nat.exists_eq_succ_of_ne_zero (Nat.ne_zero_of_lt hrounds)
  fun_induction scanQuoted cs generalizing before rounds with
  | case1 =>
      refine .of_error "unterminated string" (.refl _) rfl ?_ fun h => absurd h (by decide)
      rw [ByteReading.untilQuote, ByteReading.exec_bind, (bump_tracks (.refl _)).agrees]
      rfl
  | case2 =>
      -- the backslash is the last character, so nothing is consumed behind it
      refine .of_error "invalid escape" (.advance _ 1) rfl ?_ fun h => absurd h (by decide)
      rw [exec_untilQuote, if_neg (by decide), if_pos rfl, ByteReading.exec_bind,
        (bump_tracks (.refl _)).agrees]
      rfl
  | case3 c rest hescape =>
      refine .of_error "invalid escape" (.advance _ 2) ?_ ?_ fun h => absurd h (by decide)
      · simp only [scan, exec_bind, exec_get, scanQuoted, hescape, exec_modify]
        rfl
      · rw [exec_untilQuote, if_neg (by decide), if_pos rfl, ByteReading.exec_bind, exec_byteBump]
        simp only [Option.bind_some, hescape]
        rfl
  | case4 c rest d hescape outcome moved hrest ih =>
      have hrounds' := Nat.lt_of_succ_lt_succ (Nat.lt_of_succ_lt hrounds)
      obtain ⟨rounds, rfl⟩ := Nat.exists_eq_succ_of_ne_zero (Nat.ne_zero_of_lt hrounds')
      refine .along ⟨['\\', c], rfl, rfl⟩ ?_
        (exec_scan_append ['\\', c] (f := (d :: ·)) hrest ?_ before)
        ((ih (c :: '\\' :: before) rounds hrounds').map (d :: ·))
      · rw [exec_untilQuote, if_neg (by decide), if_pos rfl, ByteReading.exec_bind, exec_byteBump]
        simp only [Option.bind_some, hescape]
        rfl
      · simp [scanQuoted, hescape, hrest]
  | case5 rest =>
      refine .of_ok [] (.advance _ 1) rfl ?_
      rw [exec_untilQuote, if_pos rfl]
      rfl
  | case6 c rest hlast hescape hquote outcome moved hrest ih =>
      have hbackslash : c ≠ '\\' := by
        rintro rfl
        cases rest with
        | nil => exact hlast rfl rfl
        | cons c' rest => exact hescape c' rest rfl rfl
      have hrounds' := Nat.lt_of_succ_lt_succ hrounds
      obtain ⟨rounds, rfl⟩ := Nat.exists_eq_succ_of_ne_zero (Nat.ne_zero_of_lt hrounds')
      refine .along ⟨[c], rfl, rfl⟩ ?_
        (exec_scan_append [c] (f := (c :: ·)) hrest ?_ before)
        ((ih (c :: before) rounds hrounds').map (c :: ·))
      · rw [exec_untilQuote, if_neg hquote, if_neg hbackslash]
        rfl
      · rw [List.singleton_append, scanQuoted, hrest]
        · rfl
        · exact hlast
        · exact hescape
        · exact hquote

theorem quoted_tracks (honward : start.Onward r) : Tracks start ByteReading.quoted quoted r := by
  refine (expect_tracks '"' honward).bind fun _ r' _ honward' => .trans honward' (.getBytes ?_)
  exact (untilQuote_tracks r'.before r'.rest r'.length_lt_rounds).map String.ofList

/-- The loop ends in front of what is no digit. -/
theorem exec_digitPairs_end (rounds : Nat) (hend : r.rest.head?.bind Text.hexDigit? = none) :
    (ByteReading.digitPairs (rounds + 1)).exec r.inBytes = some (.ok [], r.inBytes) := by
  rw [ByteReading.digitPairs, ByteReading.exec_bind, exec_bytePeek]
  simp only [Option.bind_some, hend, ByteReading.exec_pure]

/-- A digit takes one byte. -/
theorem advance_digit {c : Char} {d : Nat} (hdigit : Text.hexDigit? c = some d)
    (before cs : List Char) :
    (TextReader.inBytes ⟨before, c :: cs⟩).advance 1 = TextReader.inBytes ⟨c :: before, cs⟩ := by
  rw [← utf8Size_of_hexDigit? (Option.isSome_of_mem hdigit)]
  exact (inBytes_advance_one rfl).symm

/-- The loop behind the first digit of a pair. -/
theorem exec_digitPairs (rounds : Nat) {c : Char} {high : Nat}
    (hhigh : Text.hexDigit? c = some high) (before cs : List Char) :
    (ByteReading.digitPairs (rounds + 1)).exec (TextReader.inBytes ⟨before, c :: cs⟩) =
      ByteReading.exec (do
        match (← ByteReading.peek).bind Text.hexDigit? with
        | none => ByteReading.fail "odd number of hex digits"
        | some low => do
          modify (·.advance 1)
          return UInt8.ofNat (16 * high + low) :: (← ByteReading.digitPairs rounds))
        (TextReader.inBytes ⟨c :: before, cs⟩) := by
  rw [← advance_digit hhigh, ByteReading.digitPairs, ByteReading.exec_bind, exec_bytePeek]
  simp only [Option.bind_some, List.head?_cons, hhigh]
  rfl

theorem digitPairs_tracks (before cs : List Char) {rounds : Nat} (hrounds : cs.length < rounds) :
    Tracks ⟨before, cs⟩ (ByteReading.digitPairs rounds) (scan scanBytes) ⟨before, cs⟩ := by
  obtain ⟨rounds, rfl⟩ := Nat.exists_eq_succ_of_ne_zero (Nat.ne_zero_of_lt hrounds)
  fun_induction scanBytes cs generalizing before rounds with
  | case1 => exact .of_ok [] (.refl _) rfl (exec_digitPairs_end rounds rfl)
  | case2 c hhex =>
      obtain ⟨high, hhigh⟩ := Option.isSome_iff_exists.1 hhex
      refine .of_error "odd number of hex digits" (.advance _ 1) ?_ ?_ fun h => absurd h (by decide)
      · simp only [scan, exec_bind, exec_get, scanBytes, hhex, if_true, exec_modify]
        rfl
      · rw [exec_digitPairs rounds hhigh, ByteReading.exec_bind, exec_bytePeek]
        rfl
  | case3 c hhex =>
      refine .of_ok [] (.refl _) ?_ (exec_digitPairs_end rounds (by simpa using hhex))
      simp only [scan, exec_bind, exec_get, scanBytes, hhex, exec_modify]
      rfl
  | case4 high low rest hhigh =>
      refine .of_ok [] (.refl _) ?_ (exec_digitPairs_end rounds hhigh)
      simp only [scan, exec_bind, exec_get, scanBytes, hhigh, exec_modify]
      rfl
  | case5 high low rest h hlow hhigh =>
      refine .of_error "odd number of hex digits" (.advance _ 1) ?_ ?_ fun h => absurd h (by decide)
      · simp only [scan, exec_bind, exec_get, scanBytes, hhigh, hlow, exec_modify]
        rfl
      · rw [exec_digitPairs rounds hhigh, ByteReading.exec_bind, exec_bytePeek]
        simp only [Option.bind_some, List.head?_cons, hlow]
        rfl
  | case6 high low rest h l hlow hhigh outcome moved hrest ih =>
      have hrounds' := Nat.lt_of_succ_lt_succ (Nat.lt_of_succ_lt hrounds)
      obtain ⟨rounds, rfl⟩ := Nat.exists_eq_succ_of_ne_zero (Nat.ne_zero_of_lt hrounds')
      refine .along ⟨[high, low], rfl, rfl⟩ ?_
        (exec_scan_append [high, low] hrest ?_ before)
        ((ih (low :: high :: before) rounds hrounds').map (UInt8.ofNat (16 * h + l) :: ·))
      · rw [exec_digitPairs _ hhigh, ByteReading.exec_bind, exec_bytePeek, map_eq_pure_bind]
        simp only [Option.bind_some, List.head?_cons, hlow, ByteReading.exec_bind,
          ByteReading.exec_modify, advance_digit hlow]
        rfl
      · simp only [List.cons_append, List.nil_append, scanBytes, hhigh, hlow, hrest]
        rfl

theorem bytes_tracks (honward : start.Onward r) : Tracks start ByteReading.bytes Reading.bytes r :=
  (expect_tracks '%' honward).bind fun _ r' _ honward' =>
    .trans honward' (.getBytes (digitPairs_tracks r'.before r'.rest r'.length_lt_rounds))

/-! ## Values -/

theorem length_eat {c : Char} (hexec : exec (eat c) r = (.ok true, r')) :
    r'.rest.length + 1 = r.rest.length := by
  obtain ⟨hrest, -⟩ := exec_eat hexec
  simp [hrest]

theorem exec_expect {c : Char} (hexec : exec (expect c) r = (.ok (), r')) :
    exec (eat c) r = (.ok true, r') := by
  rw [expect, exec_bind] at hexec
  split at hexec
  · next found r'' heat =>
      cases found with
      | true =>
          cases hexec
          exact heat
      | false => cases hexec
  · cases hexec

/-- Neither the bound on the nesting nor the rounds are used up, if there are more of them than
twice the characters: a value that is a list takes a character of its own, and so does an item with
another one behind it. -/
theorem within_tracks (bound : Nat) :
    (∀ (rounds : Nat) (r : TextReader), 2 * r.rest.length + 1 ≤ bound →
        2 * r.rest.length + 1 ≤ rounds →
        Tracks r (ByteReading.valueWithin rounds) (valueWithin bound) r) ∧
      ∀ (rounds : Nat) (r : TextReader), 2 * r.rest.length + 2 ≤ bound →
        2 * r.rest.length + 2 ≤ rounds →
        Tracks r (ByteReading.itemsWithin rounds) (itemsWithin bound) r := by
  induction bound with
  | zero => exact ⟨fun _ r hbound => by omega, fun _ r hbound => by omega⟩
  | succ bound ih =>
      obtain ⟨ihvalue, ihitems⟩ := ih
      constructor
      · intro rounds r hbound hrounds
        obtain ⟨rounds, rfl⟩ := Nat.exists_eq_succ_of_ne_zero (Nat.ne_zero_of_lt hrounds)
        unfold ByteReading.valueWithin valueWithin
        refine .peek ?_
        cases hnext : r.rest.head? with
        | none => exact .fail (.refl r) (by decide)
        | some c =>
            dsimp only
            split
            · exact (quoted_tracks (.refl r)).map _
            split
            · exact (bytes_tracks (.refl r)).map _
            split
            · refine (expect_tracks '\x7b' (.refl r)).bind fun _ r' hopen honward => ?_
              have hshorter := length_eat (exec_expect hopen)
              refine .trans honward ?_
              refine (eat_tracks '\x7d' (.refl r')).bind fun closed r'' _ honward' => ?_
              have hrest := honward'.length_le
              cases closed with
              | true => exact .pure _ honward'
              | false =>
                  have hitems := ihitems rounds r'' (by omega) (by omega)
                  exact .trans honward' (hitems.map _)
            split
            · exact (integer_tracks r).map _
            split
            · next hletter => exact literal_tracks ⟨c, hnext, hletter⟩
            · exact .fail (.refl r) (by decide)
      · intro rounds r hbound hrounds
        obtain ⟨rounds, rfl⟩ := Nat.exists_eq_succ_of_ne_zero (Nat.ne_zero_of_lt hrounds)
        unfold ByteReading.itemsWithin itemsWithin
        refine (ihvalue rounds r (by omega) (by omega)).bind fun v r' _ honward => ?_
        refine (eat_tracks ',' honward).bind fun more r'' heat honward' => ?_
        have hshorter := honward.length_le
        cases more with
        | true =>
            have hcomma := length_eat heat
            have hitems := ihitems rounds r'' (by omega) (by omega)
            exact .trans honward' (hitems.map (v :: ·))
        | false => exact (expect_tracks '\x7d' honward').map _

theorem value_tracks (r : TextReader) : Tracks r ByteReading.value value r := by
  have hrounds := r.length_lt_rounds
  have hwithin := (within_tracks (2 * r.rest.length + 1)).1 (2 * r.inBytes.rounds) r
    (Nat.le_refl _) (by omega)
  exact .get hwithin

end Reading
end PageTree
