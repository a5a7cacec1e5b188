import PageTree.Proofs.Commit.Write
import PageTree.Proofs.Text.Lines

/-!
# The layout of a diff

Writing a diff goes the same way whatever its pages are written into: `Parallel` says of two steps
that they have the same outcome and leave the same store if they start from diffs at the same place.
So the tree with the places that its pages would have, for which the texts are only counted, is the
tree that comes with the text of the diff (`Tree.exec_committed`).

A diff has the uncommitted pages of a tree one after another, each followed by a newline and each
after the pages beneath it.  `Store.Writes` says what a reference becomes and which pages are
written for it, in their order; `Placed` says where they lie.  `PageRef.commitWithin_appends` shows
both of a subtree by following the recursion, whatever else the zone holds.
-/

namespace PageTree

/-! ## What a diff is written into -/

section Sinks

open StoreM

variable {α β γ ω ω' : Type}

/-! ## Diffs at the same place -/

/-- Diffs that differ only in what they are written into. -/
structure DiffWriter.Level (diff : DiffWriter ω) (diff' : DiffWriter ω') : Prop where
  zone : diff'.zone = diff.zone
  offset : diff'.offset = diff.offset
  version : diff'.version = diff.version

theorem DiffWriter.Level.append [Sink ω] [Sink ω'] {diff : DiffWriter ω} {diff' : DiffWriter ω'}
    (hlevel : diff.Level diff') (text : List Char) :
    (diff.append text).Level (diff'.append text) where
  zone := hlevel.zone
  offset := by simp only [DiffWriter.append, hlevel.offset]
  version := hlevel.version

/-- Outcomes with the same result, or the same error, that leave the same store. -/
inductive SameOutcome : Except StoreError (α × DiffWriter ω) × Store →
    Except StoreError (α × DiffWriter ω') × Store → Prop where
  | ok {a : α} {diff : DiffWriter ω} {diff' : DiffWriter ω'} {s : Store}
      (level : diff.Level diff') : SameOutcome (.ok (a, diff), s) (.ok (a, diff'), s)
  | error {e : StoreError} {s : Store} : SameOutcome (.error e, s) (.error e, s)

/-- The steps do the same from diffs at the same place. -/
def Parallel (m : StateT (DiffWriter ω) StoreM α) (m' : StateT (DiffWriter ω') StoreM α) : Prop :=
  ∀ diff diff' s, diff.Level diff' → SameOutcome (exec (m.run diff) s) (exec (m'.run diff') s)

namespace Parallel

protected theorem pure (a : α) :
    Parallel (pure a : StateT (DiffWriter ω) StoreM α) (pure a : StateT (DiffWriter ω') StoreM α) :=
  fun _ _ _ hlevel => .ok hlevel

protected theorem bind {m : StateT (DiffWriter ω) StoreM α} {m' : StateT (DiffWriter ω') StoreM α}
    {f : α → StateT (DiffWriter ω) StoreM β} {f' : α → StateT (DiffWriter ω') StoreM β}
    (hm : Parallel m m') (hf : ∀ a, Parallel (f a) (f' a)) : Parallel (m >>= f) (m' >>= f') := by
  intro diff diff' s hlevel
  have hfirst := hm diff diff' s hlevel
  rw [StateT.run_bind, StateT.run_bind, exec_bind, exec_bind]
  generalize exec (m.run diff) s = outcome at hfirst
  generalize exec (m'.run diff') s = outcome' at hfirst
  cases hfirst with
  | ok level => exact hf _ _ _ _ level
  | error => exact .error

/-- Steps that do not look at the diff. -/
protected theorem lift (m : StoreM α) :
    Parallel (liftM m : StateT (DiffWriter ω) StoreM α)
      (liftM m : StateT (DiffWriter ω') StoreM α) := by
  intro diff diff' s hlevel
  change SameOutcome (exec (m >>= fun a => pure (a, diff)) s)
    (exec (m >>= fun a => pure (a, diff')) s)
  rw [exec_bind, exec_bind]
  generalize exec m s = outcome
  obtain ⟨e | a, s'⟩ := outcome
  · exact .error
  · exact .ok hlevel

protected theorem throw (e : StoreError) :
    Parallel (throw e : StateT (DiffWriter ω) StoreM α)
      (throw e : StateT (DiffWriter ω') StoreM α) :=
  fun _ _ _ _ => .error

/-- Steps that look at the place of the diff. -/
protected theorem get {f : DiffWriter ω → StateT (DiffWriter ω) StoreM α}
    {f' : DiffWriter ω' → StateT (DiffWriter ω') StoreM α}
    (hf : ∀ diff diff', diff.Level diff' → Parallel (f diff) (f' diff')) :
    Parallel (get >>= f) (get >>= f') :=
  fun diff diff' s hlevel => hf diff diff' hlevel diff diff' s hlevel

protected theorem append [Sink ω] [Sink ω'] (text : List Char) :
    Parallel (modify (·.append text) : StateT (DiffWriter ω) StoreM Unit)
      (modify (·.append text) : StateT (DiffWriter ω') StoreM Unit) :=
  fun _ _ _ hlevel => .ok (hlevel.append text)

theorem listMapM {f : α → StateT (DiffWriter ω) StoreM β} {f' : α → StateT (DiffWriter ω') StoreM β}
    (hf : ∀ a, Parallel (f a) (f' a)) (l : List α) : Parallel (l.mapM f) (l.mapM f') := by
  induction l with
  | nil => exact .pure []
  | cons a l ih =>
      rw [List.mapM_cons, List.mapM_cons]
      exact (hf a).bind fun _ => ih.bind fun _ => .pure _

theorem mapChildren {f : γ → StateT (DiffWriter ω) StoreM β}
    {f' : γ → StateT (DiffWriter ω') StoreM β} (hf : ∀ m, Parallel (f m) (f' m)) (p : Page γ)
    (version : Nat) : Parallel (p.mapChildren version f) (p.mapChildren version f') := by
  rw [Page.mapChildren_eq, Page.mapChildren_eq]
  exact (listMapM hf p.children).bind fun _ => .pure _

end Parallel

/-! ## Trees -/

section Trees

variable [Sink ω] [Sink ω']

namespace PageRef

theorem layOut_parallel (r : PageRef) (copy : PageCopy) :
    Parallel (r.layOut copy : StateT (DiffWriter ω) StoreM PageRef)
      (r.layOut copy : StateT (DiffWriter ω') StoreM PageRef) := by
  refine .bind (.append _) fun _ => .get fun diff diff' hlevel => ?_
  rw [hlevel.zone, hlevel.offset]
  exact .lift _

theorem commitWithin_parallel (depth : Nat) (r : PageRef) :
    Parallel (commitWithin depth r : StateT (DiffWriter ω) StoreM PageRef)
      (commitWithin depth r : StateT (DiffWriter ω') StoreM PageRef) := by
  induction depth generalizing r with
  | zero => exact .throw _
  | succ depth ih =>
      unfold commitWithin
      -- what a writer has gathered decides nothing; only its zone, place and version do
      split
      · exact .pure r
      · refine .bind (.lift r.hold) fun hold => ?_
        split
        · next copy =>
          refine .get fun diff diff' hlevel => ?_
          rw [hlevel.version]
          dsimp only
          split
          · exact .pure r
          · split
            · refine .bind (.mapChildren ih copy.page copy.page.version) fun page => ?_
              exact .bind (.lift _) (layOut_parallel r)
            · exact layOut_parallel r copy
        · exact .bind (.lift _) fun _ => .throw _

theorem commitInto_parallel (r : PageRef) (diff : DiffWriter ω) (diff' : DiffWriter ω')
    (hlevel : diff.Level diff') (s : Store) :
    SameOutcome (exec (r.commitInto diff) s) (exec (r.commitInto diff') s) := by
  rw [exec_commitInto, exec_commitInto]
  exact commitWithin_parallel _ r diff diff' s hlevel

end PageRef
end Trees

/-- Counting the texts of the pages gives the places that writing them gives, or fails as writing
them does. -/
theorem Tree.exec_committed (t : Tree) (zone base version : Nat) (s : Store) :
    exec (t.committed zone base version) s =
      ((exec (t.buildDiff zone base version) s).1.map Prod.snd,
        (exec (t.buildDiff zone base version) s).2) := by
  have hsame := t.root.commitInto_parallel (.start zone base version : Diff)
    (.start zone base version : DiffWriter ByteCount) ⟨rfl, rfl, rfl⟩ s
  rw [committed, buildDiff, PageRef.committed, exec_bind, exec_bind, exec_bind]
  generalize exec (t.root.commitInto (.start zone base version : Diff)) s = outcome at hsame
  generalize exec (t.root.commitInto (.start zone base version : DiffWriter ByteCount)) s =
    outcome' at hsame
  cases hsame with
  | error => rfl
  | ok level =>
      dsimp only
      rw [exec_bind]
      simp only [exec_pure]
      generalize exec (t.withCommittedRoot _) _ = last
      obtain ⟨e | t', s'⟩ := last <;> rfl

end Sinks

open StoreM

variable {α β γ : Type} {s s' : Store} {r r' : PageRef} {zone version : Nat}

/-! ## What can be written -/

/-- The uncommitted pages beneath a reference are held strongly, their headers describe them, and
none is newer than the page above it, the topmost not newer than a version. -/
inductive Store.Pending (s : Store) : Nat → PageRef → Prop where
  | settled {version : Nat} {r : PageRef} (committed : r.isCommitted = true) : Pending s version r
  | pending {version : Nat} {r : PageRef} {copy : PageCopy} (uncommitted : r.isCommitted = false)
      (hold : s.hold r = .strong copy) (header : r.header = .ofPage copy.page.stored r.fold)
      (version_le : copy.page.version ≤ version)
      (children : ∀ m ∈ copy.page.children, Pending s copy.page.version m) : Pending s version r

/-- A page that is not stored yet is larger than the subtrees of its children. -/
theorem PageRef.treeSize_lt_of_header {page : LivePage} {m : PageRef}
    (hheader : r.header = .ofPage page.stored r.fold) (hm : m ∈ page.children) :
    m.treeSize < r.treeSize := by
  have hle : m.treeSize ≤ (page.stored.children.map Header.area).sum := by
    rw [Page.stored_children, List.map_map]
    exact le_sum_of_mem (List.mem_map_of_mem (f := treeSize) hm)
  have harea : r.treeSize = page.stored.size + 1 + (page.stored.children.map Header.area).sum := by
    rw [treeSize, hheader]
    rfl
  omega

namespace Store.Pending

theorem keep (hkeeps : s.Keeps s') (hpending : s.Pending version r) : s'.Pending version r := by
  induction hpending with
  | settled committed => exact .settled committed
  | pending uncommitted hold header version_le _ ih =>
      exact .pending uncommitted (hkeeps.strong hold) header version_le ih

/-- The pages of trees in use can be written. -/
theorem of_fit {c : Chart} {kind : TreeKind} {stem : Nat} (hrep : Mirrors s c)
    (hfit : c.Fit kind stem version r) : s.Pending version r := by
  -- the induction is on the size of the subtree
  generalize hsize : r.treeSize = size
  induction size using Nat.strongRecOn generalizing kind stem version r with
  | ind size ih =>
      cases hcommitted : r.isCommitted with
      | true => exact .settled hcommitted
      | false =>
          obtain ⟨copy, hhold⟩ := hrep.strong r hfit.refs hcommitted
          obtain ⟨hpage, hrefs⟩ := hrep.held r copy hfit.refs (by rw [hhold]; rfl)
          obtain ⟨rfl, rfl, hle⟩ := PageRef.fit_of_page hfit hpage
          have hdesc := (hrep.sound r hfit.refs).describes hpage
          rw [PageRef.header_site, Page.map_site_header, Header.Describes,
            if_neg (by simpa [PageRef.isCommitted] using hcommitted)] at hdesc
          refine .pending hcommitted hhold hdesc hle fun m hm => ?_
          have hlt := hrep.treeSize_lt hfit.refs hpage hm
          exact ih _ (hsize ▸ hlt) (hrep.child_fit hfit.refs hpage hm (hrefs m hm)) rfl

end Store.Pending

/-! ## What is written -/

/-- A reference that has been written, and its page as it is stored. -/
structure WrittenPage where
  ref : PageRef
  page : Page Header

/-- What a diff has of a page. -/
def WrittenPage.text (w : WrittenPage) : List Char :=
  w.page.render ++ ['\n']

/-- What a reference becomes, and the pages that are written for it.  A committed reference stays
what it is.  The page of another is written after all that is written for its children, with the
headers that they have by then. -/
inductive Store.Writes (s : Store) (zone : Nat) : PageRef → PageRef → List WrittenPage → Prop where
  | kept {r : PageRef} (committed : r.isCommitted = true) : Writes s zone r r []
  | written {r r' : PageRef} {copy copy' : PageCopy} {parts : List (PageRef × List WrittenPage)}
      (uncommitted : r.isCommitted = false) (hold : s.hold r = .strong copy)
      (hold' : s.hold r' = .strong copy') (tree : r'.tree = r.tree) (stem : r'.stem = r.stem)
      (header : r'.header = r.header.located copy'.page.stored zone r'.base)
      (page : copy'.page = copy.page.withChildren copy.page.version (parts.map Prod.fst))
      (length : copy.page.children.length = parts.length)
      (children : ∀ i h h', Writes s zone (copy.page.children.get ⟨i, h⟩) (parts.get ⟨i, h'⟩).1
        (parts.get ⟨i, h'⟩).2) :
      Writes s zone r r' ((parts.map Prod.snd).flatten ++ [⟨r', copy'.page.stored⟩])

theorem Store.Writes.keep (hkeeps : s.Keeps s') {written : List WrittenPage}
    (hwrites : s.Writes zone r r' written) : s'.Writes zone r r' written := by
  induction hwrites with
  | kept committed => exact .kept committed
  | written uncommitted hold hold' tree stem header page length _ ih =>
      exact .written uncommitted (hkeeps.strong hold) (hkeeps.strong hold') tree stem header page
        length ih

/-! ## Where it is written -/

/-- The page begins at an offset of a zone. -/
structure WrittenPage.LiesAt (w : WrittenPage) (zone offset : Nat) : Prop where
  zone : w.ref.zone = zone
  base : w.ref.base = offset + w.page.size
  size : w.ref.pageSize = w.page.size

/-- The pages follow one another in a zone from an offset on. -/
def Placed (zone : Nat) : Nat → List WrittenPage → Prop
  | _, [] => True
  | offset, w :: rest =>
    w.LiesAt zone offset ∧ Placed zone (offset + Text.byteLength w.text) rest

theorem placed_append {offset : Nat} {l l' : List WrittenPage} :
    Placed zone offset (l ++ l') ↔ Placed zone offset l ∧
      Placed zone (offset + Text.byteLength (l.flatMap WrittenPage.text)) l' := by
  induction l generalizing offset with
  | nil => simp [Placed]
  | cons w l ih =>
      simp only [List.cons_append, Placed, ih, List.flatMap_cons, Text.byteLength_append, and_assoc,
        Nat.add_assoc]

theorem WrittenPage.LiesAt.isCommitted {w : WrittenPage} {offset : Nat}
    (hlies : w.LiesAt zone offset) (hzone : 0 < zone) : w.ref.isCommitted = true := by
  have hsize := w.page.size_pos
  have hbase := hlies.base
  have hpositive : 0 < w.ref.header.base := by
    rw [PageRef.base] at hbase
    omega
  have hzone' : w.ref.header.zone = zone := hlies.zone
  simp [PageRef.isCommitted, Header.isCommitted, hzone', hzone, hpositive]

/-- Each page stands in what the pages make together. -/
theorem Placed.prints {offset : Nat} {l : List WrittenPage} (hplaced : Placed zone offset l)
    {w : WrittenPage} (hw : w ∈ l) :
    w.LiesAt zone (w.ref.base - w.page.size) ∧
      Diff.Prints offset (l.flatMap WrittenPage.text) w.ref.base w.page := by
  obtain ⟨before, after, rfl⟩ := List.append_of_mem hw
  obtain ⟨-, hlies, -⟩ := placed_append.1 hplaced
  refine ⟨?_, before.flatMap WrittenPage.text, after.flatMap WrittenPage.text, ?_, hlies.base⟩
  · rwa [hlies.base, Nat.add_sub_cancel]
  · simp [WrittenPage.text]

/-- A page of a diff is found in the text of the diff alone. -/
theorem Diff.Prints.between?_toText {start base : Nat} {text : List Char} {p : Page Header}
    (hprints : Prints start text base p) :
    Text.between? (base - start - p.size) (base - start) (String.ofList text) = some p.toText := by
  obtain ⟨before, after, htext, hbase⟩ := hprints
  have hmoved : Prints 0 text (base - start) p := ⟨before, after, htext, by omega⟩
  have hfound := hmoved.between? (show ("" : String).utf8ByteSize = 0 from rfl)
  rwa [String.empty_append] at hfound

/-! ## Steps that write on -/

/-- A diff with more pages written into it. -/
def DiffWriter.appendAll (diff : Diff) (written : List WrittenPage) : Diff :=
  written.foldl (fun diff w => diff.append w.page.render) diff

namespace DiffWriter

variable (diff : Diff) (l l' : List WrittenPage)

theorem appendAll_append : diff.appendAll (l ++ l') = (diff.appendAll l).appendAll l' :=
  List.foldl_append

@[simp] theorem appendAll_zone : (diff.appendAll l).zone = diff.zone := by
  induction l generalizing diff with
  | nil => rfl
  | cons w l ih => exact ih _

@[simp] theorem appendAll_version : (diff.appendAll l).version = diff.version := by
  induction l generalizing diff with
  | nil => rfl
  | cons w l ih => exact ih _

theorem appendAll_offset : (diff.appendAll l).offset =
    diff.offset + Text.byteLength (l.flatMap WrittenPage.text) := by
  induction l generalizing diff with
  | nil => rfl
  | cons w l ih =>
      have hnewline : Char.utf8Size '\n' = 1 := rfl
      rw [appendAll, List.foldl_cons]
      refine (ih _).trans ?_
      simp [append, WrittenPage.text, hnewline, Nat.add_assoc]

theorem appendAll_chars : (diff.appendAll l).chars =
    diff.chars ++ l.flatMap WrittenPage.text := by
  induction l generalizing diff with
  | nil => simp [appendAll]
  | cons w l ih =>
      rw [appendAll, List.foldl_cons]
      refine (ih _).trans ?_
      rw [chars_append, List.flatMap_cons, WrittenPage.text, List.append_assoc]

/-- The text of a diff is what has been written into it. -/
theorem toText_appendAll_start (zone start version : Nat) :
    toText ((.start zone start version : Diff).appendAll l) =
      String.ofList (l.flatMap WrittenPage.text) :=
  congrArg String.ofList (appendAll_chars _ l)

end DiffWriter

/-- The step succeeds.  It writes some pages on, only adds to memory, and what it gives has a
property. -/
def Appends (m : StateT Diff StoreM α) (s : Store) (diff : Diff)
    (post : α → Store → List WrittenPage → Prop) : Prop :=
  ∃ a s' written, exec (m.run diff) s = (.ok (a, diff.appendAll written), s') ∧ s.Extends s' ∧
    Placed diff.zone diff.offset written ∧ post a s' written

namespace Appends

variable {diff : Diff} {P : α → Store → List WrittenPage → Prop}
  {Q : β → Store → List WrittenPage → Prop}

protected theorem pure {a : α} (hpost : P a s []) : Appends (pure a) s diff P :=
  ⟨a, s, [], rfl, .refl s, trivial, hpost⟩

/-- The pages of the second step follow those of the first. -/
protected theorem bind {m : StateT Diff StoreM α} {f : α → StateT Diff StoreM β}
    (hm : Appends m s diff P)
    (hf : ∀ a s' written, s.Extends s' → P a s' written →
      Appends (f a) s' (diff.appendAll written) fun b s'' written' =>
        Q b s'' (written ++ written')) : Appends (m >>= f) s diff Q := by
  obtain ⟨a, s', written, hexec, hext, hplaced, hpost⟩ := hm
  obtain ⟨b, s'', written', hexec', hext', hplaced', hpost'⟩ := hf a s' written hext hpost
  refine ⟨b, s'', written ++ written', ?_, hext.trans hext', placed_append.2 ⟨hplaced, ?_⟩, hpost'⟩
  · rw [StateT.run_bind, exec_bind, hexec, DiffWriter.appendAll_append]
    exact hexec'
  · rwa [DiffWriter.appendAll_zone, DiffWriter.appendAll_offset] at hplaced'

/-- Memory may be looked at. -/
protected theorem hold {f : Hold → StateT Diff StoreM β} (hf : Appends (f (s.hold r)) s diff Q) :
    Appends ((liftM r.hold : StateT Diff StoreM Hold) >>= f) s diff Q :=
  hf

/-- The diff may be looked at. -/
protected theorem get {f : Diff → StateT Diff StoreM β} (hf : Appends (f diff) s diff Q) :
    Appends (get >>= f) s diff Q :=
  hf

/-- A page may be given a number. -/
protected theorem copyOf (page : LivePage) {f : PageCopy → StateT Diff StoreM β}
    (hf : ∀ s' copy, s.Extends s' → copy.page = page → Appends (f copy) s' diff Q) :
    Appends ((liftM (PageRef.copyOf page) : StateT Diff StoreM PageCopy) >>= f) s diff Q := by
  have hext := Store.Extends.copyOf page s
  obtain ⟨b, s'', written, hexec, hext', hrest⟩ := hf _ ⟨s.nextSerial, page⟩ hext rfl
  exact ⟨b, s'', written, hexec, hext.trans hext', hrest⟩

/-- A step on every item of a list, where what holds of a result goes on to hold. -/
theorem listMapM {f : α → StateT Diff StoreM β} {R : α → β → Store → List WrittenPage → Prop}
    (l : List α) (hstable : ∀ a b s s' written, s.Keeps s' → R a b s written → R a b s' written)
    (hf : ∀ a ∈ l, ∀ s' written, s.Extends s' →
      Appends (f a) s' (diff.appendAll written) (R a)) :
    Appends (l.mapM f) s diff fun bs s' written => ∃ parts : List (β × List WrittenPage),
      bs = parts.map Prod.fst ∧ written = (parts.map Prod.snd).flatten ∧
        List.Forall₂ (fun a part => R a part.1 s' part.2) l parts := by
  induction l generalizing s diff with
  | nil => exact .pure ⟨[], rfl, rfl, .nil⟩
  | cons a l ih =>
      rw [List.mapM_cons]
      refine .bind (hf a List.mem_cons_self s [] (.refl s)) fun b s' part hext hb => ?_
      refine .bind (ih fun a' ha' s'' written hext' => ?_) ?_
      · rw [← DiffWriter.appendAll_append]
        exact hf a' (List.mem_cons_of_mem a ha') s'' _ (hext.trans hext')
      · rintro bs s'' written hext' ⟨parts, rfl, rfl, hparts⟩
        refine .pure ⟨(b, part) :: parts, rfl, ?_, .cons (hstable _ _ _ _ _ hext'.keeps hb) hparts⟩
        rw [List.append_nil, List.map_cons, List.flatten_cons]

end Appends

namespace PageRef

variable (diff : Diff)

/-- A page is written after what has been written for its children. -/
theorem layOut_appends {copy copy' : PageCopy} {parts : List (PageRef × List WrittenPage)}
    (huncommitted : r.isCommitted = false) (hhold : s.hold r = .strong copy)
    (hpage : copy'.page = copy.page.withChildren copy.page.version (parts.map Prod.fst))
    (hparts : List.Forall₂ (fun m part => s.Writes diff.zone m part.1 part.2) copy.page.children
      parts) :
    Appends (r.layOut copy') s diff fun r' s' written =>
      s'.Writes diff.zone r r' ((parts.map Prod.snd).flatten ++ written) ∧
        (r'.same r = true → r' = r) := by
  have hext := Store.Extends.pushCell s ⟨.strong copy', some copy'.page.version⟩
  obtain ⟨hlength, hget⟩ := List.forall₂_iff_get.1 hparts
  refine ⟨_, _, [⟨_, copy'.page.stored⟩], exec_layOut r copy' diff s, hext,
    ⟨⟨rfl, rfl, rfl⟩, trivial⟩,
    .written huncommitted (hext.keeps.strong hhold) ?_ rfl rfl rfl hpage hlength fun i h h' =>
      (hget i h h').keep hext.keeps, fun hsame => ?_⟩
  · rw [Store.hold, Store.cell_pushCell_self]
  · -- the new reference has an identity that no reference in memory had
    have hlt : r.id < s.cells.size := Store.lt_of_copy (by rw [hhold]; rfl)
    have hid : s.cells.size = r.id := by simpa [same] using hsame
    omega

/-- A subtree is written page by page. -/
theorem commitWithin_appends (depth : Nat) (hdepth : r.treeSize < depth)
    (hpending : s.Pending version r) (hversion : version ≤ diff.version) :
    Appends (commitWithin depth r) s diff fun r' s' written =>
      s'.Writes diff.zone r r' written ∧ (r'.same r = true → r' = r) := by
  induction depth generalizing s diff version r with
  | zero => exact absurd hdepth (Nat.not_lt_zero _)
  | succ depth ih =>
      unfold commitWithin
      cases hpending with
      | settled committed =>
          rw [if_pos committed]
          exact .pure ⟨.kept committed, fun _ => rfl⟩
      | @pending _ _ copy uncommitted hold header version_le children =>
          rw [if_neg (by simp [uncommitted])]
          refine .hold ?_
          rw [hold]
          refine .get ?_
          rw [if_neg (Nat.not_lt.2 (Nat.le_trans version_le hversion))]
          dsimp only
          split
          · -- the children are written before the page, so that it can say where they are
            rw [Page.mapChildren_eq, bind_assoc]
            refine .bind (.listMapM (R := fun m m' s' part => s'.Writes diff.zone m m' part ∧
              (m'.same m = true → m' = m)) copy.page.children
              (fun _ _ _ _ _ hkeeps hwrites => ⟨hwrites.1.keep hkeeps, hwrites.2⟩) ?_) ?_
            · intro m hm s' written hext
              have hlt := treeSize_lt_of_header header hm
              have hwrite := ih (diff.appendAll written) (by omega)
                ((children m hm).keep hext.keeps)
                (by rw [DiffWriter.appendAll_version]; exact Nat.le_trans version_le hversion)
              rwa [DiffWriter.appendAll_zone] at hwrite
            · rintro ms s' written hext ⟨parts, rfl, rfl, hparts⟩
              rw [pure_bind]
              refine .copyOf _ fun s'' copy' hext' hpage => ?_
              have hkeeps := hext'.keeps
              have hlaid := layOut_appends (diff.appendAll (parts.map Prod.snd).flatten)
                uncommitted (hkeeps.strong (hext.keeps.strong hold)) hpage
                (hparts.imp fun m part hwrites => by
                  rw [DiffWriter.appendAll_zone]
                  exact hwrites.1.keep hkeeps)
              rwa [DiffWriter.appendAll_zone] at hlaid
          · next hleaf =>
            have hleaf : copy.page.isNode = false := by simpa using hleaf
            have hchildren : copy.page.children = [] := Page.children_of_not_isNode hleaf
            have hsame := (Page.withChildren_of_leaf hleaf).symm
            exact layOut_appends diff uncommitted hold hsame (by rw [hchildren]; exact .nil)

end PageRef

/-! ## The diff of a tree -/

/-- A written page is stored in a zone, and its place is where its text is in a diff that starts at
an offset of the zone. -/
structure WrittenPage.FoundIn (w : WrittenPage) (zone start : Nat) (text : List Char) : Prop where
  committed : w.ref.isCommitted = true
  zone : w.ref.zone = zone
  base_pos : 0 < w.ref.base
  size_le : start + w.ref.pageSize ≤ w.ref.base
  found : Text.between? (w.ref.base - start - w.ref.pageSize) (w.ref.base - start)
    (String.ofList text) = some w.page.toText

/-- A tree has been written page by page into a diff of some text. -/
structure Tree.LaidOut (t t' : Tree) (zone start : Nat) (text : List Char) (s : Store)
    (written : List WrittenPage) : Prop where
  writes : s.Writes zone t.root t'.root written
  text_eq : text = written.flatMap WrittenPage.text
  found : ∀ w ∈ written, w.FoundIn zone start text
  ascending : (written.map fun w => w.ref.base).Pairwise (· < ·)
  lines : text.splitOn '\n' = (written.map fun w => w.page.render) ++ [[]]

theorem Placed.foundIn {start : Nat} {written : List WrittenPage}
    (hplaced : Placed zone start written) (hzone : 0 < zone) {w : WrittenPage} (hw : w ∈ written) :
    w.FoundIn zone start (written.flatMap WrittenPage.text) := by
  obtain ⟨hlies, hprints⟩ := hplaced.prints hw
  have hcommitted := hlies.isCommitted hzone
  have hsize := hlies.size
  have hbase := hprints.base_lt
  have hpos := w.page.size_pos
  refine ⟨hcommitted, hlies.zone, by omega, by omega, ?_⟩
  rw [hsize]
  exact hprints.between?_toText

/-- Pages that follow one another end one after another. -/
theorem Placed.ascending {start : Nat} {written : List WrittenPage}
    (hplaced : Placed zone start written) :
    (written.map fun w => w.ref.base).Pairwise (· < ·) := by
  induction written generalizing start with
  | nil => exact .nil
  | cons w rest ih =>
      obtain ⟨hlies, hrest⟩ := hplaced
      refine .cons ?_ (ih hrest)
      rw [List.forall_mem_map]
      intro w' hw'
      have hafter := (hrest.prints hw').2.base_lt
      have hbase := hlies.base
      have htext : Text.byteLength w.text = w.page.size + 1 := Text.byteLength_append ..
      show w.ref.base < w'.ref.base
      omega

/-- The references of a tree have their places once the tree has been committed. -/
theorem Tree.exec_withCommittedRoot (t : Tree) {root : PageRef} (s : Store)
    (hsame : root.same t.root = true → root = t.root) :
    ∃ t', exec (t.withCommittedRoot root) s = (.ok t', s) ∧ t'.root = root := by
  unfold withCommittedRoot
  split
  · next hid => exact ⟨t, rfl, (hsame hid).symm⟩
  · exact ⟨_, rfl, rfl⟩

/-- The diff of a tree whose pages can be written is built of their texts. -/
theorem Tree.buildDiff_writes (t : Tree) (s : Store) (zone start : Nat)
    (hpending : s.Pending version t.root) :
    ∃ t' s' written,
      exec (t.buildDiff zone start version) s =
          (.ok (String.ofList (written.flatMap WrittenPage.text), t'), s') ∧
        s.Keeps s' ∧ Placed zone start written ∧ s'.Writes zone t.root t'.root written := by
  obtain ⟨root, s', written, hexec, hext, hplaced, hwrites, hsame⟩ :=
    PageRef.commitWithin_appends (.start zone start version) (s.depthBound t.root)
      (Store.treeSize_lt_depthBound _ _) hpending (Nat.le_refl _)
  obtain ⟨t', hroot, rfl⟩ := t.exec_withCommittedRoot s' hsame
  refine ⟨t', s', written, ?_, hext.keeps, hplaced, hwrites⟩
  rw [buildDiff, exec_bind, exec_commitInto, hexec]
  dsimp only
  rw [exec_bind, hroot]
  dsimp only
  rw [exec_pure, DiffWriter.toText_appendAll_start]

/-- The diff of a tree has the uncommitted pages of the tree, children before parents, each on a line
of its own; the new references are to the places of these lines, and counting them first would
have given the same places. -/
theorem Tree.buildDiff_layout (t : Tree) (s : Store) (start : Nat) (hzone : 0 < zone)
    (hpending : s.Pending version t.root) :
    (∀ p : Page Header, Text.OneLine p.render) ∧
      ∃ text t' s' written,
        exec (t.buildDiff zone start version) s = (.ok (String.ofList text, t'), s') ∧
          exec (t.committed zone start version) s = (.ok t', s') ∧
          t.LaidOut t' zone start text s' written := by
  refine ⟨Page.oneLine_render, ?_⟩
  obtain ⟨t', s', written, hbuild, -, hplaced, hwrites⟩ := t.buildDiff_writes s zone start hpending
  refine ⟨_, t', s', written, hbuild, by rw [exec_committed, hbuild]; rfl, hwrites, rfl,
    fun w hw => hplaced.foundIn hzone hw, hplaced.ascending, ?_⟩
  have hlines := Text.splitOn_lines (List.forall_mem_map.2 fun (w : WrittenPage)
    (_ : w ∈ written) => Page.oneLine_render w.page)
  rwa [List.flatMap_map] at hlines

/-- A node over two leaves, the first of which is stored in a zone. -/
def Tree.halfCommitted : StoreM Tree := do
  let first ← PageRef.ofHeader .btree 1 ⟨2, 2, 40, 25, 26, 1, ⟨0⟩, ⟨0⟩, .absent⟩
  let second ← PageRef.ofPage ⟨1, 1, .btreeLeaf [(.int 2, .int 20)]⟩ .absent
  let root ← PageRef.ofPage ⟨1, 1, .btreeNode [(.int 1, first), (.int 2, second)]⟩ .absent
  return .ofRoot root ⟨.btree, 1, ⟨0⟩, ⟨0⟩⟩

/-- The leaf that is not stored yet and the node are written, to start at an offset of a zone. -/
theorem Tree.buildDiff_layout_half_committed :
    ∃ t s, exec halfCommitted (.create Settings.forTrials false ⟨0⟩) = (.ok t, s) ∧ 0 < 3 ∧
      s.Pending 1 t.root ∧ ∃ text t' s' written,
        String.ofList text = "@bleaf(stem:1,v:1)\x7b2:20\x7d\n" ++ "@bnode(stem:1,v:1)\x7b" ++
          "1:@page(zone:2,base:40,size:25,area:26,span:1)," ++
          "2:@page(zone:3,base:124,size:24,area:25,span:1)\x7d\n" ∧
          exec (t.buildDiff 3 100 1) s = (.ok (String.ofList text, t'), s') ∧
          exec (t.committed 3 100 1) s = (.ok t', s') ∧ t.LaidOut t' 3 100 text s' written := by
  have hpending : ∃ t s, exec halfCommitted (.create Settings.forTrials false ⟨0⟩) = (.ok t, s) ∧
      s.Pending 1 t.root := by
    refine ⟨_, _, rfl, .pending rfl rfl rfl (Nat.le_refl 1) fun m hm => ?_⟩
    rcases List.mem_cons.1 hm with rfl | hm
    · exact .settled rfl
    · rw [List.mem_singleton.1 hm]
      exact .pending rfl rfl rfl (Nat.le_refl 1) nofun
  obtain ⟨t, s, hexec, hpending⟩ := hpending
  obtain ⟨-, text, t', s', written, hbuild, hcount, hlaid⟩ :=
    buildDiff_layout t s 100 (show 0 < 3 by decide) hpending
  refine ⟨t, s, hexec, by decide, hpending, text, t', s', written, ?_, hbuild, hcount, hlaid⟩
  have hread : (exec (do return (← (← halfCommitted).buildDiff 3 100 1).1)
      (.create Settings.forTrials false ⟨0⟩)).1 =
        .ok ("@bleaf(stem:1,v:1)\x7b2:20\x7d\n" ++ "@bnode(stem:1,v:1)\x7b" ++
          "1:@page(zone:2,base:40,size:25,area:26,span:1)," ++
          "2:@page(zone:3,base:124,size:24,area:25,span:1)\x7d\n") := by
    decide +kernel
  rw [exec_bind, hexec] at hread
  simp only [exec_bind, hbuild] at hread
  exact Except.ok.inj hread

end PageTree
