import PageTree.Proofs.Chart
import PageTree.Store.Zones

/-!
# Stores as a chart has them

`Mirrors s c` says that the memory of a store agrees with a chart: a page held under a
reference is the page that the chart gives the reference, the references of its children are in
use too, and a page without a place in a zone is held strongly.  Whatever memory has let go of
can then only be a page that lies in a zone.  `Backed z c` says that zones have the texts of the
filed pages, as far as the zones have been kept, and `Represents s c` is both.
-/

namespace PageTree

/-! ## Cells -/

namespace Store

/-- The store with one more cell. -/
def pushCell (s : Store) (cell : Cell) : Store :=
  { s with cells := s.cells.push cell }

/-- The store with the cell of an identity changed. -/
def modifyCell (s : Store) (id : Nat) (f : Cell → Cell) : Store :=
  { s with cells := s.cells.modify id f }

variable (s : Store)

theorem cell_pushCell (cell : Cell) (id : Nat) :
    (s.pushCell cell).cell id = if id = s.cells.size then cell else s.cell id := by
  unfold Store.cell pushCell
  simp only [Array.getD_eq_getD_getElem?, Array.getElem?_push]
  split <;> simp

@[simp] theorem cell_pushCell_self (cell : Cell) :
    (s.pushCell cell).cell s.cells.size = cell := by
  simp [cell_pushCell]

theorem cell_pushCell_of_lt (cell : Cell) {id : Nat} (hlt : id < s.cells.size) :
    (s.pushCell cell).cell id = s.cell id := by
  rw [cell_pushCell, if_neg (Nat.ne_of_lt hlt)]

@[simp] theorem size_pushCell (cell : Cell) :
    (s.pushCell cell).cells.size = s.cells.size + 1 := by
  simp [pushCell]

theorem cell_modifyCell_self (f : Cell → Cell) {id : Nat} (hlt : id < s.cells.size) :
    (s.modifyCell id f).cell id = f (s.cell id) := by
  simp [Store.cell, modifyCell, Array.getElem_modify, hlt]

theorem cell_modifyCell_of_ne (f : Cell → Cell) {id id' : Nat} (hne : id' ≠ id) :
    (s.modifyCell id f).cell id' = s.cell id' := by
  simp [Store.cell, modifyCell, Array.getElem?_modify, hne.symm]

@[simp] theorem size_modifyCell (id : Nat) (f : Cell → Cell) :
    (s.modifyCell id f).cells.size = s.cells.size := by
  simp [modifyCell]

/-- References with one identity lead to one cell. -/
theorem hold_eq_of_id {r k : PageRef} (hid : k.id = r.id) : s.hold k = s.hold r :=
  congrArg (fun id => (s.cell id).hold) hid

theorem hold_modifyCell_of_eq (f : Cell → Cell) {r k : PageRef} (hid : k.id = r.id)
    (hlt : r.id < s.cells.size) : (s.modifyCell r.id f).hold k = (f (s.cell r.id)).hold := by
  rw [hold_eq_of_id _ hid]
  exact congrArg Cell.hold (s.cell_modifyCell_self f hlt)

theorem hold_modifyCell_of_ne (f : Cell → Cell) {r k : PageRef} (hne : k.id ≠ r.id) :
    (s.modifyCell r.id f).hold k = s.hold k :=
  congrArg Cell.hold (s.cell_modifyCell_of_ne f hne)

/-- A reference to a page that memory has lost is not one of those that it has pages of. -/
theorem id_ne_of_absent {r k : PageRef} {copy : PageCopy} (habsent : (s.hold r).copy? = none)
    (hcopy : (s.hold k).copy? = some copy) : k.id ≠ r.id := by
  intro hid
  rw [s.hold_eq_of_id hid, habsent] at hcopy
  cases hcopy

/-- The bound that descents take is deep enough for the tree. -/
theorem treeSize_lt_depthBound (r : PageRef) : r.treeSize < s.depthBound r := by
  unfold depthBound
  omega

end Store

/-! ## What memory goes on to hold -/

namespace Store

variable {s s' s'' : Store} {r : PageRef} {copy : PageCopy}

/-- What is in memory is a cell of the store. -/
theorem lt_of_copy (hcopy : (s.hold r).copy? = some copy) : r.id < s.cells.size := by
  by_cases hlt : r.id < s.cells.size
  · exact hlt
  · have habsent : s.hold r = .unloaded := by
      simp [Store.hold, Store.cell, Array.getD_eq_getD_getElem?, hlt]
    rw [habsent] at hcopy
    cases hcopy

/-- What is in memory stays there, held as it was. -/
def Keeps (s s' : Store) : Prop :=
  ∀ r copy, (s.hold r).copy? = some copy → s'.hold r = s.hold r

namespace Keeps

theorem refl (s : Store) : s.Keeps s :=
  fun _ _ _ => rfl

theorem trans (hkeeps : s.Keeps s') (hkeeps' : s'.Keeps s'') : s.Keeps s'' := by
  intro r copy hcopy
  have hsame := hkeeps r copy hcopy
  rw [hkeeps' r copy (by rw [hsame, hcopy]), hsame]

theorem of_cells_eq (hcells : s'.cells = s.cells) : s.Keeps s' := by
  intro r copy _
  simp only [Store.hold, Store.cell, hcells]

theorem pushCell (s : Store) (cell : Cell) : s.Keeps (s.pushCell cell) := by
  intro r copy hcopy
  rw [Store.hold, s.cell_pushCell_of_lt cell (lt_of_copy hcopy), Store.hold]

theorem copies (hkeeps : s.Keeps s') (hcopy : (s.hold r).copy? = some copy) :
    (s'.hold r).copy? = some copy := by
  rw [hkeeps r copy hcopy, hcopy]

theorem strong (hkeeps : s.Keeps s') (hhold : s.hold r = .strong copy) :
    s'.hold r = .strong copy := by
  rw [hkeeps r copy (by rw [hhold]; rfl), hhold]

end Keeps
end Store

/-! ## Agreement -/

/-- All pages in use are in memory. -/
def Resident (s : Store) (c : Chart) : Prop :=
  ∀ r, c.refs r → (s.hold r).copy?.isSome

/-- The memory of a store agrees with a chart. -/
structure Mirrors (s : Store) (c : Chart) : Prop where
  /-- A reference in use has a cell. -/
  allocated : ∀ r, c.refs r → r.id < s.cells.size
  /-- A live site has a cell. -/
  charted : ∀ id p, c.live id = some p → id < s.cells.size
  /-- No two references in use share an identity. -/
  unique : ∀ r r', c.refs r → c.refs r' → r.id = r'.id → r = r'
  /-- A reference in use is the root of a tree. -/
  sound : ∀ r, c.refs r → c.Sound r.site
  /-- A reference is of the kind and the stem of its page. -/
  fits : ∀ r p, c.refs r → c.page r.site = some p → r.tree = p.treeKind ∧ r.stem = p.stem
  /-- Nothing is to be written of a committed page. -/
  settled : ∀ r, c.refs r → r.isCommitted = true → r.diffSize = 0
  /-- What memory holds is the page, and its children are in use. -/
  held : ∀ r copy, c.refs r → (s.hold r).copy? = some copy →
    c.page r.site = some (copy.page.map PageRef.site) ∧ ∀ m ∈ copy.page.children, c.refs m
  /-- A page that has no place in a zone is held strongly. -/
  strong : ∀ r, c.refs r → r.isCommitted = false → ∃ copy, s.hold r = .strong copy
  /-- A version that memory has kept is that of the page. -/
  dated : ∀ r v p, c.refs r → (s.cell r.id).version = some v → c.page r.site = some p →
    p.version = v

namespace Mirrors

variable {s s' : Store} {c : Chart}

/-- Only the cells of a store matter. -/
theorem of_cells_eq (hrep : Mirrors s c) (hcells : s'.cells = s.cells) : Mirrors s' c := by
  have hcell : ∀ id, s'.cell id = s.cell id := fun id => by simp only [Store.cell, hcells]
  have hhold : ∀ r, s'.hold r = s.hold r := fun r => by simp only [Store.hold, hcell]
  exact { hrep with
    allocated := by simpa only [hcells] using hrep.allocated
    charted := by simpa only [hcells] using hrep.charted
    held := by simpa only [hhold] using hrep.held
    strong := by simpa only [hhold] using hrep.strong
    dated := by simpa only [hcell] using hrep.dated }

/-- A page that is not in memory is committed. -/
theorem committed_of_absent (hrep : Mirrors s c) {r : PageRef} (hr : c.refs r)
    (habsent : (s.hold r).copy? = none) : r.isCommitted = true := by
  cases huncommitted : r.isCommitted with
  | true => rfl
  | false =>
      obtain ⟨copy, hcopy⟩ := hrep.strong r hr huncommitted
      rw [hcopy] at habsent
      cases habsent

/-- The page of a reference in use. -/
theorem page (hrep : Mirrors s c) {r : PageRef} (hr : c.refs r) :
    ∃ p, c.page r.site = some p :=
  (hrep.sound r hr).page

/-- Something is to be written of just the pages that have no place in a zone. -/
theorem diffSize_eq_zero_iff (hrep : Mirrors s c) {r : PageRef} (hr : c.refs r) :
    r.diffSize = 0 ↔ r.isCommitted = true := by
  refine ⟨fun hzero => ?_, hrep.settled r hr⟩
  cases hcommitted : r.isCommitted with
  | true => rfl
  | false =>
      obtain ⟨p, hp⟩ := hrep.page hr
      have hfits := (hrep.sound r hr).fits hp
      rw [PageRef.site_of_uncommitted hcommitted] at hfits
      obtain ⟨-, -, -, hsize⟩ := hfits
      omega

end Mirrors

/-- Agreement does not depend on what else is filed, nor on what other foldings there are. -/
theorem Mirrors.of_le {s : Store} {c c' : Chart} (hrep : Mirrors s c) (hle : c ≤ c')
    (hrefs : c'.refs = c.refs) (hlive : c'.live = c.live) : Mirrors s c' := by
  have hpage : ∀ r p, c.refs r → c'.page r.site = some p → c.page r.site = some p := by
    intro r p hr hp
    obtain ⟨q, hq⟩ := hrep.page hr
    rw [Chart.page_mono hle hq] at hp
    rw [hq, hp]
  exact {
    allocated := hrefs ▸ hrep.allocated
    charted := hlive ▸ hrep.charted
    unique := hrefs ▸ hrep.unique
    sound := hrefs ▸ fun r hr => (hrep.sound r hr).mono hle
    fits := hrefs ▸ fun r p hr hp => hrep.fits r p hr (hpage r p hr hp)
    settled := hrefs ▸ hrep.settled
    held := by
      rw [hrefs]
      intro r copy hr hcopy
      obtain ⟨hp, hchildren⟩ := hrep.held r copy hr hcopy
      exact ⟨Chart.page_mono hle hp, hchildren⟩
    strong := hrefs ▸ hrep.strong
    dated := hrefs ▸ fun r v p hr hv hp => hrep.dated r v p hr hv (hpage r p hr hp) }

/-- The zones that are kept have the texts of the filed pages. -/
structure Backed (z : Zones) (c : Chart) : Prop where
  /-- Pages are filed in zones that have been started. -/
  started : ∀ zone base p, c.filed zone base = some p → zone ≤ z.active
  /-- The text of a page ends where it is filed. -/
  kept : ∀ zone base p text, c.filed zone base = some p → z.text? zone = some text →
    base ≤ text.utf8ByteSize ∧ p.size ≤ base ∧
      Text.between? (base - p.size) base text = some p.toText

/-- A store agrees with a chart. -/
structure Represents (s : Store) (c : Chart) : Prop extends Mirrors s c where
  backed : Backed s.zones c

/-- The chart with more foldings. -/
def Chart.allow (c : Chart) (foldings : PageRef.Folding → Prop) : Chart :=
  { c with foldings := fun f => c.foldings f ∨ foldings f }

theorem Chart.le_allow (c : Chart) (foldings : PageRef.Folding → Prop) : c ≤ c.allow foldings :=
  ⟨fun _ hr => hr, fun _ _ hp => hp, fun _ _ _ hp => hp, fun _ hf => Or.inl hf⟩

theorem Represents.allow {s : Store} {c : Chart} (hrep : Represents s c)
    (foldings : PageRef.Folding → Prop) : Represents s (c.allow foldings) :=
  ⟨hrep.toMirrors.of_le (c.le_allow foldings) rfl rfl, hrep.backed.started, hrep.backed.kept⟩

theorem Represents.of_cells_eq {s s' : Store} {c : Chart} (hrep : Represents s c)
    (hcells : s'.cells = s.cells) (hzones : s'.zones = s.zones) : Represents s' c :=
  ⟨hrep.toMirrors.of_cells_eq hcells, hzones ▸ hrep.backed⟩

/-- The chart of a store whose references are not in use. -/
def Chart.blank : Chart := ⟨fun _ => False, fun _ => none, fun _ _ => none, fun _ => False⟩

theorem represents_blank (s : Store) : Represents s .blank := by
  refine ⟨⟨?_, ?_, ?_, ?_, ?_, ?_, ?_, ?_, ?_⟩, ?_, ?_⟩
  all_goals
    intros
    simp_all [Chart.blank]

/-! ## What memory holds of a committed page -/

/-- Memory may come to hold a committed page otherwise, or let it go.  Only the cell of that
reference changes, since no other in use has its identity. -/
theorem Represents.modifyCell {s : Store} {c : Chart} (hrep : Represents s c) {r : PageRef}
    (hr : c.refs r) (hcommitted : r.isCommitted = true) (f : Cell → Cell)
    (hheld : ∀ copy, (f (s.cell r.id)).hold.copy? = some copy →
      c.page r.site = some (copy.page.map PageRef.site) ∧ ∀ m ∈ copy.page.children, c.refs m)
    (hdated : ∀ v p, (f (s.cell r.id)).version = some v → c.page r.site = some p →
      p.version = v) : Represents (s.modifyCell r.id f) c := by
  have hlt := hrep.allocated r hr
  have hself : (s.modifyCell r.id f).cell r.id = f (s.cell r.id) := s.cell_modifyCell_self f hlt
  have hother : ∀ r', c.refs r' → r' ≠ r → (s.modifyCell r.id f).cell r'.id = s.cell r'.id :=
    fun r' hr' hne => s.cell_modifyCell_of_ne f fun heq => hne (hrep.unique r' r hr' hr heq)
  exact { hrep with
    allocated := by simpa using hrep.allocated
    charted := by simpa using hrep.charted
    held := by
      intro r' copy hr' hcopy
      by_cases heq : r' = r
      · subst heq
        rw [Store.hold, hself] at hcopy
        exact hheld copy hcopy
      · rw [Store.hold, hother r' hr' heq] at hcopy
        exact hrep.held r' copy hr' hcopy
    strong := by
      intro r' hr' huncommitted
      have hne : r' ≠ r := by
        rintro rfl
        rw [hcommitted] at huncommitted
        cases huncommitted
      rw [Store.hold, hother r' hr' hne]
      exact hrep.strong r' hr' huncommitted
    dated := by
      intro r' v p hr' hv hp
      by_cases heq : r' = r
      · subst heq
        rw [hself] at hv
        exact hdated v p hv hp
      · rw [hother r' hr' heq] at hv
        exact hrep.dated r' v p hr' hv hp }

/-! ## A new reference -/

namespace Chart

/-- The chart with a new reference to a page. -/
def add (c : Chart) (r : PageRef) (p : Page Site) : Chart where
  refs r' := c.refs r' ∨ r' = r
  live id := if id = r.id then some p else c.live id
  filed := c.filed
  foldings := c.foldings

variable {c : Chart} {r : PageRef} {p : Page Site}

theorem le_add (hfresh : c.live r.id = none) : c ≤ c.add r p := by
  refine ⟨fun r' hr' => Or.inl hr', fun id q hq => ?_, fun z b q hq => hq, fun f hf => hf⟩
  have hne : id ≠ r.id := by
    rintro rfl
    rw [hfresh] at hq
    cases hq
  simpa only [add, if_neg hne] using hq

@[simp] theorem refs_add : (c.add r p).refs r :=
  Or.inr rfl

@[simp] theorem filed_add : (c.add r p).filed = c.filed := rfl

theorem page_add_live (hsite : r.isCommitted = false) : (c.add r p).page r.site = some p := by
  rw [PageRef.site_of_uncommitted hsite]
  exact if_pos rfl

end Chart

/-- What a new reference has to have so that memory and chart go on to agree. -/
structure PageRef.Admissible (r : PageRef) (cell : Cell) (s : Store) (c : Chart)
    (p : Page Site) : Prop where
  id_eq : r.id = s.cells.size
  tree : r.tree = p.treeKind
  stem : r.stem = p.stem
  described : r.header.Describes (p.map Site.header)
  folded : c.Folds p r.fold
  covers : ∀ m ∈ p.children, ∃ q, c.page m = some q ∧ p.Covers q
  beneath : ∀ m ∈ p.children, c.Sound m
  filed : r.isCommitted = true → c.page r.site = some p ∧ r.diffSize = 0
  unfiled : r.isCommitted = false →
    r.diffSize = r.header.size + 1 + (p.children.map Site.pending).sum ∧
      ∃ copy, cell.hold = .strong copy
  held : ∀ copy, cell.hold.copy? = some copy →
    p = copy.page.map PageRef.site ∧ ∀ m ∈ copy.page.children, c.refs m
  dated : ∀ v, cell.version = some v → p.version = v

namespace Mirrors

variable {s : Store} {c : Chart} {r : PageRef} {cell : Cell} {p : Page Site}

theorem live_fresh (hrep : Mirrors s c) (hid : r.id = s.cells.size) : c.live r.id = none := by
  cases hlive : c.live r.id with
  | none => rfl
  | some q =>
      have := hrep.charted _ _ hlive
      omega

theorem page_add (hrep : Mirrors s c) (hadm : r.Admissible cell s c p) :
    (c.add r p).page r.site = some p := by
  cases hcommitted : r.isCommitted with
  | true =>
      exact Chart.page_mono (Chart.le_add (hrep.live_fresh hadm.id_eq)) (hadm.filed hcommitted).1
  | false => exact Chart.page_add_live hcommitted

theorem sound_add (hrep : Mirrors s c) (hadm : r.Admissible cell s c p) :
    (c.add r p).Sound r.site := by
  have hle : c ≤ c.add r p := Chart.le_add (hrep.live_fresh hadm.id_eq)
  have hfolded : (c.add r p).Folds p r.site.header.fold := by
    rw [PageRef.header_site]
    exact hadm.folded.mono hle
  refine .intro (hrep.page_add hadm) (by simpa using hadm.described) ?_ hfolded ?_ ?_
  · cases hcommitted : r.isCommitted with
    | true =>
        rw [PageRef.site_of_committed hcommitted]
        exact hcommitted
    | false =>
        rw [PageRef.site_of_uncommitted hcommitted]
        exact ⟨hcommitted, hadm.tree, hadm.stem, (hadm.unfiled hcommitted).1⟩
  · intro m hm
    obtain ⟨q, hq, hcovers⟩ := hadm.covers m hm
    exact ⟨q, Chart.page_mono hle hq, hcovers⟩
  · intro m hm
    exact (hadm.beneath m hm).mono hle

/-- A reference with a new cell can be taken into use. -/
theorem add (hrep : Mirrors s c) (hadm : r.Admissible cell s c p) :
    Mirrors (s.pushCell cell) (c.add r p) := by
  have hle : c ≤ c.add r p := Chart.le_add (hrep.live_fresh hadm.id_eq)
  have hpage := hrep.page_add hadm
  -- an old reference keeps its cell and its page, so each fact about it carries over
  have hcell : ∀ r', c.refs r' → (s.pushCell cell).cell r'.id = s.cell r'.id := fun r' hr' =>
    s.cell_pushCell_of_lt cell (hrep.allocated r' hr')
  have hhold : ∀ r', c.refs r' → (s.pushCell cell).hold r' = s.hold r' := fun r' hr' => by
    simp only [Store.hold, hcell r' hr']
  have hself : (s.pushCell cell).cell r.id = cell := by
    rw [hadm.id_eq, Store.cell_pushCell_self]
  have hback : ∀ r' q, c.refs r' → (c.add r p).page r'.site = some q →
      c.page r'.site = some q := by
    intro r' q hr' hq
    obtain ⟨q', hq'⟩ := hrep.page hr'
    rw [Chart.page_mono hle hq'] at hq
    rw [hq', hq]
  exact {
    allocated := by
      rintro r' (hr' | rfl)
      · exact Nat.lt_of_lt_of_le (hrep.allocated r' hr') (by simp)
      · simp [hadm.id_eq]
    charted := by
      intro id q hq
      simp only [Chart.add] at hq
      split at hq
      · next heq => simp [heq, hadm.id_eq]
      · exact Nat.lt_of_lt_of_le (hrep.charted id q hq) (by simp)
    unique := by
      rintro r₁ r₂ (h₁ | rfl) (h₂ | rfl) heq
      · exact hrep.unique r₁ r₂ h₁ h₂ heq
      · exact absurd (heq.trans hadm.id_eq) (Nat.ne_of_lt (hrep.allocated r₁ h₁))
      · exact absurd (heq.symm.trans hadm.id_eq) (Nat.ne_of_lt (hrep.allocated r₂ h₂))
      · rfl
    sound := by
      rintro r' (hr' | rfl)
      · exact (hrep.sound r' hr').mono hle
      · exact hrep.sound_add hadm
    fits := by
      rintro r' q (hr' | rfl) hq
      · exact hrep.fits r' q hr' (hback r' q hr' hq)
      · rw [hpage] at hq
        cases hq
        exact ⟨hadm.tree, hadm.stem⟩
    settled := by
      rintro r' (hr' | rfl) hcommitted
      · exact hrep.settled r' hr' hcommitted
      · exact (hadm.filed hcommitted).2
    held := by
      rintro r' copy (hr' | rfl) hcopy
      · rw [hhold r' hr'] at hcopy
        obtain ⟨hheld, hchildren⟩ := hrep.held r' copy hr' hcopy
        exact ⟨Chart.page_mono hle hheld, fun m hm => Or.inl (hchildren m hm)⟩
      · rw [Store.hold, hself] at hcopy
        obtain ⟨rfl, hchildren⟩ := hadm.held copy hcopy
        exact ⟨hpage, fun m hm => Or.inl (hchildren m hm)⟩
    strong := by
      rintro r' (hr' | rfl) huncommitted
      · rw [hhold r' hr']
        exact hrep.strong r' hr' huncommitted
      · rw [Store.hold, hself]
        exact (hadm.unfiled huncommitted).2
    dated := by
      rintro r' v q (hr' | rfl) hv hq
      · rw [hcell r' hr'] at hv
        exact hrep.dated r' v q hr' hv (hback r' q hr' hq)
      · rw [hself] at hv
        rw [hpage] at hq
        cases hq
        exact hadm.dated v hv }

end Mirrors

/-- All pages stay in memory if that of a new reference is there. -/
theorem Resident.add {s : Store} {c : Chart} {r : PageRef} {cell : Cell} {p : Page Site}
    (hall : Resident s c) (hrep : Mirrors s c) (hid : r.id = s.cells.size)
    (hcell : cell.hold.copy?.isSome) : Resident (s.pushCell cell) (c.add r p) := by
  rintro r' (hr' | rfl)
  · rw [Store.hold, s.cell_pushCell_of_lt cell (hrep.allocated r' hr')]
    exact hall r' hr'
  · rw [Store.hold, hid, Store.cell_pushCell_self]
    exact hcell

/-- A reference with a new cell can be taken into use. -/
theorem Represents.add {s : Store} {c : Chart} {r : PageRef} {cell : Cell} {p : Page Site}
    (hrep : Represents s c) (hadm : r.Admissible cell s c p) :
    Represents (s.pushCell cell) (c.add r p) :=
  ⟨hrep.toMirrors.add hadm, hrep.backed.started, hrep.backed.kept⟩

end PageTree
