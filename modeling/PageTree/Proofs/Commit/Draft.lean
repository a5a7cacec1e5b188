import PageTree.Proofs.Commit.Printing
import PageTree.Proofs.Loading

/-!
# A diff in the making

While a diff is written, its pages have places already but no text in a zone yet.  `Draft` says
what holds in between: memory agrees with a chart in which these pages are filed, and each of
them stands in the text of the diff.  `Lays` is the judgment of a step that writes on; such a
step never fails.
-/

namespace PageTree

open StoreM

variable {α β γ : Type}

/-! ## Memory that is only added to -/

/-- A store with the same cells and more. -/
structure Store.Extends (s s' : Store) : Prop where
  size : s.cells.size ≤ s'.cells.size
  cells : ∀ id, id < s.cells.size → s'.cell id = s.cell id
  rest : s' = { s with cells := s'.cells, nextSerial := s'.nextSerial }

namespace Store.Extends

variable {s s' s'' : Store}

theorem refl (s : Store) : s.Extends s :=
  ⟨Nat.le_refl _, fun _ _ => rfl, rfl⟩

theorem trans (hext : s.Extends s') (hext' : s'.Extends s'') : s.Extends s'' := by
  refine ⟨Nat.le_trans hext.size hext'.size, ?_, ?_⟩
  · intro id hlt
    rw [hext'.cells id (Nat.lt_of_lt_of_le hlt hext.size), hext.cells id hlt]
  · have hrest := hext'.rest
    rw [hext.rest] at hrest
    exact hrest

theorem copyOf (page : LivePage) (s : Store) : s.Extends (exec (PageRef.copyOf page) s).2 :=
  ⟨Nat.le_refl _, fun _ _ => rfl, rfl⟩

theorem pushCell (s : Store) (cell : Cell) : s.Extends (s.pushCell cell) :=
  ⟨by simp, fun _ hlt => s.cell_pushCell_of_lt cell hlt, rfl⟩

theorem hold_eq (hext : s.Extends s') {r : PageRef} (hlt : r.id < s.cells.size) :
    s'.hold r = s.hold r := by
  rw [Store.hold, hext.cells _ hlt, Store.hold]

end Store.Extends

/-! ## Drafts -/

/-- A diff that starts at an offset of a zone, together with the store and the chart of the
pages written so far.  The chart before the diff has all other pages. -/
structure Draft (old : Chart) (start : Nat) (s : Store) (c : Chart) (diff : Diff) : Prop where
  mirrors : Mirrors s c
  le : old ≤ c
  zone : 0 < diff.zone
  offset : diff.offset = start + Text.byteLength diff.chars
  older : ∀ b p, old.filed diff.zone b = some p → b ≤ start
  printed : ∀ z b p, c.filed z b = some p →
    old.filed z b = some p ∨ z = diff.zone ∧ Diff.Prints start diff.chars b p

/-- What a step makes of a draft. -/
structure Draft.Leads (old : Chart) (start : Nat) (s : Store) (c : Chart) (diff : Diff)
    (s' : Store) (c' : Chart) (diff' : Diff) : Prop where
  draft : Draft old start s' c' diff'
  le : c ≤ c'
  foldings : c'.foldings = c.foldings
  memory : s.Extends s'
  resident : Resident s c → Resident s' c'
  zone : diff'.zone = diff.zone
  version : diff'.version = diff.version
  chars : diff.chars <+: diff'.chars

section Draft

variable {old : Chart} {start : Nat} {s s' s'' : Store} {c c' c'' : Chart}
  {diff diff' diff'' : Diff}

namespace Draft.Leads

theorem refl (hdraft : Draft old start s c diff) : Leads old start s c diff s c diff :=
  ⟨hdraft, Chart.le_refl c, rfl, .refl s, id, rfl, rfl, List.prefix_refl _⟩

theorem trans (hleads : Leads old start s c diff s' c' diff')
    (hleads' : Leads old start s' c' diff' s'' c'' diff'') :
    Leads old start s c diff s'' c'' diff'' where
  draft := hleads'.draft
  le := Chart.le_trans hleads.le hleads'.le
  foldings := hleads'.foldings.trans hleads.foldings
  memory := hleads.memory.trans hleads'.memory
  resident hall := hleads'.resident (hleads.resident hall)
  zone := hleads'.zone.trans hleads.zone
  version := hleads'.version.trans hleads.version
  chars := hleads.chars.trans hleads'.chars

end Draft.Leads

/-- No page is filed at the end of what has been written. -/
theorem Draft.fresh (hdraft : Draft old start s c diff) {base : Nat} (hlt : diff.offset < base) :
    c.filed diff.zone base = none := by
  cases hfiled : c.filed diff.zone base with
  | none => rfl
  | some p =>
      have hoffset := hdraft.offset
      rcases hdraft.printed _ _ _ hfiled with hold | ⟨-, hprints⟩
      · have := hdraft.older _ _ hold
        omega
      · have := hprints.base_lt
        omega

/-! ## Judgments -/

/-- The step succeeds, and what it makes of the draft has a property. -/
def Lays (m : StateT Diff StoreM α) (old : Chart) (start : Nat) (s : Store) (c : Chart)
    (diff : Diff) (post : α → Store → Chart → Diff → Prop) : Prop :=
  ∃ a s' c' diff', exec (m.run diff) s = (.ok (a, diff'), s') ∧
    Draft.Leads old start s c diff s' c' diff' ∧ post a s' c' diff'

namespace Lays

variable {P : α → Store → Chart → Diff → Prop} {Q : β → Store → Chart → Diff → Prop}

protected theorem pure (hdraft : Draft old start s c diff) {a : α} (hpost : P a s c diff) :
    Lays (pure a) old start s c diff P :=
  ⟨a, s, c, diff, rfl, .refl hdraft, hpost⟩

protected theorem bind {m : StateT Diff StoreM α} {f : α → StateT Diff StoreM β}
    (hm : Lays m old start s c diff P)
    (hf : ∀ a s' c' diff', Draft.Leads old start s c diff s' c' diff' → P a s' c' diff' →
      Lays (f a) old start s' c' diff' Q) : Lays (m >>= f) old start s c diff Q := by
  obtain ⟨a, s', c', diff', hexec, hleads, hpost⟩ := hm
  obtain ⟨b, s'', c'', diff'', hexec', hleads', hpost'⟩ := hf a s' c' diff' hleads hpost
  refine ⟨b, s'', c'', diff'', ?_, hleads.trans hleads', hpost'⟩
  rw [StateT.run_bind, exec_bind, hexec]
  exact hexec'

theorem mono {m : StateT Diff StoreM α} {P' : α → Store → Chart → Diff → Prop}
    (hm : Lays m old start s c diff P)
    (himp : ∀ a s' c' diff', Draft.Leads old start s c diff s' c' diff' → P a s' c' diff' →
      P' a s' c' diff') : Lays m old start s c diff P' := by
  obtain ⟨a, s', c', diff', hexec, hleads, hpost⟩ := hm
  exact ⟨a, s', c', diff', hexec, hleads, himp _ _ _ _ hleads hpost⟩

/-- Memory may be looked at. -/
protected theorem hold {r : PageRef} {f : Hold → StateT Diff StoreM β}
    (hf : Lays (f (s.hold r)) old start s c diff Q) :
    Lays ((liftM r.hold : StateT Diff StoreM Hold) >>= f) old start s c diff Q :=
  hf

/-- The diff may be looked at. -/
protected theorem get {f : Diff → StateT Diff StoreM β} (hf : Lays (f diff) old start s c diff Q) :
    Lays (get >>= f) old start s c diff Q :=
  hf

/-- A page may be given a number. -/
protected theorem copyOf (hdraft : Draft old start s c diff) (page : LivePage) :
    Lays (liftM (PageRef.copyOf page) : StateT Diff StoreM PageCopy) old start s c diff
      fun copy _ c' diff' => copy.page = page ∧ c' = c ∧ diff' = diff :=
  ⟨_, _, c, diff, rfl, ⟨{ hdraft with mirrors := hdraft.mirrors.of_cells_eq rfl },
    Chart.le_refl c, rfl, .copyOf page s, id, rfl, rfl, List.prefix_refl _⟩, rfl, rfl, rfl⟩

/-- What has newly been filed goes back to a result. -/
def Credits (F : β → Store → Nat → Nat → Page Header → Prop) (c : Chart) (bs : List β)
    (s' : Store) (c' : Chart) : Prop :=
  ∀ z o p, c'.filed z o = some p → c.filed z o = some p ∨ ∃ b ∈ bs, F b s' z o p

variable {R : α → β → Store → Chart → Diff → Prop}
  {F : β → Store → Nat → Nat → Page Header → Prop}

/-- A step on every item of a list, where what holds of a result goes on to hold. -/
theorem listMapM {f : α → StateT Diff StoreM β} (hdraft : Draft old start s c diff) (l : List α)
    (hstable : ∀ a b s c d s' c' d', Draft.Leads old start s c d s' c' d' → R a b s c d →
      R a b s' c' d')
    (hcredit : ∀ b s c d s' c' d' z o p, Draft.Leads old start s c d s' c' d' → F b s z o p →
      F b s' z o p)
    (hf : ∀ a ∈ l, ∀ s' c' d', Draft.Leads old start s c diff s' c' d' →
      Lays (f a) old start s' c' d' fun b s'' c'' d'' =>
        R a b s'' c'' d'' ∧ Credits F c' [b] s'' c'') :
    Lays (l.mapM f) old start s c diff fun bs s' c' d' =>
      List.Forall₂ (fun a b => R a b s' c' d') l bs ∧ Credits F c bs s' c' := by
  induction l generalizing s c diff with
  | nil => exact Lays.pure hdraft ⟨List.Forall₂.nil, fun _ _ _ hfiled => Or.inl hfiled⟩
  | cons a l ih =>
      rw [List.mapM_cons]
      refine Lays.bind (hf a List.mem_cons_self s c diff (.refl hdraft)) ?_
      rintro b s' c' d' hleads ⟨hb, hcredits⟩
      refine Lays.bind (ih hleads.draft ?_) ?_
      · intro a' ha' s'' c'' d'' hleads'
        exact hf a' (List.mem_cons_of_mem a ha') s'' c'' d'' (hleads.trans hleads')
      · rintro bs s'' c'' d'' hleads' ⟨hbs, hcredits'⟩
        refine Lays.pure hleads'.draft ⟨List.Forall₂.cons (hstable _ _ _ _ _ _ _ _ hleads' hb) hbs,
          ?_⟩
        intro z o p hfiled
        rcases hcredits' z o p hfiled with hfiled' | ⟨b', hb', hF⟩
        · rcases hcredits z o p hfiled' with hold | ⟨b', hb', hF⟩
          · exact Or.inl hold
          · exact Or.inr ⟨b', by simp_all, hcredit _ _ _ _ _ _ _ _ _ _ hleads' hF⟩
        · exact Or.inr ⟨b', List.mem_cons_of_mem b hb', hF⟩

/-- A step on every child of a page. -/
theorem mapChildren {f : γ → StateT Diff StoreM β} (hdraft : Draft old start s c diff)
    (page : Page γ) (version : Nat) {R : γ → β → Store → Chart → Diff → Prop}
    (hstable : ∀ a b s c d s' c' d', Draft.Leads old start s c d s' c' d' → R a b s c d →
      R a b s' c' d')
    (hcredit : ∀ b s c d s' c' d' z o p, Draft.Leads old start s c d s' c' d' → F b s z o p →
      F b s' z o p)
    (hf : ∀ a ∈ page.children, ∀ s' c' d', Draft.Leads old start s c diff s' c' d' →
      Lays (f a) old start s' c' d' fun b s'' c'' d'' =>
        R a b s'' c'' d'' ∧ Credits F c' [b] s'' c'') :
    Lays (page.mapChildren version f) old start s c diff fun page' s' c' d' =>
      page.Rebuilt (fun a b => R a b s' c' d') version page' ∧
        Credits F c page'.children s' c' := by
  rw [Page.mapChildren_eq]
  refine Lays.bind (listMapM hdraft page.children hstable hcredit hf) ?_
  rintro children s' c' d' hleads ⟨hall, hcredits⟩
  refine Lays.pure hleads.draft ⟨Page.rebuilt_withChildren version hall, ?_⟩
  rwa [Page.children_withChildren hall.length_eq]

end Lays
end Draft
end PageTree
