import PageTree.Proofs.Conduct.Cursors

/-!
# Which page an error is about

Wherever pages are loaded from, and however deep in a tree a load fails: an operation that fails
does so because of that load, in the store that the load has left, and its error is that of the
load.  If it is not fatal it is wrapped once, with the description of the reference whose page was
to be loaded, and nothing that goes on above that reference wraps it again
(`failed_loads_are_named_once`).
-/

namespace PageTree

open StoreM

variable {α ι : Type} {s s' s'' : Store} {rs rs' : List PageRef}

namespace StoreError

/-- A name that an error has got is the only one it gets. -/
theorem withPageRef_withPageRef (e : StoreError) (description description' : String) :
    (e.withPageRef description).withPageRef description' = e.withPageRef description := by
  cases e <;> rfl

/-- The error is not about a page that was to be loaded. -/
def IsPlain (e : StoreError) : Prop :=
  ∀ description source, e ≠ .pageLoad description source

theorem isPlain_closed : IsPlain .closed := nofun

theorem IsPlain.withPageRef {e : StoreError} (hplain : e.IsPlain) (description : String) :
    e.withPageRef description = if e.isFatal then e else .pageLoad description e := by
  cases e with
  | pageLoad description' source => exact absurd rfl (hplain description' source)
  | _ => rfl

end StoreError

/-! ## Errors of loaders -/

/-- The loader gives errors that do not name a page yet. -/
structure PageLoader.Plain [PageLoader] : Prop where
  start : ∀ isResident, FailsBy StoreError.IsPlain (PageLoader.start isResident)
  read : ∀ r, FailsBy StoreError.IsPlain (PageLoader.read r)

theorem PageRef.load_failsBy [PageLoader] (hplain : PageLoader.Plain) (r : PageRef) :
    FailsBy StoreError.IsPlain r.load := by
  refine .ite (.bind (.never fun _ => rfl) fun _ => .throw nofun) ?_
  refine .bind (hplain.read r) fun page => ?_
  exact .ite (.throw nofun) (.never fun _ => rfl)

/-- What cutting a text out of a zone may be refused for. -/
theorem Zones.slice_refusal {z : Zones} {zone base size : Nat} {e : StoreError}
    (hfailed : z.slice zone base size = .error e) :
    e = .closed ∨ e = .zoneNotFound zone ∨ e = .pageNotFound zone base := by
  cases hclosed : z.isClosed with
  | true =>
      simp only [slice, checkOpen, hclosed, if_true] at hfailed
      exact .inl (Except.error.inj hfailed).symm
  | false =>
      cases htext : z.text? zone with
      | none =>
          simp only [slice, checkOpen, hclosed, htext] at hfailed
          exact .inr (.inl (Except.error.inj hfailed).symm)
      | some text =>
          by_cases hbase : base < size
          · simp only [slice, checkOpen, hclosed, htext, if_pos hbase] at hfailed
            exact .inr (.inr (Except.error.inj hfailed).symm)
          · cases hbetween : Text.between? (base - size) base text with
            | some page =>
                simp only [slice, checkOpen, hclosed, htext, if_neg hbase, hbetween] at hfailed
                cases hfailed
            | none =>
                simp only [slice, checkOpen, hclosed, htext, if_neg hbase, hbetween] at hfailed
                exact .inr (.inr (Except.error.inj hfailed).symm)

theorem PageRef.plain_of_storedPage {z : Zones} {h : Header} {e : StoreError}
    (hfailed : storedPage z h = .error e) : e.IsPlain := by
  unfold storedPage at hfailed
  cases hslice : z.slice h.zone h.base h.size with
  | error e' =>
      rw [hslice] at hfailed
      cases hfailed
      rcases Zones.slice_refusal hslice with rfl | rfl | rfl
      · exact StoreError.isPlain_closed
      · exact nofun
      · exact nofun
  | ok text =>
      rw [hslice] at hfailed
      change Page.parse text = .error e at hfailed
      unfold Page.parse at hfailed
      cases hparse : Reading.page.parse text with
      | error e' =>
          rw [hparse] at hfailed
          cases hfailed
          exact nofun
      | ok page =>
          rw [hparse] at hfailed
          cases hfailed

theorem Zones.failsBy_checkOpen :
    FailsBy StoreError.IsPlain (ofZones Zones.checkOpen) := by
  intro s e s' hfailed
  rw [exec_ofZones, checkOpen] at hfailed
  cases hclosed : s.zones.isClosed with
  | true =>
      rw [hclosed] at hfailed
      cases hfailed
      exact StoreError.isPlain_closed
  | false =>
      rw [hclosed] at hfailed
      cases hfailed

theorem PageRef.failsBy_readPage (r : PageRef) : FailsBy StoreError.IsPlain r.readPage := by
  refine .bind (.never fun _ => rfl) fun strikes => .ite (.throw nofun) ?_
  refine .bind (.never fun _ => rfl) fun s => ?_
  cases hstored : storedPage s.zones r.header with
  | error e =>
      exact .bind (.never fun _ => rfl) fun _ => .throw (plain_of_storedPage hstored)
  | ok page =>
      exact .bind (.never fun _ => rfl) fun _ => .mapChildren (fun _ => .never fun _ => rfl) _ _

/-- Errors of zones do not name pages. -/
theorem PageLoader.zones_plain : PageLoader.Plain :=
  ⟨fun _ => Zones.failsBy_checkOpen, fun r => r.failsBy_readPage⟩

/-! ## The course of an operation -/

/-- Memory has been worked on, with nothing loaded and no page dropped. -/
structure Store.Tidies (s s' : Store) : Prop where
  zones : s'.zones = s.zones
  faults : s'.faults = s.faults
  loads : s'.stats.loads = s.stats.loads
  loadFailures : s'.stats.loadFailures = s.stats.loadFailures
  size : s.cells.size ≤ s'.cells.size
  copies : ∀ id < s.cells.size, (s'.cell id).hold.copy? = (s.cell id).hold.copy?

namespace Store.Tidies

theorem hit (s : Store) : s.Tidies (exec PageRef.countHit s).2 :=
  ⟨rfl, rfl, rfl, rfl, Nat.le_refl _, fun _ _ => rfl⟩

theorem pushCell (s : Store) (cell : Cell) : s.Tidies (s.pushCell cell) :=
  ⟨rfl, rfl, rfl, rfl, by simp, fun _ hid =>
    congrArg (fun cell : Cell => cell.hold.copy?) (s.cell_pushCell_of_lt cell hid)⟩

theorem copyOf (s : Store) (page : LivePage) : s.Tidies (exec (PageRef.copyOf page) s).2 :=
  ⟨rfl, rfl, rfl, rfl, Nat.le_refl _, fun _ _ => rfl⟩

/-- A page in memory is held strongly from now on. -/
theorem strengthen {r : PageRef} {copy : PageCopy} (hcopy : (s.hold r).copy? = some copy) :
    s.Tidies (s.modifyCell r.id fun cell => { cell with hold := .strong copy }) := by
  refine ⟨rfl, rfl, rfl, rfl, by simp, fun id hid => ?_⟩
  by_cases heq : id = r.id
  · subst heq
    rw [s.cell_modifyCell_self _ hid]
    exact hcopy.symm
  · rw [s.cell_modifyCell_of_ne _ heq]

end Store.Tidies

section Course

variable [PageLoader]

/-- The page is not in memory, and this comes of loading it: with a loader that is opened for it,
or with one that has been opened for the whole tree. -/
structure PageRef.Loads (r : PageRef) (s : Store) (result : Except StoreError PageCopy)
    (s' : Store) : Prop where
  absent : (s.hold r).copy? = none
  runs : exec (PageLoader.start false >>= fun _ => r.load) s = (result, s') ∨
    exec r.load s = (result, s')

/-- References that were not in memory are loaded one after another. -/
inductive Store.Gathers : Store → List PageRef → Store → Prop where
  | done (s : Store) : Gathers s [] s
  | tidied {s s' s'' : Store} {rs : List PageRef} (tidies : s.Tidies s')
      (rest : Gathers s' rs s'') : Gathers s rs s''
  /-- A loader is opened for a whole tree. -/
  | opened {s s' s'' : Store} {rs : List PageRef}
      (start : exec (PageLoader.start true) s = (.ok (), s')) (rest : Gathers s' rs s'') :
      Gathers s rs s''
  | loaded {s s' s'' : Store} {r : PageRef} {rs : List PageRef} {copy : PageCopy}
      (loads : r.Loads s (.ok copy) s') (rest : Gathers s' rs s'') : Gathers s (r :: rs) s''

theorem Store.Gathers.trans (hgathers : s.Gathers rs s') (hgathers' : s'.Gathers rs' s'') :
    s.Gathers (rs ++ rs') s'' := by
  induction hgathers with
  | done => exact hgathers'
  | tidied tidies _ ih => exact .tidied tidies (ih hgathers')
  | opened start _ ih => exact .opened start (ih hgathers')
  | loaded loads _ ih => exact .loaded loads (ih hgathers')

theorem Store.Gathers.of_tidies (htidies : s.Tidies s') : s.Gathers [] s' :=
  .tidied htidies (.done s')

/-- What comes of an operation that finds out about pages. -/
inductive Store.Outcome (s : Store) : Except StoreError α → Store → Prop where
  | result {rs : List PageRef} {s' : Store} (a : α) (gathers : s.Gathers rs s') :
      Outcome s (.ok a) s'
  /-- The operation is refused for what it has been asked for. -/
  | refusal {e : StoreError} {rs : List PageRef} {s' : Store} (isRefusal : e.IsRefusal)
      (gathers : s.Gathers rs s') : Outcome s (.error e) s'
  /-- After some loads, one fails.  The error is that of the load as it is if it is fatal, and
  else with the description of the very reference whose page was to be loaded. -/
  | failure {r : PageRef} {e : StoreError} {text : String} {rs : List PageRef} {s₁ s' : Store}
      (gathers : s.Gathers rs s₁) (fails : r.Loads s₁ (.error e) s') (plain : e.IsPlain)
      (describes : exec r.describe s' = (.ok text, s')) :
      Outcome s (.error (if e.isFatal then e else .pageLoad text e)) s'

/-! ## The conduct -/

/-- After some loads, one fails, and the error names the reference. -/
def Store.LastFails (s : Store) (e' : StoreError) (s' : Store) : Prop :=
  ∃ rs s₁ r e text, s.Gathers rs s₁ ∧ PageRef.Loads r s₁ (.error e) s' ∧
    exec r.describe s' = (.ok text, s') ∧ e' = e.withPageRef text

namespace PageRef

/-- A page is loaded, or the error names it. -/
theorem naming_gathers {r : PageRef} {act : StoreM PageCopy}
    (hloads : ∀ result s', exec act s = (result, s') → r.Loads s result s') :
    (∃ copy s' rs, exec (r.naming act) s = (.ok copy, s') ∧ s.Gathers rs s') ∨
      ∃ e s', exec (r.naming act) s = (.error e, s') ∧ s.LastFails e s' := by
  rw [exec_naming]
  rcases hexec : exec act s with ⟨e | copy, s'⟩
  · exact Or.inr ⟨_, s', rfl, [], s, r, e, _, .done s, hloads _ _ hexec, rfl, rfl⟩
  · exact Or.inl ⟨copy, s', [r], rfl, .loaded (hloads _ _ hexec) (.done s')⟩

/-- A page is found in memory or loaded, or the error names it. -/
theorem pageCopy_gathers (r : PageRef) (s : Store) :
    (∃ copy s' rs, exec r.pageCopy s = (.ok copy, s') ∧ s.Gathers rs s') ∨
      ∃ e s', exec r.pageCopy s = (.error e, s') ∧ s.LastFails e s' := by
  rw [pageCopy, exec_bind, exec_hold]
  dsimp only
  cases hcopy : (s.hold r).copy? with
  | some copy => exact Or.inl ⟨copy, _, [], rfl, .of_tidies (.hit s)⟩
  | none => exact naming_gathers fun _ _ hexec => ⟨hcopy, Or.inl hexec⟩

end PageRef

/-- The errors of a load do not name a page yet. -/
theorem PageRef.Loads.plain {r : PageRef} {e : StoreError} (hloads : r.Loads s (.error e) s')
    (hplain : PageLoader.Plain) : e.IsPlain := by
  have hload := load_failsBy hplain r
  rcases hloads.runs with hexec | hexec
  · exact FailsBy.bind (hplain.start false) (fun _ => hload) s e s' hexec
  · exact hload s e s' hexec

/-- To resolve references one after another, and to fail only if one cannot be resolved. -/
def naming : Conduct where
  Later s s' := ∃ rs, s.Gathers rs s'
  Fails s e s' := (e.IsRefusal ∧ ∃ rs, s.Gathers rs s') ∨ s.LastFails e s'
  Tracks _ _ := True
  later_refl s := ⟨[], .done s⟩
  later_trans := by
    rintro s s' s'' ⟨rs, hgathers⟩ ⟨rs', hgathers'⟩
    exact ⟨rs ++ rs', hgathers.trans hgathers'⟩
  fails_later := by
    rintro s s' e s'' ⟨rs, hgathers⟩ (⟨hrefusal, rs', hgathers'⟩ |
      ⟨rs', s₁, r, e₀, text, hgathers', hrest⟩)
    · exact Or.inl ⟨hrefusal, rs ++ rs', hgathers.trans hgathers'⟩
    · exact Or.inr ⟨rs ++ rs', s₁, r, e₀, text, hgathers.trans hgathers', hrest⟩
  refused {s e} hrefusal := Or.inl ⟨hrefusal, [], .done s⟩
  named := by
    rintro s e s' description (⟨hrefusal, hgathers⟩ |
      ⟨rs, s₁, r, e₀, text, hgathers, hfails, htext, rfl⟩)
    · rw [hrefusal.withPageRef]
      exact Or.inl ⟨hrefusal, hgathers⟩
    · -- the name it has is the only one it gets, so the references above add nothing
      rw [StoreError.withPageRef_withPageRef]
      exact Or.inr ⟨rs, s₁, r, e₀, text, hgathers, hfails, htext, rfl⟩
  tracks_later _ _ := trivial
  tracks_fails _ _ := trivial
  tracks_held _ _ _ _ := trivial
  found := by
    rintro s r copy s' - hexec
    rcases r.pageCopy_gathers s with ⟨copy', s₁, rs, hok, hgathers⟩ | ⟨e, s₁, herror, -⟩
    · rw [hok] at hexec
      cases hexec
      exact ⟨⟨rs, hgathers⟩, fun _ _ => trivial⟩
    · rw [herror] at hexec
      cases hexec
  notFound := by
    rintro s r e s' - hexec
    rcases r.pageCopy_gathers s with ⟨copy', s₁, rs, hok, -⟩ | ⟨e', s₁, herror, hfailed⟩
    · rw [hok] at hexec
      cases hexec
    · rw [herror] at hexec
      cases hexec
      exact Or.inr hfailed
  copied {s _ _ page} hexec := by
    cases hexec
    exact ⟨[], .of_tidies (.copyOf s page)⟩
  made {s _ _ _ _ _ _} _ hexec := by
    cases hexec
    exact ⟨⟨[], .of_tidies (.pushCell s _)⟩, trivial⟩
  refolded {s _ _ _ _} _ hexec := by
    cases hexec
    exact ⟨⟨[], .of_tidies (.pushCell s _)⟩, trivial⟩

theorem Store.Outcome.of_later (a : α) (hlater : naming.Later s s') : s.Outcome (.ok a) s' := by
  obtain ⟨rs, hgathers⟩ := hlater
  exact .result a hgathers

theorem Store.Outcome.of_fails (hplain : PageLoader.Plain) {e : StoreError}
    (hfails : naming.Fails s e s') : s.Outcome (.error e : Except StoreError α) s' := by
  rcases hfails with
    ⟨hrefusal, rs, hgathers⟩ | ⟨rs, s₁, r, e₀, text, hgathers, hfails, htext, rfl⟩
  · exact .refusal hrefusal hgathers
  · have he := hfails.plain hplain
    rw [he.withPageRef]
    exact .failure hgathers hfails he htext

/-! ## Loading a tree -/

theorem naming_loadTreeWithin (depth : Nat) (r : PageRef) (s : Store) :
    naming.Allows (PageRef.loadTreeWithin depth r) s := by
  induction depth generalizing r s with
  | zero => exact .refuse .tooDeep
  | succ depth ih =>
      have hchildren : ∀ (page : LivePage) s,
          naming.Allows (page.children.forM (PageRef.loadTreeWithin depth)) s :=
        fun page _ => Conduct.Obeys.listForM (I := fun _ _ => True) (fun _ _ _ => trivial)
          (fun s r _ => ih r s) page.children fun _ _ => trivial
      unfold Conduct.Allows Conduct.Obeys
      rw [PageRef.exec_loadTreeWithin]
      cases hcopy : (s.hold r).copy? with
      | some copy =>
          have hkept : naming.Allows (modify fun s : Store =>
              s.modifyCell r.id fun cell => { cell with hold := .strong copy }) s :=
            .ok (exec_modify _ s) ⟨[], .of_tidies (.strengthen hcopy)⟩ trivial
          exact hkept.bind fun _ s' _ _ => hchildren copy.page s'
      | none =>
          refine Conduct.Obeys.bind (P := fun _ _ => True) ?_
            fun copy s' _ _ => hchildren copy.page s'
          -- the loader of the whole tree is open by now
          rcases PageRef.naming_gathers (r := r) fun _ _ hexec => ⟨hcopy, Or.inr hexec⟩ with
            ⟨copy, s', rs, hexec, hgathers⟩ | ⟨e, s', hexec, hfailed⟩
          · exact .ok hexec ⟨rs, hgathers⟩ trivial
          · exact .error hexec (Or.inr hfailed)

/-- A whole tree is loaded with one loader.  If it cannot be opened, that is the failure. -/
theorem naming_loaded (t : Tree) (s : Store) :
    (∃ e s', exec (PageLoader.start true) s = (.error e, s') ∧
      exec t.loaded s = (.error e, s')) ∨ naming.Allows t.loaded s := by
  rcases hstart : exec (PageLoader.start true) s with ⟨e | ⟨⟩, s'⟩
  · refine Or.inl ⟨e, s', rfl, ?_⟩
    rw [Tree.loaded, PageRef.loadTree, exec_bind, exec_bind, hstart]
  · have hopened : naming.Obeys (PageLoader.start true) s fun _ _ => True :=
      .ok hstart ⟨[], .opened hstart (.done s')⟩ trivial
    have hload : naming.Allows t.root.loadTree s :=
      hopened.bind fun _ s'' _ _ => .get (naming_loadTreeWithin _ t.root s'')
    exact Or.inr (hload.bind fun _ _ _ _ => .pure trivial)

/-! ## Errors of operations -/

theorem Store.Outcome.of_allows (hplain : PageLoader.Plain) {act : StoreM α}
    (hact : naming.Allows act s) : s.Outcome (exec act s).1 (exec act s).2 := by
  rcases hact.cases with ⟨a, s', hexec, hlater, -⟩ | ⟨e, s', hexec, hfails⟩
  · rw [hexec]
    exact .of_later a hlater
  · rw [hexec]
    exact .of_fails hplain hfails

theorem Store.Outcome.of_steers (hplain : PageLoader.Plain) {policy : Policy ι}
    {act : CursorM ι α} {k : Cursor ι} (hact : naming.Steers policy act k s) :
    s.Outcome (act.exec k s).1.1 (act.exec k s).2 := by
  rcases hact.cases with ⟨a, k', s', hexec, hlater, -⟩ | ⟨e, k', s', hexec, hfails, -⟩
  · rw [hexec]
    exact .of_later a hlater
  · rw [hexec]
    exact .of_fails hplain hfails

/-- Wherever the operation starts, it has an outcome. -/
def StoreM.HasOutcomes (act : StoreM α) : Prop :=
  ∀ s : Store, s.Outcome (exec act s).1 (exec act s).2

/-- Reads, mutations, evacuations and reductions of trees, calls of cursors, and loads of whole
trees: when one of them fails for a page, it gives the error of the load of that page, named by the
reference of that page and by no other unless it is fatal. -/
theorem failed_loads_are_named_once (hplain : PageLoader.Plain) (t : Tree) :
    (∀ query : Query, (query.run t).HasOutcomes) ∧
      (∀ (op : Operation) (version post : Nat), (op.run ⟨t, version, post⟩).HasOutcomes) ∧
      (∀ {ι : Type} (kind : TreeKind) (policy : Policy ι), policy.Scans kind →
        ∀ (call : CursorCall) (k : Cursor ι) (s : Store), k.policy = policy →
          s.Outcome (call.make.exec k s).1.1 (call.make.exec k s).2) ∧
      ∀ s : Store, (∃ e s', exec (PageLoader.start true) s = (.error e, s') ∧
        exec t.loaded s = (.error e, s')) ∨
          s.Outcome (exec t.loaded s).1 (exec t.loaded s).2 := by
  refine ⟨fun query s => ?_, fun op version post s => ?_, ?_, fun s => ?_⟩
  · exact .of_allows hplain (query.run_obeys t trivial)
  · exact .of_allows hplain (op.run_obeys ⟨t, version, post⟩ trivial).allows
  · intro ι kind policy hscans call k s hpolicy
    exact .of_steers hplain (CursorCall.make_steers hscans.admits call (fun _ _ => trivial)
      ⟨hpolicy, fun _ _ _ _ => trivial⟩)
  · exact (naming_loaded t s).imp_right (.of_allows hplain)

end Course

/-! ## A page out of reach -/

/-- A page of zone 7. -/
def strayHeader : Header := ⟨1, 7, 40, 30, 31, 1, ⟨0⟩, ⟨0⟩, .absent⟩

/-- A node that memory holds, above a page that it does not hold. -/
def strandedStore : Store :=
  { Store.create Settings.forTrials false ⟨0⟩ with
    cells := #[⟨.strong ⟨0, ⟨1, 1, .btreeNode [(.int 1, ⟨1, .btree, 1, strayHeader, 0⟩)]⟩⟩, some 1⟩,
      ⟨.unloaded, none⟩]
    nextSerial := 1 }

/-- The tree of the node. -/
def strandedTree : Tree :=
  .ofRoot ⟨0, .btree, 1, ⟨1, 1, 90, 50, 82, 1, ⟨0⟩, ⟨0⟩, .absent⟩, 0⟩ ⟨.btree, 1, ⟨0⟩, ⟨0⟩⟩

/-- An evacuation goes down from the node, and its error names the page that no zone has. -/
theorem evacuation_names_page :
    PageLoader.Plain ∧
      strandedStore.Outcome (exec (Operation.evacuate.run ⟨strandedTree, 5, 9⟩) strandedStore).1
        (exec (Operation.evacuate.run ⟨strandedTree, 5, 9⟩) strandedStore).2 ∧
      (exec (Operation.evacuate.run ⟨strandedTree, 5, 9⟩) strandedStore).1 =
        .error (.pageLoad ("PageRef \x7b tree: BTree, stem: 1, post: 1, zone: 7, base: 40, " ++
          "size: 30, span: 1, cache: Unloaded \x7d") (.zoneNotFound 7)) :=
  ⟨PageLoader.zones_plain,
    (failed_loads_are_named_once PageLoader.zones_plain strandedTree).2.1 .evacuate 5 9 _, rfl⟩

end PageTree
