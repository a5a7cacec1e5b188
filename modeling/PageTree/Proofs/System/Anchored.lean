import PageTree.Proofs.Cache.Loaded
import PageTree.Proofs.Softening
import PageTree.Proofs.System.Settling

/-!
# Pages without a place

A page that has not been committed is nowhere but in memory.  Memory holds it strongly, and with it
all pages on the way to it (`Store.Reaches.anchored`); to soften a tree weakens the hold on committed
pages only (`Trunk.soften_keeps`).  So no page is ever looked for that has no place, and to load
a whole tree never fails for that reason (`Tree.loaded_error`).
-/

namespace PageTree

open StoreM

variable {α β : Type} {s s' s'' : Store} {c c' : Chart} {r m k : PageRef} {copy : PageCopy}
  {page : LivePage}

/-! ## Errors -/

namespace StoreError

variable {e : StoreError}

/-- The error says, of the page that was to be resolved or of another, that it is not committed. -/
def SaysUncommitted : StoreError → Prop
  | .notCommitted _ => True
  | .pageLoad _ source => source.SaysUncommitted
  | _ => False

theorem IsLoadFailure.not_saysUncommitted (hfail : e.IsLoadFailure) : ¬ e.SaysUncommitted := by
  cases hfail <;> exact id

end StoreError

/-! ## The way to a page -/

/-- The page is not committed, and memory holds it and all pages on the way to it strongly. -/
inductive Store.Anchored (s : Store) : PageRef → PageRef → Prop where
  | here {r : PageRef} {copy : PageCopy} (uncommitted : r.isCommitted = false)
      (hold : s.hold r = .strong copy) : Anchored s r r
  | beneath {r m k : PageRef} {copy : PageCopy} (uncommitted : r.isCommitted = false)
      (hold : s.hold r = .strong copy) (child : m ∈ copy.page.children)
      (rest : Anchored s m k) : Anchored s r k

/-- What memory holds strongly is read without a load. -/
theorem PageRef.exec_page_of_strong (hhold : s.hold r = .strong copy) :
    exec r.page s = (.ok copy.page, (exec countHit s).2) := by
  have hcopy : exec r.pageCopy s = (.ok copy, (exec countHit s).2) := by
    rw [pageCopy, exec_bind, exec_hold, hhold]
    rfl
  rw [page, exec_bind, hcopy]
  rfl

namespace Store.Anchored

/-- The page itself is held strongly. -/
theorem hold (hanchored : s.Anchored r k) : ∃ copy, s.hold k = .strong copy := by
  induction hanchored with
  | here _ hold => exact ⟨_, hold⟩
  | beneath _ _ _ _ ih => exact ih

/-- Only what memory holds matters. -/
theorem of_cells_eq (hcells : s'.cells = s.cells) (hanchored : s.Anchored r k) :
    s'.Anchored r k := by
  have hhold : ∀ r, s'.hold r = s.hold r := by
    intro r
    simp only [Store.hold, Store.cell, hcells]
  induction hanchored with
  | here uncommitted hold => exact .here uncommitted (by rw [hhold, hold])
  | beneath uncommitted hold child _ ih =>
      exact .beneath uncommitted (by rw [hhold, hold]) child ih

/-- A change that leaves the uncommitted pages alone leaves the way to each of them. -/
theorem keep (hrep : Mirrors s c) (hr : c.refs r)
    (hkeeps : ∀ r, c.refs r → r.isCommitted = false → s'.hold r = s.hold r)
    (hanchored : s.Anchored r k) : s'.Anchored r k ∧ s'.hold k = s.hold k := by
  induction hanchored with
  | @here r copy uncommitted hold =>
      have hsame := hkeeps r hr uncommitted
      exact ⟨.here uncommitted (hsame.trans hold), hsame⟩
  | @beneath r m k copy uncommitted hold child rest ih =>
      have hm : c.refs m := (hrep.held r copy hr (by rw [hold]; rfl)).2 m child
      obtain ⟨hrest, hsame⟩ := ih hm
      exact ⟨.beneath uncommitted ((hkeeps r hr uncommitted).trans hold) child hrest, hsame⟩

/-- The page is in use. -/
theorem refs (hrep : Mirrors s c) (hr : c.refs r) (hanchored : s.Anchored r k) : c.refs k := by
  induction hanchored with
  | here => exact hr
  | beneath _ hold child _ ih => exact ih ((hrep.held _ _ hr (by rw [hold]; rfl)).2 _ child)

/-- Reading pages from memory leads to the page. -/
theorem reaches (hanchored : s.Anchored r k) (hcells : s'.cells = s.cells) :
    ∃ s'', s'.Reaches r s'' k := by
  induction hanchored generalizing s' with
  | @here r => exact ⟨s', .here s' r⟩
  | @beneath r m k copy _ hold child _ ih =>
      have hhold : s'.hold r = .strong copy := by
        rw [← hold]
        simp only [Store.hold, Store.cell, hcells]
      have hcells' : (exec PageRef.countHit s').2.cells = s.cells := hcells
      obtain ⟨s'', hreaches⟩ := ih hcells'
      exact ⟨s'', .down (PageRef.exec_page_of_strong hhold) child hreaches⟩

end Store.Anchored

/-- Whatever is read on the way to an uncommitted page, memory has held it strongly before. -/
theorem Store.Reaches.anchored (hreaches : s.Reaches r s' k) (hrep : Represents s c)
    (hr : c.refs r) (huncommitted : k.isCommitted = false) :
    s.Anchored r k ∧ s'.cells = s.cells := by
  induction hreaches generalizing c with
  | here s r =>
      obtain ⟨copy, hhold⟩ := hrep.strong r hr huncommitted
      exact ⟨.here huncommitted hhold, rfl⟩
  | @down s s' s'' r m k page found child rest ih =>
      cases hcommitted : r.isCommitted with
      | true =>
          have hk := (Store.Reaches.down found child rest).isCommitted hrep hr hcommitted
          rw [huncommitted] at hk
          cases hk
      | false =>
          obtain ⟨copy, hhold⟩ := hrep.strong r hr hcommitted
          have hheld := hrep.held r copy hr (by rw [hhold]; rfl)
          rw [PageRef.exec_page_of_strong hhold] at found
          cases found
          have hrep' : Represents (exec PageRef.countHit s).2 c := hrep.of_cells_eq rfl rfl
          have hback : s.cells = (exec PageRef.countHit s).2.cells := rfl
          obtain ⟨hanchored, hcells⟩ := ih hrep' (hheld.2 m child) huncommitted
          exact ⟨.beneath hcommitted hhold child (hanchored.of_cells_eq hback), hcells⟩

/-! ## Softening -/

/-- Nothing but memory has changed, and what is held is held as before, or weakly where it was held
strongly under one of some identities. -/
structure Store.Weakens (s : Store) (among : Nat → Prop) (s' : Store) : Prop where
  recelled : s.Recelled s'
  cell : ∀ id, s'.cell id = s.cell id ∨ among id ∧ ∃ copy, (s.cell id).hold = .strong copy ∧
    s'.cell id = { s.cell id with hold := .weak (some copy) }

namespace Store.Weakens

variable {among among' : Nat → Prop}

theorem refl (s : Store) : s.Weakens among s :=
  ⟨rfl, fun _ => Or.inl rfl⟩

theorem trans (hweakens : s.Weakens among s') (hweakens' : s'.Weakens among s'') :
    s.Weakens among s'' := by
  refine ⟨hweakens.recelled.trans hweakens'.recelled, fun id => ?_⟩
  rcases hweakens'.cell id with heq' | ⟨hid, copy, hhold, heq'⟩
  · rw [heq']
    exact hweakens.cell id
  · rcases hweakens.cell id with heq | ⟨-, copy', -, heq⟩
    · rw [heq] at hhold heq'
      exact Or.inr ⟨hid, copy, hhold, heq'⟩
    · rw [heq] at hhold
      cases hhold

theorem mono (himp : ∀ id, among id → among' id) (hweakens : s.Weakens among s') :
    s.Weakens among' s' :=
  ⟨hweakens.recelled, fun id =>
    (hweakens.cell id).imp_right fun ⟨hid, hrest⟩ => ⟨himp id hid, hrest⟩⟩

/-- All pages that were in memory still are, and no others. -/
theorem copy_eq (hweakens : s.Weakens among s') (r : PageRef) :
    (s'.hold r).copy? = (s.hold r).copy? := by
  rcases hweakens.cell r.id with heq | ⟨-, copy, hhold, heq⟩
  · rw [Store.hold, heq, Store.hold]
  · rw [Store.hold, heq, Store.hold, hhold]
    rfl

theorem within {m : PageRef} (hweakens : s.Weakens among s') (hwithin : s'.Within r m) :
    s.Within r m := by
  induction hwithin with
  | self => exact .self _
  | beneath held child _ ih => exact .beneath (by rw [← hweakens.copy_eq, held]) child ih

theorem forM {f : PageRef → StoreM Unit} (rs : List PageRef)
    (hf : ∀ r ∈ rs, ∀ s', s.Weakens among s' → s'.Weakens among (exec (f r) s').2) :
    s.Weakens among (exec (rs.forM f) s).2 := by
  induction rs generalizing s with
  | nil => exact .refl s
  | cons r rs ih =>
      have hfirst := hf r List.mem_cons_self s (.refl s)
      rw [List.forM, exec_bind]
      generalize exec (f r) s = outcome at hfirst ⊢
      obtain ⟨e | _, s'⟩ := outcome
      · exact hfirst
      · exact hfirst.trans (ih fun m hm s'' hweakens =>
          hf m (List.mem_cons_of_mem r hm) s'' (hfirst.trans hweakens))

end Store.Weakens

/-- A reference leads to an identity in memory. -/
def Store.LeadsTo (s : Store) (r : PageRef) (id : Nat) : Prop :=
  ∃ m, s.Within r m ∧ m.id = id

namespace PageRef

/-- To hold a page weakly that was held strongly is all that happens to a cell. -/
theorem weaken_weakens (r : PageRef) (s : Store) :
    s.Weakens (· = r.id) (s.modifyCell r.id fun cell =>
      match cell.hold with
      | .strong copy => { cell with hold := .weak (some copy) }
      | _ => cell) := by
  refine ⟨rfl, fun id => ?_⟩
  by_cases hid : id = r.id
  · by_cases hlt : id < s.cells.size
    · subst hid
      rw [s.cell_modifyCell_self _ hlt]
      generalize s.cell r.id = cell
      obtain ⟨hold, version⟩ := cell
      cases hold with
      | strong copy => exact Or.inr ⟨rfl, copy, rfl, rfl⟩
      | unloaded | weak => exact Or.inl rfl
    · have hout : ∀ f : Cell → Cell, (s.modifyCell r.id f).cell id = s.cell id := by
        intro f
        simp [Store.cell, Store.modifyCell, Array.getD_eq_getD_getElem?, hlt]
      exact Or.inl (hout _)
  · exact Or.inl (s.cell_modifyCell_of_ne _ hid)

theorem softenWithin_weakens (version depth : Nat) (r : PageRef) (s : Store) :
    s.Weakens (s.LeadsTo r) (exec (softenWithin version depth r) s).2 := by
  induction depth generalizing r s with
  | zero => exact .refl s
  | succ depth ih =>
      have hexec : exec (softenWithin version (depth + 1) r) s =
          match (s.hold r).copy? with
          | none => (.ok (), s)
          | some copy => exec (do
              copy.page.children.forM (softenWithin version depth)
              if r.isCommitted && copy.page.version ≤ version then
                modify fun s => s.modifyCell r.id fun cell =>
                  match cell.hold with
                  | .strong copy => { cell with hold := .weak (some copy) }
                  | _ => cell) s := by
        rw [softenWithin, softPage?, exec_bind, exec_bind, exec_hold]
        dsimp only [exec_pure]
        cases (s.hold r).copy? <;> rfl
      rw [hexec]
      cases hcopy : (s.hold r).copy? with
      | none => exact .refl s
      | some copy =>
          dsimp only
          -- what is beneath a child is beneath the page, whatever has been let go of meanwhile
          have hchildren : s.Weakens (s.LeadsTo r)
              (exec (copy.page.children.forM (softenWithin version depth)) s).2 := by
            refine .forM _ fun m hm s' hweakens => (ih m s').mono ?_
            rintro id ⟨k, hwithin, rfl⟩
            exact ⟨k, .beneath hcopy hm (hweakens.within hwithin), rfl⟩
          rw [exec_bind]
          generalize exec (copy.page.children.forM (softenWithin version depth)) s = outcome
            at hchildren ⊢
          obtain ⟨e | _, s'⟩ := outcome
          · exact hchildren
          · dsimp only
            split
            · refine hchildren.trans ((weaken_weakens r s').mono ?_)
              rintro id rfl
              exact ⟨r, .self r, rfl⟩
            · exact hchildren

end PageRef

theorem Tree.soften_weakens (t : Tree) (version : Nat) (s : Store) :
    s.Weakens (s.LeadsTo t.root) (exec (t.soften version) s).2 := by
  unfold Tree.soften
  cases t.isResident with
  | true => exact .refl s
  | false => exact PageRef.softenWithin_weakens version (s.depthBound t.root) t.root s

/-- To soften a tree leaves all uncommitted pages as they are, whatever trees they are in. -/
theorem Trunk.soften_keeps {t : Trunk} (hrep : Represents s c) (hroot : c.refs t.tree.root)
    (hr : c.refs r) (huncommitted : r.isCommitted = false) :
    (exec t.soften s).2.hold r = s.hold r := by
  obtain ⟨hrep', -⟩ := Trunk.soften_loosens hroot s hrep
  rcases (t.tree.soften_weakens t.version s).cell r.id with heq | ⟨-, copy, -, heq⟩
  · exact congrArg Cell.hold heq
  · -- the page would be held weakly, and no uncommitted page is
    obtain ⟨copy', hstrong⟩ := hrep'.strong r hr huncommitted
    have hweak : (exec t.soften s).2.hold r = .weak (some copy) := congrArg Cell.hold heq
    rw [hstrong] at hweak
    cases hweak

/-! ## Loading -/

/-- Loading pages goes on to agree with the chart; it gives a result with a property, or fails, but
not because a page has no place. -/
def Fetches (m : StoreM α) (s : Store) (c : Chart) (post : α → Store → Chart → Prop) : Prop :=
  ∃ c', s.Recaches c (exec m s).2 c' ∧
    match (exec m s).1 with
    | .ok a => post a (exec m s).2 c'
    | .error e => ¬ e.SaysUncommitted

namespace Fetches

variable {P : α → Store → Chart → Prop} {Q : β → Store → Chart → Prop}

theorem ok {m : StoreM α} {a : α} (hexec : exec m s = (.ok a, s')) (hrecaches : s.Recaches c s' c')
    (hpost : P a s' c') : Fetches m s c P :=
  ⟨c', by rw [hexec]; exact hrecaches, by rw [hexec]; exact hpost⟩

theorem error {m : StoreM α} {e : StoreError} (hexec : exec m s = (.error e, s'))
    (hrecaches : s.Recaches c s' c') (hsaid : ¬ e.SaysUncommitted) : Fetches m s c P :=
  ⟨c', by rw [hexec]; exact hrecaches, by rw [hexec]; exact hsaid⟩

theorem cases {m : StoreM α} (hfetches : Fetches m s c P) :
    (∃ a s' c', exec m s = (.ok a, s') ∧ s.Recaches c s' c' ∧ P a s' c') ∨
      ∃ e s' c', exec m s = (.error e, s') ∧ s.Recaches c s' c' ∧ ¬ e.SaysUncommitted := by
  obtain ⟨c', hrecaches, hpost⟩ := hfetches
  generalize exec m s = outcome at hrecaches hpost
  obtain ⟨e | a, s'⟩ := outcome
  · exact Or.inr ⟨e, s', c', rfl, hrecaches, hpost⟩
  · exact Or.inl ⟨a, s', c', rfl, hrecaches, hpost⟩

protected theorem bind {m : StoreM α} {f : α → StoreM β} (hm : Fetches m s c P)
    (hf : ∀ a s' c', s.Recaches c s' c' → P a s' c' → Fetches (f a) s' c' Q) :
    Fetches (m >>= f) s c Q := by
  rcases hm.cases with ⟨a, s', c', hexec, hrecaches, hP⟩ | ⟨e, s', c', hexec, hrecaches, hsaid⟩
  · rcases (hf a s' c' hrecaches hP).cases with
      ⟨b, s'', c'', hexec', hrecaches', hQ⟩ | ⟨e, s'', c'', hexec', hrecaches', hsaid⟩
    · exact ok (by rw [exec_bind, hexec]; exact hexec') (hrecaches.trans hrecaches') hQ
    · exact error (by rw [exec_bind, hexec]; exact hexec') (hrecaches.trans hrecaches') hsaid
  · exact error (by rw [exec_bind, hexec]) hrecaches hsaid

theorem forM {f : PageRef → StoreM Unit} (rs : List PageRef) (hrep : Represents s c)
    (hf : ∀ r ∈ rs, ∀ s' c', s.Recaches c s' c' → Fetches (f r) s' c' fun _ _ _ => True) :
    Fetches (rs.forM f) s c fun _ _ _ => True := by
  induction rs generalizing s c with
  | nil => exact ok rfl (Grows.refl hrep).recaches trivial
  | cons r rs ih =>
      rw [List.forM]
      refine (hf r List.mem_cons_self s c (Grows.refl hrep).recaches).bind ?_
      intro _ s' c' hrecaches _
      refine ih hrecaches.represents fun m hm s'' c'' hrecaches' => ?_
      exact hf m (List.mem_cons_of_mem r hm) s'' c'' (hrecaches.trans hrecaches')

end Fetches

namespace PageRef

/-- What memory holds of a page leads to pages in use. -/
def Opens (r : PageRef) (copy : PageCopy) (c : Chart) : Prop :=
  c.page r.site = some (copy.page.map site) ∧ ∀ m ∈ copy.page.children, c.refs m

theorem load_fetches (hrep : Represents s c) (hopen : s.zones.isClosed = false) (hr : c.refs r)
    (habsent : (s.hold r).copy? = none) :
    Fetches (r.naming r.load) s c fun copy _ c' => r.Opens copy c' := by
  have hcheck : exec (StoreM.ofZones Zones.checkOpen >>= fun _ => r.load) s = exec r.load s := by
    rw [exec_bind, exec_ofZones, Zones.checkOpen, hopen]
    rfl
  rcases load_cases hrep hr habsent with
    ⟨e, s', hexec, hgrows, hfail⟩ | ⟨q, s', hcommitted, hq, hhold, hgrows, -, htail⟩
  · rw [hcheck] at hexec
    have hnamed := exec_naming r r.load s
    rw [hexec] at hnamed
    exact Fetches.error hnamed hgrows.recaches (hfail _).1.not_saysUncommitted
  · have htake := takeIn_runs hgrows.represents hr (by rw [hhold, habsent]) hcommitted hq
    rw [hcheck] at htail
    rcases htake.cases with
      ⟨copy, s'', c'', hexec, hgrows', hopens, -⟩ | ⟨e, s'', c'', hexec, hgrows', hfail, -⟩
    · refine Fetches.ok ?_ (hgrows.trans hgrows').recaches hopens
      rw [exec_naming, htail, hexec]
    · refine Fetches.error (e := e) ?_ (hgrows.trans hgrows').recaches hfail.not_saysUncommitted
      rw [exec_naming, htail, hexec]
      dsimp only
      rw [hfail.withPageRef]

/-- A page in memory may be held strongly from now on. -/
theorem strengthen_recaches (hrep : Represents s c) (hr : c.refs r)
    (hcopy : (s.hold r).copy? = some copy) :
    s.Recaches c (s.modifyCell r.id fun cell => { cell with hold := .strong copy }) c := by
  cases hcommitted : r.isCommitted with
  | true => exact (hrep.strengthen hr hcommitted hcopy).1.toRecaches
  | false =>
      -- an uncommitted page is held strongly already, so nothing changes
      obtain ⟨copy', hhold⟩ := hrep.strong r hr hcommitted
      rw [hhold] at hcopy
      cases hcopy
      have hsame : (s.modifyCell r.id fun cell => { cell with hold := .strong copy }).cells =
          s.cells := by
        refine Array.ext (by simp) fun id hid hid' => ?_
        simp only [Store.modifyCell, Array.getElem_modify]
        split
        · next heq =>
            subst heq
            have hcell : s.cell r.id = s.cells[r.id] := by
              simp [Store.cell, Array.getD_eq_getD_getElem?, hid']
            change (s.cell r.id).hold = .strong copy at hhold
            rw [← hcell, ← hhold]
        · rfl
      exact (Grows.of_cells_eq hrep hsame rfl rfl rfl rfl (Nat.le_refl _)).recaches

theorem loadTreeWithin_fetches (hrep : Represents s c) (hopen : s.zones.isClosed = false)
    (depth : Nat) (hr : c.refs r) :
    Fetches (loadTreeWithin depth r) s c fun _ _ _ => True := by
  induction depth generalizing s c r with
  | zero =>
      have hshallow : ¬ tooDeep.SaysUncommitted := not_false
      exact Fetches.error rfl (Grows.refl hrep).recaches hshallow
  | succ depth ih =>
      -- whichever way the page is come by, its children are loaded next
      have hbeneath : ∀ copy s' c', s.Recaches c s' c' → r.Opens copy c' →
          Fetches (copy.page.children.forM (loadTreeWithin depth)) s' c' fun _ _ _ => True := by
        intro copy s' c' hrecaches hopens
        refine .forM _ hrecaches.represents fun m hm s'' c'' hrecaches' => ?_
        refine ih hrecaches'.represents ?_ (hrecaches'.le.refs m (hopens.2 m hm))
        rw [hrecaches'.zones, hrecaches.zones, hopen]
      have hexec := exec_loadTreeWithin depth r s
      cases hcopy : (s.hold r).copy? with
      | some copy =>
          rw [hcopy] at hexec
          have hrecaches := strengthen_recaches hrep hr hcopy
          rcases (hbeneath copy _ _ hrecaches (hrep.held r copy hr hcopy)).cases with
            ⟨a, s', c', hrest, hrecaches', -⟩ | ⟨e, s', c', hrest, hrecaches', hsaid⟩
          · exact Fetches.ok (hexec.trans hrest) (hrecaches.trans hrecaches') trivial
          · exact Fetches.error (hexec.trans hrest) (hrecaches.trans hrecaches') hsaid
      | none =>
          rw [hcopy] at hexec
          have hload := (load_fetches hrep hopen hr hcopy).bind hbeneath
          rcases hload.cases with
            ⟨a, s', c', hrest, hrecaches, -⟩ | ⟨e, s', c', hrest, hrecaches, hsaid⟩
          · exact Fetches.ok (hexec.trans hrest) hrecaches trivial
          · exact Fetches.error (hexec.trans hrest) hrecaches hsaid

end PageRef

/-- To load a whole tree does not fail because a page has no place. -/
theorem Tree.loaded_error {t : Tree} {e : StoreError} (hrep : Represents s c)
    (hroot : c.refs t.root) (hexec : exec t.loaded s = (.error e, s')) : ¬ e.SaysUncommitted := by
  rw [Tree.loaded, PageRef.loadTree, bind_assoc, exec_bind, PageRef.start_eq, exec_ofZones,
    Zones.checkOpen] at hexec
  cases hopen : s.zones.isClosed with
  | true =>
      rw [hopen] at hexec
      cases hexec
      exact not_false
  | false =>
      rw [hopen] at hexec
      have hload := PageRef.loadTreeWithin_fetches hrep hopen (s.depthBound t.root) hroot
      have hfetches : Fetches (do
          PageRef.loadTreeWithin (s.depthBound t.root) t.root
          return { t with isResident := true }) s c fun _ _ _ => True :=
        hload.bind fun _ s' c' hrecaches _ =>
          .ok rfl (Grows.refl hrecaches.represents).recaches trivial
      rcases hfetches.cases with ⟨a, s'', c', hok, -⟩ | ⟨e', s'', c', hfail, -, hsaid⟩
      · have hsame := hexec.symm.trans hok
        cases hsame
      · have hsame := hexec.symm.trans hfail
        cases hsame
        exact hsaid

end PageTree
