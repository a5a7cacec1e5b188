import PageTree.Proofs.Conduct.Commits
import PageTree.Proofs.System.Anchored

/-!
# Trees that stay in memory

When a tree has been loaded, memory holds all its pages strongly (`Tree.resides_of_loaded`).
Whoever goes on with such references only finds all pages in memory, and makes no others
(`residing`): so reads and operations on trees load nothing, and neither do commits.  What is held
strongly stays so when memory is reclaimed, and when a tree is softened that has no pages in common
with it (`Store.Firm.soften`).
-/

namespace PageTree

open StoreM

variable {α : Type} {s s' s'' : Store} {r : PageRef} {copy : PageCopy}

/-! ## Loading a whole tree -/

namespace Store

/-- Every reference that a reference leads to in memory has been made. -/
def Allocates (s : Store) (r : PageRef) : Prop :=
  ∀ m, s.Within r m → m.id < s.cells.size

/-- References have been made, and memory holds what it has held. -/
structure Sprouts (s s' : Store) : Prop where
  size : s.cells.size ≤ s'.cells.size
  hold : ∀ r, s'.hold r = s.hold r

/-- Memory holds more, and what it held strongly it still holds so; and no reference is left without
a cell. -/
structure Fills (s s' : Store) : Prop where
  strong : ∀ r copy, s.hold r = .strong copy → s'.hold r = .strong copy
  allocates : ∀ r, s.Allocates r → s'.Allocates r

namespace Sprouts

theorem refl (s : Store) : s.Sprouts s :=
  ⟨Nat.le_refl _, fun _ => rfl⟩

theorem trans (hsprouts : s.Sprouts s') (hsprouts' : s'.Sprouts s'') : s.Sprouts s'' :=
  ⟨Nat.le_trans hsprouts.size hsprouts'.size,
    fun r => (hsprouts'.hold r).trans (hsprouts.hold r)⟩

/-- Nothing is held of what has not been made. -/
theorem pushCell (s : Store) : s.Sprouts (s.pushCell ⟨.unloaded, none⟩) := by
  refine ⟨by simp, fun r => ?_⟩
  rw [Store.hold, s.cell_pushCell]
  split
  · next heq =>
      simp [Store.hold, Store.cell, Array.getD_eq_getD_getElem?, heq]
  · rfl

end Sprouts

namespace Fills

theorem refl (s : Store) : s.Fills s :=
  ⟨fun _ _ hhold => hhold, fun _ hr => hr⟩

theorem trans (hfills : s.Fills s') (hfills' : s'.Fills s'') : s.Fills s'' :=
  ⟨fun r copy hhold => hfills'.strong r copy (hfills.strong r copy hhold),
    fun r hr => hfills'.allocates r (hfills.allocates r hr)⟩

/-- A page in memory is held strongly from now on. -/
theorem strengthen (hcopy : (s.hold r).copy? = some copy) :
    s.Fills (s.modifyCell r.id fun cell => { cell with hold := .strong copy }) ∧
      (s.modifyCell r.id fun cell => { cell with hold := .strong copy }).hold r = .strong copy := by
  have hself := fun {k : PageRef} (hid : k.id = r.id) =>
    s.hold_modifyCell_of_eq (fun cell => { cell with hold := .strong copy }) hid (lt_of_copy hcopy)
  refine ⟨⟨fun k copy' hhold => ?_, fun k hk m hwithin => ?_⟩, hself rfl⟩
  · by_cases hid : k.id = r.id
    · rw [← s.hold_eq_of_id hid, hhold] at hcopy
      cases hcopy
      exact hself hid
    · rwa [s.hold_modifyCell_of_ne _ hid]
  · rw [size_modifyCell]
    refine hk m ?_
    clear hk
    -- a page held more strongly leads where it led before
    induction hwithin with
    | self k => exact .self k
    | @beneath k _ _ _ held child _ ih =>
        refine .beneath ?_ child ih
        by_cases hid : k.id = r.id
        · rw [hself hid] at held
          rw [s.hold_eq_of_id hid, hcopy, ← held]
          rfl
        · rwa [s.hold_modifyCell_of_ne _ hid] at held

end Fills
end Store

/-- All that references in use lead to has been made. -/
theorem Mirrors.allocates {c : Chart} (hrep : Mirrors s c) (hr : c.refs r) : s.Allocates r :=
  fun m hwithin => hrep.allocated m (hrep.refs_within hr hwithin)

namespace PageRef

theorem ofHeaders_sprout (kind : TreeKind) (stem : Nat) (headers : List Header) (s : Store) :
    ∃ rs s', exec (headers.mapM (ofHeader kind stem)) s = (.ok rs, s') ∧ s.Sprouts s' ∧
      ∀ m ∈ rs, s.cells.size ≤ m.id ∧ m.id < s'.cells.size := by
  induction headers generalizing s with
  | nil => exact ⟨[], s, rfl, .refl s, by simp⟩
  | cons h headers ih =>
      obtain ⟨rs, s', hexec, hsprouts, hnew⟩ := ih (s.pushCell ⟨.unloaded, none⟩)
      have hsize := hsprouts.size
      rw [Store.size_pushCell] at hsize
      refine ⟨⟨s.cells.size, kind, stem, h, pendingSize h []⟩ :: rs, s', ?_,
        (Store.Sprouts.pushCell s).trans hsprouts, ?_⟩
      · rw [List.mapM_cons, exec_bind, exec_ofHeader]
        dsimp only
        rw [exec_bind, hexec]
        rfl
      · intro m hm
        rcases List.mem_cons.1 hm with rfl | hm
        · exact ⟨Nat.le_refl _, hsize⟩
        · have hbounds := hnew m hm
          rw [Store.size_pushCell] at hbounds
          exact ⟨by omega, hbounds.2⟩

/-- The children of a page that is read are made for it. -/
theorem readPage_sprouts {page : LivePage} (hexec : exec r.readPage s = (.ok page, s')) :
    s.Sprouts s' ∧ ∀ m ∈ page.children, s.cells.size ≤ m.id ∧ m.id < s'.cells.size := by
  rw [readPage, takeFault, exec_bind, exec_modifyGet] at hexec
  cases hstrikes : s.faults.strikes with
  | true =>
      rw [hstrikes] at hexec
      cases hexec
  | false =>
      simp only [hstrikes, Bool.false_eq_true, if_false, exec_bind, exec_get] at hexec
      cases hstored : storedPage s.zones r.header with
      | error e =>
          rw [hstored] at hexec
          cases hexec
      | ok q =>
          simp only [hstored, countLoad, exec_bind, exec_modify] at hexec
          rw [Page.mapChildren_eq, exec_bind] at hexec
          obtain ⟨rs, s₁, hheaders, hsprouts, hnew⟩ := ofHeaders_sprout q.treeKind q.stem q.children
            { s with
              faults := s.faults.passed
              stats := { s.stats with loads := s.stats.loads + 1 } }
          rw [hheaders] at hexec
          cases hexec
          exact ⟨⟨hsprouts.size, hsprouts.hold⟩,
            fun m hm => hnew m (Page.mem_of_mem_withChildren hm)⟩

/-- A page that is loaded is held strongly, and memory has nothing of its children yet. -/
theorem load_fills (habsent : (s.hold r).copy? = none) (hr : r.id < s.cells.size)
    (hexec : exec r.load s = (.ok copy, s')) :
    s.Fills s' ∧ s'.hold r = .strong copy ∧ ∀ m ∈ copy.page.children, s'.Allocates m := by
  obtain ⟨s₁, hread, hkept⟩ := load_eq_ok hexec
  obtain ⟨hsprouts, hnew⟩ := readPage_sprouts hread
  obtain ⟨hsize, hself, hkeeps⟩ := hold_of_keep hkept (Nat.lt_of_lt_of_le hr hsprouts.size)
  have hother : ∀ k : PageRef, k.id ≠ r.id → s'.hold k = s.hold k :=
    fun k hid => (hkeeps k hid).trans (hsprouts.hold k)
  -- memory has nothing of the children, so they lead nowhere
  have hchildren : ∀ m ∈ copy.page.children, s'.Allocates m := by
    intro m hm k hwithin
    obtain ⟨hge, hlt⟩ := hnew m hm
    rw [hsize]
    cases hwithin with
    | self => exact hlt
    | beneath held _ _ =>
        rw [hother m (by omega)] at held
        exact absurd (Store.lt_of_copy held) (by omega)
  refine ⟨⟨fun k copy' hhold => ?_, fun k hk m hwithin => ?_⟩, hself r rfl, hchildren⟩
  · rwa [hother k (s.id_ne_of_absent habsent (by rw [hhold]; rfl))]
  · induction hwithin with
    | self k =>
        rw [hsize]
        exact Nat.lt_of_lt_of_le (hk k (.self k)) hsprouts.size
    | @beneath k m _ _ held child within ih =>
        by_cases hid : k.id = r.id
        · rw [hself k hid] at held
          cases held
          exact hchildren m child _ within
        · rw [hother k hid] at held
          exact ih fun m' hm' => hk m' (.beneath held child hm')

/-- Subtrees that are loaded one after another are all held strongly. -/
theorem firm_of_forM {load : PageRef → StoreM Unit}
    (hload : ∀ {m : PageRef} {s s' : Store}, s.Allocates m → exec (load m) s = (.ok (), s') →
      s.Fills s' ∧ s'.Firm m)
    {ms : List PageRef} (hms : ∀ m ∈ ms, s.Allocates m)
    (hexec : exec (ms.forM load) s = (.ok (), s')) : s.Fills s' ∧ ∀ m ∈ ms, s'.Firm m := by
  induction ms generalizing s with
  | nil =>
      cases hexec
      exact ⟨.refl _, by simp⟩
  | cons m ms ih =>
      rw [List.forM, exec_bind] at hexec
      rcases hfirst : exec (load m) s with ⟨e | ⟨⟩, s₁⟩
      · rw [hfirst] at hexec
        cases hexec
      rw [hfirst] at hexec
      obtain ⟨hfills, hm⟩ := hload (hms m List.mem_cons_self) hfirst
      obtain ⟨hfills', hrest⟩ :=
        ih (fun m' hm' => hfills.allocates m' (hms m' (List.mem_cons_of_mem m hm'))) hexec
      refine ⟨hfills.trans hfills', fun m' hm' => ?_⟩
      rcases List.mem_cons.1 hm' with rfl | hm'
      · exact hm.of_strong hfills'.strong
      · exact hrest m' hm'

/-- A subtree that has been loaded is held strongly. -/
theorem firm_of_loadTreeWithin (depth : Nat) (hr : s.Allocates r)
    (hexec : exec (loadTreeWithin depth r) s = (.ok (), s')) : s.Fills s' ∧ s'.Firm r := by
  induction depth generalizing r s s' with
  | zero => cases hexec
  | succ depth ih =>
      -- whichever way the page is come by, its children are loaded next
      have hbeneath : ∀ {copy : PageCopy} {s₁ : Store}, s.Fills s₁ → s₁.hold r = .strong copy →
          (∀ m ∈ copy.page.children, s₁.Allocates m) →
          exec (copy.page.children.forM (loadTreeWithin depth)) s₁ = (.ok (), s') →
          s.Fills s' ∧ s'.Firm r := by
        intro copy s₁ hfills hstrong hchildren hexec
        obtain ⟨hfills', hfirm⟩ := firm_of_forM ih hchildren hexec
        exact ⟨hfills.trans hfills', .intro (hfills'.strong r copy hstrong) hfirm⟩
      rw [exec_loadTreeWithin] at hexec
      cases hcopy : (s.hold r).copy? with
      | some copy =>
          rw [hcopy] at hexec
          obtain ⟨hfills, hstrong⟩ := Store.Fills.strengthen hcopy
          refine hbeneath hfills hstrong (fun m hm => hfills.allocates m ?_) hexec
          exact fun k hwithin => hr k (.beneath hcopy hm hwithin)
      | none =>
          rw [hcopy] at hexec
          dsimp only at hexec
          rw [exec_bind, exec_naming] at hexec
          rcases hload : exec r.load s with ⟨e | copy, s₁⟩
          · rw [hload] at hexec
            cases hexec
          rw [hload] at hexec
          obtain ⟨hfills, hstrong, hchildren⟩ := load_fills hcopy (hr r (.self r)) hload
          exact hbeneath hfills hstrong hchildren hexec

end PageRef

/-- A tree is resident in a store. -/
structure Tree.Resides (t : Tree) (s : Store) : Prop where
  isResident : t.isResident = true
  firm : s.Firm t.root

/-- A tree that has been loaded is resident. -/
theorem Tree.resides_of_loaded {t t' : Tree} (ht : s.Allocates t.root)
    (hexec : exec t.loaded s = (.ok t', s')) : t'.Resides s' := by
  rw [Tree.loaded, PageRef.loadTree, exec_bind, exec_bind, PageRef.start_eq, exec_ofZones] at hexec
  cases hopen : s.zones.checkOpen with
  | error e =>
      rw [hopen] at hexec
      cases hexec
  | ok _ =>
      rw [hopen] at hexec
      dsimp only at hexec
      rw [exec_bind, exec_get] at hexec
      dsimp only at hexec
      rcases hload : exec (PageRef.loadTreeWithin (s.depthBound t.root) t.root) s with ⟨e | ⟨⟩, s₁⟩
      · rw [hload] at hexec
        cases hexec
      rw [hload] at hexec
      cases hexec
      exact ⟨rfl, (PageRef.firm_of_loadTreeWithin _ ht hload).2⟩

/-! ## Nothing is loaded -/

namespace Store

/-- What is held strongly stays so, and no page has been loaded or has failed to be. -/
structure Rests (s s' : Store) : Prop where
  strong : ∀ r copy, s.hold r = .strong copy → s'.hold r = .strong copy
  loads : s'.stats.loads = s.stats.loads
  failures : s'.failures = s.failures

namespace Rests

theorem refl (s : Store) : s.Rests s :=
  ⟨fun _ _ hhold => hhold, rfl, rfl⟩

theorem trans (hrests : s.Rests s') (hrests' : s'.Rests s'') : s.Rests s'' :=
  ⟨fun r copy hhold => hrests'.strong r copy (hrests.strong r copy hhold),
    hrests'.loads.trans hrests.loads, hrests'.failures.trans hrests.failures⟩

theorem of_cells_eq (hcells : s'.cells = s.cells) (hloads : s'.stats.loads = s.stats.loads)
    (hfailures : s'.failures = s.failures) : s.Rests s' :=
  ⟨fun _ _ => (Keeps.of_cells_eq hcells).strong, hloads, hfailures⟩

theorem pushCell (s : Store) (cell : Cell) : s.Rests (s.pushCell cell) :=
  ⟨fun _ _ => (Keeps.pushCell s cell).strong, rfl, rfl⟩

/-- To reclaim memory drops no page that is held strongly. -/
theorem reclaim (s : Store) (holders : Holders) : s.Rests (s.reclaim holders) := by
  refine ⟨fun r copy hhold => ?_, rfl, rfl⟩
  rw [Store.hold, s.cell_reclaim]
  rcases Store.prune_cases (s.reach holders) (s.cell r.id) with heq | ⟨_, hweak, -⟩
  · rwa [heq]
  · rw [Store.hold, hweak] at hhold
    cases hhold

end Rests

theorem Firm.rest (hrests : s.Rests s') (hfirm : s.Firm r) : s'.Firm r :=
  hfirm.of_strong hrests.strong

/-- All pages beneath are firm. -/
theorem Firm.children (hfirm : s.Firm r) (hcopy : (s.hold r).copy? = some copy) :
    ∀ m ∈ copy.page.children, s.Firm m := by
  obtain ⟨hhold, hchildren⟩ := hfirm
  rw [hhold] at hcopy
  cases hcopy
  exact hchildren

end Store

/-- To find all pages in memory, and to go on with references all pages beneath which are there to
stay. -/
def residing : Conduct where
  Later s s' := s.Rests s'
  Fails s _ s' := s.Rests s'
  Tracks s r := s.Firm r
  later_refl := .refl
  later_trans := .trans
  fails_later := .trans
  refused _ := .refl _
  named _ hfails := hfails
  tracks_later := .rest
  tracks_fails := .rest
  tracks_held := .children
  found {s r copy s'} hfirm hexec := by
    obtain ⟨hhold, hchildren⟩ := hfirm
    rw [PageRef.pageCopy, exec_bind, PageRef.exec_hold, hhold] at hexec
    cases hexec
    have hrests : s.Rests (exec PageRef.countHit s).2 := .of_cells_eq rfl rfl rfl
    exact ⟨hrests, fun m hm => (hchildren m hm).rest hrests⟩
  notFound {s r e s'} hfirm hexec := by
    obtain ⟨hhold, -⟩ := hfirm
    rw [PageRef.pageCopy, exec_bind, PageRef.exec_hold, hhold] at hexec
    cases hexec
  copied hexec := by
    cases hexec
    exact .of_cells_eq rfl rfl rfl
  made {s _ _ _ _ _ copy} hchildren hexec := by
    cases hexec
    have hrests := Store.Rests.pushCell s ⟨.strong copy, some copy.page.version⟩
    exact ⟨hrests, .intro (congrArg Cell.hold (s.cell_pushCell_self _))
      fun m hm => (hchildren m hm).rest hrests⟩
  refolded {s _ r _ _} hfirm hexec := by
    cases hexec
    obtain ⟨hhold, hchildren⟩ := hfirm
    have hrests := Store.Rests.pushCell s (s.cell r.id)
    exact ⟨hrests, .intro ((congrArg Cell.hold (s.cell_pushCell_self _)).trans hhold)
      fun m hm => (hchildren m hm).rest hrests⟩

namespace Conduct

/-- What an operation leaves that finds all pages in memory. -/
theorem Obeys.rests {act : StoreM α} {P : α → Store → Prop} (hact : residing.Obeys act s P) :
    s.Rests (exec act s).2 := by
  rcases hact.cases with ⟨_, _, hexec, hlater, -⟩ | ⟨_, _, hexec, hfails⟩
  · rw [hexec]
    exact hlater
  · rw [hexec]
    exact hfails

end Conduct

/-! ## Resident trees -/

namespace Tree

variable {t t' : Tree}

theorem Resides.rest (hrests : s.Rests s') (ht : t.Resides s) : t.Resides s' :=
  ⟨ht.isResident, ht.firm.rest hrests⟩

theorem Resides.follow (ht : t.Resides s) (hfollows : residing.Follows t t' s') :
    t'.Resides s' := by
  obtain ⟨hfirm, hrerooted⟩ := hfollows
  rw [Rerooted] at hrerooted
  exact ⟨by rw [hrerooted]; exact ht.isResident, hfirm⟩

/-- A resident tree is not softened. -/
theorem exec_soften_of_resident (ht : t.isResident = true) (version : Nat) (s : Store) :
    exec (t.soften version) s = (.ok (), s) := by
  rw [Tree.soften, ht]
  rfl

end Tree

/-! ## Commits of resident trees -/

theorem modifyZones_rests (f : Zones → Zones) : residing.Allows (modifyZones f) s :=
  .ok (exec_modify _ s) (.of_cells_eq rfl rfl rfl) trivial

theorem writeZone_rests (request : Commit) {build : Nat → Nat → StoreM (String × α)}
    {P : α → Store → Prop} (hP : ∀ {a s' s''}, s'.Rests s'' → P a s' → P a s'')
    (hbuild : ∀ zone base s', s.Rests s' →
      residing.Obeys (build zone base) s' fun out s'' => P out.2 s'') :
    residing.Obeys (writeZone request build) s fun out s' => P out.2 s' := by
  have hopen : residing.Allows (ofZones Zones.checkOpen) s := by
    cases hcheck : s.zones.checkOpen with
    | error e => exact .error (by rw [exec_ofZones, hcheck]) (.refl s)
    | ok _ => exact .ok (by rw [exec_ofZones, hcheck]) (.refl s) trivial
  -- what is left to do once the zone is chosen
  have htail : ∀ s', s.Rests s' → residing.Obeys (do
      let zones := (← get).zones
      let built ← build zones.active ((zones.size? zones.active).getD 0)
      modifyZones (·.append built.1)
      return (zones.active, built.2)) s' fun out s'' => P out.2 s'' := by
    intro s' hrests
    refine .get ((hbuild _ _ s' hrests).bind fun out s'' _ hout => ?_)
    exact (modifyZones_rests _).bind fun _ _ hlater _ => .pure (hP hlater hout)
  refine hopen.bind fun _ s' hlater _ => .ite (fun _ => ?_) fun _ => htail s' hlater
  exact (modifyZones_rests _).bind fun _ s'' hlater' _ => htail s'' (hlater.trans hlater')

namespace Trunk

variable {t : Trunk}

theorem willCommit_rests (request : Commit) : residing.Allows (willCommit request) s := by
  rcases exec_willCommit request s with ⟨-, hexec⟩ | ⟨_, hexec⟩
  · exact .error hexec (.refl s)
  · exact .ok hexec (.refl s) trivial

/-- The trees of a written diff are resident. -/
theorem writeDiff_rests (ht : t.tree.Resides s) (request : Commit) :
    residing.Obeys (t.writeDiff request) s fun diff? s' =>
      ∀ diff, diff? = some diff → diff.tree.Resides s' ∧ diff.committed.Resides s' := by
  unfold writeDiff
  refine .ite (fun _ => ?_) fun _ => .pure fun _ hnone => nomatch hnone
  refine (willCommit_rests request).bind fun commit s' hlater _ => ?_
  have ht' := ht.rest hlater
  refine (writeZone_rests _ (P := fun (committed : Tree) s => committed.Resides s)
    (fun hrests hcommitted => hcommitted.rest hrests) fun zone base s'' hrests => ?_).bind ?_
  · refine (Tree.buildDiff_obeys (d := residing) (fun s _ => Store.Rests.refl s)
      (ht'.rest hrests).firm).mono ?_
    exact fun _ _ _ hpost => ⟨hpost.2.trans ht.isResident, hpost.1⟩
  · intro out s'' hlater' hout
    refine .pure fun diff hdiff => ?_
    cases hdiff
    exact ⟨ht'.rest hlater', hout⟩

theorem spoilDiff_rests (ht : t.tree.Resides s) (request : Commit) :
    residing.Allows (t.spoilDiff request) s := by
  refine (willCommit_rests request).bind fun commit s' hlater _ => ?_
  refine (writeZone_rests _ (P := fun _ _ => True) (fun _ _ => trivial)
    fun zone base s'' hrests => ?_).bind fun _ _ _ _ => .pure trivial
  refine (Tree.buildDiff_obeys (d := residing) (fun s _ => Store.Rests.refl s)
    (ht.firm.rest (hlater.trans hrests))).bind ?_
  exact fun _ s₁ _ _ => .error rfl (.refl s₁)

end Trunk

/-! ## Softening another tree -/

/-- What two references lead to in memory is apart. -/
def Store.Apart (s : Store) (r k : PageRef) : Prop :=
  ∀ id, s.LeadsTo r id → ¬ s.LeadsTo k id

/-- Softening a tree lets go of none of the pages beneath a reference that it has no pages in common
with. -/
theorem Store.Firm.soften {t : Tree} {version : Nat} (hapart : s.Apart t.root r)
    (hfirm : s.Firm r) : (exec (t.soften version) s).2.Firm r := by
  have hweakens := t.soften_weakens version s
  have hfree : ∀ m, s.Within r m → ¬ s.LeadsTo t.root m.id :=
    fun m hwithin hleads => hapart m.id hleads ⟨m, hwithin, rfl⟩
  clear hapart
  induction hfirm with
  | @intro r copy hold _ ih =>
      have hsame : (exec (t.soften version) s).2.hold r = s.hold r := by
        rcases hweakens.cell r.id with heq | ⟨hleads, -⟩
        · exact congrArg Cell.hold heq
        · exact absurd hleads (hfree r (.self r))
      refine .intro (hsame.trans hold) fun m hm => ih m hm fun k hwithin => ?_
      exact hfree k (.beneath (by rw [hold]; rfl) hm hwithin)

end PageTree
