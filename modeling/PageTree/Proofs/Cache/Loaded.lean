import PageTree.Proofs.Cache.Excerpt
import PageTree.Tree.Basic

/-!
# Loading a whole tree

Memory may hold more or less of the pages that lie in zones without any change to what the trees
are (`Store.Recaches`).  To load a tree makes memory hold all its pages strongly, and what it has
held strongly before it goes on to hold so (`Tree.loaded_warms`).
-/

namespace PageTree

open StoreM

variable {s s' s'' : Store} {c c' c'' : Chart} {r : PageRef} {copy : PageCopy}

/-! ## What memory holds -/

/-- Memory holds other pages, or holds them otherwise, and all else is as before. -/
structure Store.Recaches (s : Store) (c : Chart) (s' : Store) (c' : Chart) : Prop where
  represents : Represents s' c'
  le : c ≤ c'
  filed : c'.filed = c.filed
  zones : s'.zones = s.zones
  faults : s'.faults.pending ≤ s.faults.pending

namespace Store.Recaches

theorem trans (hrecaches : s.Recaches c s' c') (hrecaches' : s'.Recaches c' s'' c'') :
    s.Recaches c s'' c'' where
  represents := hrecaches'.represents
  le := Chart.le_trans hrecaches.le hrecaches'.le
  filed := hrecaches'.filed.trans hrecaches.filed
  zones := hrecaches'.zones.trans hrecaches.zones
  faults := Nat.le_trans hrecaches'.faults hrecaches.faults

/-- The zones go on to supply the pages that have been filed. -/
theorem supplies (hrecaches : s.Recaches c s' c') (hsupplies : Supplies s c) :
    Supplies s' c' where
  isOpen := by rw [hrecaches.zones, hsupplies.isOpen]
  faultless := Nat.le_zero.1 (hsupplies.faultless ▸ hrecaches.faults)
  read := by
    rw [hrecaches.filed, hrecaches.zones]
    exact hsupplies.read

end Store.Recaches

theorem Grows.recaches (hgrows : Grows s c s' c') : s.Recaches c s' c' :=
  ⟨hgrows.represents, hgrows.le, hgrows.filed, hgrows.zones, hgrows.faults⟩

/-- Memory holds more, and what it held strongly it still holds so. -/
structure Store.Warms (s : Store) (c : Chart) (s' : Store) (c' : Chart) : Prop
    extends s.Recaches c s' c' where
  strong : ∀ r copy, s.hold r = .strong copy → s'.hold r = .strong copy

namespace Store.Warms

theorem refl (hrep : Represents s c) : s.Warms c s c :=
  ⟨(Grows.refl hrep).recaches, fun _ _ hhold => hhold⟩

theorem trans (hwarms : s.Warms c s' c') (hwarms' : s'.Warms c' s'' c'') : s.Warms c s'' c'' :=
  ⟨hwarms.toRecaches.trans hwarms'.toRecaches,
    fun r copy hhold => hwarms'.strong r copy (hwarms.strong r copy hhold)⟩

end Store.Warms

theorem Grows.warms (hgrows : Grows s c s' c') : s.Warms c s' c' :=
  ⟨hgrows.recaches, fun _ _ hhold => hgrows.keeps.strong hhold⟩

/-- All pages of a subtree are held strongly. -/
inductive Store.Firm (s : Store) : PageRef → Prop where
  | intro {r : PageRef} {copy : PageCopy} (hold : s.hold r = .strong copy)
      (children : ∀ m ∈ copy.page.children, Firm s m) : Firm s r

theorem Store.Firm.of_strong
    (hstrong : ∀ r copy, s.hold r = .strong copy → s'.hold r = .strong copy)
    (hfirm : s.Firm r) : s'.Firm r := by
  induction hfirm with
  | intro hold _ ih => exact .intro (hstrong _ _ hold) ih

theorem Store.Firm.warm (hwarms : s.Warms c s' c') (hfirm : s.Firm r) : s'.Firm r :=
  hfirm.of_strong hwarms.strong

/-! ## Loading a page -/

/-- A page in memory may be held strongly from now on. -/
theorem Represents.strengthen (hrep : Represents s c) (hr : c.refs r)
    (hcommitted : r.isCommitted = true) (hcopy : (s.hold r).copy? = some copy) :
    s.Warms c (s.modifyCell r.id fun cell => { cell with hold := .strong copy }) c ∧
      (s.modifyCell r.id fun cell => { cell with hold := .strong copy }).hold r =
        .strong copy := by
  have hself := fun {k : PageRef} (hid : k.id = r.id) =>
    s.hold_modifyCell_of_eq (fun cell => { cell with hold := .strong copy }) hid
      (hrep.allocated r hr)
  refine ⟨⟨⟨?_, Chart.le_refl c, rfl, rfl, Nat.le_refl _⟩, ?_⟩, hself rfl⟩
  · apply hrep.modifyCell hr hcommitted
    · rintro copy' ⟨⟩
      exact hrep.held r copy hr hcopy
    · exact fun v p hv hp => hrep.dated r v p hr hv hp
  · intro r' copy' hhold
    by_cases hid : r'.id = r.id
    · -- both references see one cell, and the copy in it is the one that is strengthened
      rw [← s.hold_eq_of_id hid, hhold] at hcopy
      cases hcopy
      exact hself hid
    · rwa [s.hold_modifyCell_of_ne _ hid]

/-- A page that memory has let go of is loaded, to be held strongly. -/
theorem PageRef.load_warms (hrep : Represents s c) (hsupplies : Supplies s c) (hr : c.refs r)
    (habsent : (s.hold r).copy? = none) :
    ∃ copy s' c', exec (r.naming r.load) s = (.ok copy, s') ∧ s.Warms c s' c' ∧
      s'.hold r = .strong copy := by
  have hcheck : exec (StoreM.ofZones Zones.checkOpen >>= fun _ => r.load) s = exec r.load s := by
    rw [exec_bind, exec_ofZones, Zones.checkOpen, hsupplies.isOpen]
    rfl
  rcases load_cases hrep hr habsent with
    ⟨_, _, _, _, hfail⟩ | ⟨q, s₁, hcommitted, hq, hhold, hgrows, -, htail⟩
  · exact absurd hsupplies.serves (hfail "").2.unserved
  · obtain ⟨copy, s', c', hexec, hgrows', -, hstrong⟩ :=
      (takeIn_runs hgrows.represents hr (by rw [hhold, habsent]) hcommitted hq).succeeds
        (hgrows.serves hsupplies.serves)
    refine ⟨copy, s', c', ?_, (hgrows.trans hgrows').warms, hstrong⟩
    rw [exec_naming, ← hcheck, htail, hexec]

/-! ## Loading a tree -/

namespace PageRef

/-- Actions that each make the pages beneath a reference firm. -/
theorem forM_warms {f : PageRef → StoreM Unit} (rs : List PageRef) (hrep : Represents s c)
    (hf : ∀ r ∈ rs, ∀ s' c', s.Warms c s' c' →
      ∃ s'' c'', exec (f r) s' = (.ok (), s'') ∧ s'.Warms c' s'' c'' ∧ s''.Firm r) :
    ∃ s' c', exec (rs.forM f) s = (.ok (), s') ∧ s.Warms c s' c' ∧ ∀ r ∈ rs, s'.Firm r := by
  induction rs generalizing s c with
  | nil => exact ⟨s, c, rfl, .refl hrep, by simp⟩
  | cons r rs ih =>
      obtain ⟨s₁, c₁, hexec, hwarms, hfirm⟩ := hf r List.mem_cons_self s c (.refl hrep)
      obtain ⟨s₂, c₂, hexec', hwarms', hrest⟩ := ih hwarms.represents
        fun m hm s' c' hwarms' => hf m (List.mem_cons_of_mem r hm) s' c' (hwarms.trans hwarms')
      refine ⟨s₂, c₂, ?_, hwarms.trans hwarms', ?_⟩
      · rw [List.forM, exec_bind, hexec]
        exact hexec'
      · intro m hm
        rcases List.mem_cons.1 hm with rfl | hm
        · exact hfirm.warm hwarms'
        · exact hrest m hm

theorem exec_loadTreeWithin [PageLoader] (depth : Nat) (r : PageRef) (s : Store) :
    exec (loadTreeWithin (depth + 1) r) s =
      match (s.hold r).copy? with
      | some copy => exec (copy.page.children.forM (loadTreeWithin depth))
          (s.modifyCell r.id fun cell => { cell with hold := .strong copy })
      | none => exec (r.naming r.load >>= fun copy =>
          copy.page.children.forM (loadTreeWithin depth)) s := by
  rw [loadTreeWithin, exec_bind, exec_hold]
  dsimp only
  cases (s.hold r).copy? with
  | none => rfl
  | some copy => rfl

theorem loadTreeWithin_warms (hrep : Represents s c) (hsupplies : Supplies s c) (depth : Nat)
    (hr : c.refs r) (hcommitted : r.isCommitted = true) (hdepth : r.treeSize < depth) :
    ∃ s' c', exec (loadTreeWithin depth r) s = (.ok (), s') ∧ s.Warms c s' c' ∧ s'.Firm r := by
  induction depth generalizing s c r with
  | zero => exact absurd hdepth (Nat.not_lt_zero _)
  | succ depth ih =>
      -- whichever way the page is come by, its children are loaded next
      have hbeneath : ∀ {copy : PageCopy} {s₁ : Store} {c₁ : Chart}, s.Warms c s₁ c₁ →
          s₁.hold r = .strong copy →
          ∃ s' c', exec (copy.page.children.forM (loadTreeWithin depth)) s₁ = (.ok (), s') ∧
            s.Warms c s' c' ∧ s'.Firm r := by
        intro copy s₁ c₁ hwarms hstrong
        have hrep₁ := hwarms.represents
        have hr₁ := hwarms.le.refs r hr
        obtain ⟨hpage, hrefs⟩ := hrep₁.held r copy hr₁ (by rw [hstrong]; rfl)
        have hload : ∀ m ∈ copy.page.children, ∀ s₂ c₂, s₁.Warms c₁ s₂ c₂ →
            ∃ s' c', exec (loadTreeWithin depth m) s₂ = (.ok (), s') ∧ s₂.Warms c₂ s' c' ∧
              s'.Firm m := by
          intro m hm s₂ c₂ hwarms₂
          have hlt := hrep₁.treeSize_lt hr₁ hpage hm
          have hmem : m.site ∈ (copy.page.map site).children := by
            rw [Page.map_children]
            exact List.mem_map_of_mem hm
          rw [site_of_committed hcommitted] at hpage
          obtain ⟨k, hk⟩ := Chart.children_of_filed hpage hmem
          exact ih hwarms₂.represents ((hwarms.trans hwarms₂).supplies hsupplies)
            (hwarms₂.le.refs m (hrefs m hm)) (site_eq_filed hk).2 (by omega)
        obtain ⟨s', c', hexec, hwarms', hfirm⟩ := forM_warms copy.page.children hrep₁ hload
        exact ⟨s', c', hexec, hwarms.trans hwarms',
          .intro (hwarms'.strong r copy hstrong) hfirm⟩
      rw [exec_loadTreeWithin]
      cases hcopy : (s.hold r).copy? with
      | some copy =>
          obtain ⟨hwarms, hstrong⟩ := hrep.strengthen hr hcommitted hcopy
          exact hbeneath hwarms hstrong
      | none =>
          obtain ⟨copy, s₁, c₁, hexec, hwarms, hstrong⟩ := load_warms hrep hsupplies hr hcopy
          obtain ⟨s', c', hexec', hrest⟩ := hbeneath hwarms hstrong
          refine ⟨s', c', ?_, hrest⟩
          simp only [exec_bind, hexec, hexec']

end PageRef

/-- A committed tree can be loaded, and then memory holds all its pages strongly. -/
theorem Tree.loaded_warms {t : Tree} (hrep : Represents s c) (hsupplies : Supplies s c)
    (hr : c.refs t.root) (hcommitted : t.root.isCommitted = true) :
    ∃ s' c', exec t.loaded s = (.ok { t with isResident := true }, s') ∧ s.Warms c s' c' ∧
      s'.Firm t.root := by
  obtain ⟨s', c', hexec, hwarms, hfirm⟩ := PageRef.loadTreeWithin_warms hrep hsupplies
    (s.depthBound t.root) hr hcommitted (Store.treeSize_lt_depthBound _ _)
  refine ⟨s', c', ?_, hwarms, hfirm⟩
  have hload : exec t.root.loadTree s = (.ok (), s') := by
    rw [PageRef.loadTree, exec_bind, PageRef.start_eq, exec_ofZones, Zones.checkOpen,
      hsupplies.isOpen]
    exact hexec
  rw [Tree.loaded, exec_bind, hload]
  rfl

end PageTree
