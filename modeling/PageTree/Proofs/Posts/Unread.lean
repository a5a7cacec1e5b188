import PageTree.Proofs.Posts.Evacuation

/-!
# Zones that are not read

A read looks for pages in memory and in zones.  If a subtree is clear of the zones before some
zone, it goes the same way whatever these zones hold, and whether they are there at all: `Abreast`
says of two operations that one does with other zones what the other does with the zones of the
store.  `PageRef.page_abreast` says so of a page, and with it of all that is read page by page.
-/

namespace PageTree

open StoreM

variable {α β γ : Type} {s s' : Store} {c c' : Chart} {z : Zones} {zone : Nat} {r : PageRef}

/-! ## Zones that agree -/

/-- Zones that are the same from some zone on. -/
structure Zones.AgreeFrom (zone : Nat) (z z' : Zones) : Prop where
  isClosed : z'.isClosed = z.isClosed
  text : ∀ id, zone ≤ id → z'.text? id = z.text? id

theorem Zones.AgreeFrom.refl (zone : Nat) (z : Zones) : AgreeFrom zone z z :=
  ⟨rfl, fun _ _ => rfl⟩

theorem Zones.AgreeFrom.trans {z z' z'' : Zones} (hagree : AgreeFrom zone z z')
    (hagree' : AgreeFrom zone z' z'') : AgreeFrom zone z z'' :=
  ⟨hagree'.isClosed.trans hagree.isClosed,
    fun id hle => (hagree'.text id hle).trans (hagree.text id hle)⟩

/-- What is stored from some zone on is found in zones that agree from it on. -/
theorem Zones.AgreeFrom.storedPage {z z' : Zones} {h : Header} (hagree : AgreeFrom zone z z')
    (hle : zone ≤ h.zone) : PageRef.storedPage z' h = PageRef.storedPage z h := by
  simp only [PageRef.storedPage, Zones.slice, Zones.checkOpen, hagree.isClosed,
    hagree.text _ hle]

/-! ## Operations that do not look at the zones -/

/-- The operation does the same whatever the zones are, and leaves them as they are. -/
def Blind (m : StoreM α) : Prop :=
  ∀ s z, exec m (s.withZones z) = ((exec m s).1, (exec m s).2.withZones z)

namespace Blind

protected theorem pure (a : α) : Blind (pure a) :=
  fun _ _ => rfl

theorem throw (e : StoreError) : Blind (throw e : StoreM α) :=
  fun _ _ => rfl

protected theorem bind {m : StoreM α} {f : α → StoreM β} (hm : Blind m)
    (hf : ∀ a, Blind (f a)) : Blind (m >>= f) := by
  intro s z
  rw [exec_bind, exec_bind, hm s z]
  generalize exec m s = outcome
  obtain ⟨_ | a, s'⟩ := outcome
  · rfl
  · exact hf a s' z

theorem listMapM {f : α → StoreM β} (hf : ∀ a, Blind (f a)) (l : List α) : Blind (l.mapM f) := by
  induction l with
  | nil => exact .pure []
  | cons a l ih =>
      rw [List.mapM_cons]
      exact (hf a).bind fun _ => ih.bind fun _ => .pure _

theorem mapChildren {f : β → StoreM γ} (hf : ∀ m, Blind (f m)) (p : Page β) (version : Nat) :
    Blind (p.mapChildren version f) := by
  rw [Page.mapChildren_eq]
  exact (listMapM hf p.children).bind fun _ => .pure _

/-- What is left to do once a filed page has been read. -/
theorem takeIn (r : PageRef) (q : Page Header) : Blind (r.takeIn q) := by
  refine (mapChildren (fun h _ _ => rfl) q q.version).bind fun page => ?_
  dsimp only
  split
  · exact .throw _
  · exact fun _ _ => rfl

end Blind

/-! ## Pages -/

namespace PageRef

/-- A load goes the same way with other zones that have the page. -/
theorem exec_load_withZones (hstored : storedPage z r.header = storedPage s.zones r.header) :
    exec r.load (s.withZones z) = ((exec r.load s).1, (exec r.load s).2.withZones z) := by
  cases hcommitted : r.isCommitted with
  | false =>
      simp only [load, hcommitted, Bool.not_false, if_true]
      rfl
  | true =>
      simp only [load, hcommitted, Bool.not_true, Bool.false_eq_true, if_false, exec_bind, read_eq,
        readPage, takeFault, exec_modifyGet]
      -- a pending fault strikes before the zones are looked at
      have hfaults : (s.withZones z).faults = s.faults := rfl
      have hzones : (s.withZones z).zones = z := rfl
      cases hstrikes : s.faults.strikes with
      | false =>
          simp only [hfaults, hstrikes, Bool.false_eq_true, if_false, exec_bind, exec_get, hzones,
            hstored]
          cases storedPage s.zones r.header with
          | error e => rfl
          | ok q =>
              have hblind := (Blind.takeIn r q)
                { s with
                  faults := s.faults.passed
                  stats := { s.stats with loads := s.stats.loads + 1 } } z
              simp only [takeIn, exec_bind] at hblind
              simp only [countLoad, exec_bind, exec_modify]
              exact hblind
      | true =>
          simp only [hfaults, hstrikes, if_true]
          rfl

/-- The page of a reference is found the same way with other zones that have it. -/
theorem exec_pageCopy_withZones (hclosed : z.isClosed = s.zones.isClosed)
    (hstored : (s.hold r).copy? = none → storedPage z r.header = storedPage s.zones r.header) :
    exec r.pageCopy (s.withZones z) =
      ((exec r.pageCopy s).1, (exec r.pageCopy s).2.withZones z) := by
  have hhold : (s.withZones z).hold r = s.hold r := rfl
  rw [pageCopy, exec_bind, exec_bind, exec_hold, exec_hold, hhold]
  dsimp only
  cases hcopy : (s.hold r).copy? with
  | some copy => rfl
  | none =>
      have hopen : exec (StoreM.ofZones Zones.checkOpen >>= fun _ => r.load) (s.withZones z) =
          ((exec (StoreM.ofZones Zones.checkOpen >>= fun _ => r.load) s).1,
            (exec (StoreM.ofZones Zones.checkOpen >>= fun _ => r.load) s).2.withZones z) := by
        have hcheck : (s.withZones z).zones.checkOpen = s.zones.checkOpen := by
          simp only [Zones.checkOpen]
          rw [← hclosed]
          rfl
        rw [exec_bind, exec_bind, exec_ofZones, exec_ofZones, hcheck]
        cases s.zones.checkOpen with
        | error e => rfl
        | ok _ => exact exec_load_withZones (hstored hcopy)
      dsimp only
      rw [exec_naming, exec_naming, start_eq, hopen]
      generalize exec (StoreM.ofZones Zones.checkOpen >>= fun _ => r.load) s = outcome
      obtain ⟨_ | _, s'⟩ := outcome <;> rfl

end PageRef

/-! ## Reading abreast -/

/-- Another operation does with other zones what an operation does with those of the store, and
what the operation gives has a property. -/
structure Abreast (z : Zones) (m m' : StoreM α) (s : Store) (c : Chart)
    (P : α → Store → Chart → Prop) : Prop where
  same : exec m' (s.withZones z) = ((exec m s).1, (exec m s).2.withZones z)
  runs : Runs m s c P

namespace Abreast

variable {m m' : StoreM α} {P : α → Store → Chart → Prop} {Q : β → Store → Chart → Prop}

protected theorem pure (hrep : Represents s c) {a : α} (hpost : P a s c) :
    Abreast z (pure a) (pure a) s c P :=
  ⟨rfl, Runs.pure hrep hpost⟩

protected theorem bind {f f' : α → StoreM β} (hm : Abreast z m m' s c P)
    (hf : ∀ a s' c', Grows s c s' c' → P a s' c' → Abreast z (f a) (f' a) s' c' Q) :
    Abreast z (m >>= f) (m' >>= f') s c Q := by
  refine ⟨?_, hm.runs.bind fun a s' c' hgrows hpost => (hf a s' c' hgrows hpost).runs⟩
  rw [exec_bind, exec_bind, hm.same]
  rcases hm.runs.cases with ⟨a, s', c', hexec, hgrows, hpost⟩ | ⟨e, s', c', hexec, -⟩
  · rw [hexec]
    exact (hf a s' c' hgrows hpost).same
  · rw [hexec]

/-- What is made of a result. -/
protected theorem map (hm : Abreast z m m' s c P) (f : α → β) :
    Abreast z (m >>= fun a => pure (f a)) (m' >>= fun a => pure (f a)) s c fun _ _ _ => True :=
  hm.bind fun _ _ _ hgrows _ => .pure hgrows.represents trivial

/-- The stores may be looked at. -/
protected theorem get {f f' : Store → StoreM β} (hf : Abreast z (f s) (f' (s.withZones z)) s c Q) :
    Abreast z (get >>= f) (get >>= f') s c Q :=
  ⟨by rw [exec_bind, exec_bind]; exact hf.same, Runs.get hf.runs⟩

/-- What is looked for in one thing after another. -/
theorem findSomeM? {f f' : α → StoreM (Option β)} (hrep : Represents s c) (l : List α)
    (hf : ∀ a ∈ l, ∀ s' c', Grows s c s' c' →
      Abreast z (f a) (f' a) s' c' fun _ _ _ => True) :
    Abreast z (l.findSomeM? f) (l.findSomeM? f') s c fun _ _ _ => True := by
  induction l generalizing s c with
  | nil => exact .pure hrep trivial
  | cons a l ih =>
      rw [List.findSomeM?_cons, List.findSomeM?_cons]
      refine (hf a List.mem_cons_self s c (Grows.refl hrep)).bind ?_
      intro found s' c' hgrows _
      cases found with
      | some b => exact .pure hgrows.represents trivial
      | none =>
          exact ih hgrows.represents fun b hb s'' c'' hgrows' =>
            hf b (List.mem_cons_of_mem a hb) s'' c'' (hgrows.trans hgrows')

end Abreast

namespace PageRef

/-- The page of a reference that is clear of older zones is found abreast of zones that agree from
then on, and what is beneath is clear of them too. -/
theorem pageCopy_abreast (hrep : Represents s c) (hr : c.refs r) (hclear : r.ClearOf zone)
    (hagree : Zones.AgreeFrom zone s.zones z) :
    Abreast z r.pageCopy r.pageCopy s c fun copy _ c' =>
      c'.page r.site = some (copy.page.map site) ∧
        ∀ m ∈ copy.page.children, c'.refs m ∧ m.ClearOf zone := by
  refine ⟨exec_pageCopy_withZones hagree.isClosed fun habsent => ?_, ?_⟩
  · have hsound := hrep.sound r hr
    obtain ⟨p, hpage⟩ := hsound.page
    have hdesc := hsound.describes hpage
    rw [header_site] at hdesc
    exact hagree.storedPage (hclear.le_zone hdesc (hrep.committed_of_absent hr habsent))
  · refine (pageCopy_runs hrep hr).mono ?_
    rintro copy s' c' hgrows ⟨hpage, hrefs⟩
    have hbelow := hclear.children hgrows.represents.toMirrors (hgrows.le.refs r hr) hpage
    exact ⟨hpage, fun m hm => ⟨hrefs m hm, hbelow m hm⟩⟩

theorem page_abreast (hrep : Represents s c) (hr : c.refs r) (hclear : r.ClearOf zone)
    (hagree : Zones.AgreeFrom zone s.zones z) :
    Abreast z r.page r.page s c fun p _ c' =>
      c'.page r.site = some (p.map site) ∧ ∀ m ∈ p.children, c'.refs m ∧ m.ClearOf zone :=
  (pageCopy_abreast hrep hr hclear hagree).bind fun _ _ _ hgrows hpost =>
    .pure hgrows.represents hpost

end PageRef
end PageTree
