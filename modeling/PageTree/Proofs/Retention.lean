import PageTree.Proofs.InMemory.Pages

/-!
# What operations on trees retain

An operation that reads pages and makes new ones drops nothing from memory and leaves the settings
alone.  `Attains act s post` says so of a store from which the operation comes to a result, and that
the result has a property.  It asks nothing of the store and promises nothing of failures; what it
tells is where the pages of new references come from.  `Store.Has` says that memory has the page of
a reference, to stay or not.
-/

namespace PageTree

open StoreM

variable {α β : Type} {s s' s'' : Store}

/-! ## Pages in memory -/

/-- Memory has the page of a reference. -/
def Store.Has (s : Store) (r : PageRef) (p : LivePage) : Prop :=
  ∃ serial, (s.hold r).copy? = some ⟨serial, p⟩

namespace Store.Has

variable {r : PageRef} {p q : LivePage}

theorem keep (hkeeps : s.Keeps s') (hp : s.Has r p) : s'.Has r p := by
  obtain ⟨serial, hp⟩ := hp
  exact ⟨serial, hkeeps.copies hp⟩

theorem unique (hp : s.Has r p) (hq : s.Has r q) : p = q := by
  obtain ⟨serial, hp⟩ := hp
  obtain ⟨serial', hq⟩ := hq
  rw [hp] at hq
  cases hq
  rfl

end Store.Has

theorem Store.Pins.has {r : PageRef} {p : LivePage} (hp : s.Pins r p) : s.Has r p := by
  obtain ⟨serial, hp⟩ := hp
  exact ⟨serial, by rw [hp]; rfl⟩

/-! ## Later states -/

/-- A later state of a store has what memory held, no fewer references and the same settings. -/
structure Store.Retains (s s' : Store) : Prop where
  keeps : s.Keeps s'
  cells : s.cells.size ≤ s'.cells.size
  settings : s'.settings = s.settings

namespace Store.Retains

theorem refl (s : Store) : s.Retains s :=
  ⟨.refl s, Nat.le_refl _, rfl⟩

theorem trans (hretains : s.Retains s') (hretains' : s'.Retains s'') : s.Retains s'' :=
  ⟨hretains.keeps.trans hretains'.keeps, Nat.le_trans hretains.cells hretains'.cells,
    hretains'.settings.trans hretains.settings⟩

theorem of_cells_eq (hcells : s'.cells = s.cells) (hsettings : s'.settings = s.settings) :
    s.Retains s' :=
  ⟨.of_cells_eq hcells, Nat.le_of_eq (by rw [hcells]), hsettings⟩

theorem pushCell (s : Store) (cell : Cell) : s.Retains (s.pushCell cell) :=
  ⟨.pushCell s cell, by simp, rfl⟩

end Store.Retains

/-! ## The judgment -/

/-- Where the operation comes to a result, the store has gone on to a later state, and the result
has a property. -/
def Attains (act : StoreM α) (s : Store) (post : α → Store → Prop) : Prop :=
  ∀ a s', exec act s = (.ok a, s') → s.Retains s' ∧ post a s'

namespace Attains

variable {act : StoreM α} {f : α → StoreM β} {P P' : α → Store → Prop} {Q : β → Store → Prop}

/-- An operation whose outcome is known. -/
theorem of_exec {outcome : Except StoreError α} (hexec : exec act s = (outcome, s'))
    (hretains : s.Retains s') (hpost : ∀ a, outcome = .ok a → P a s') : Attains act s P := by
  intro a s'' hexec'
  rw [hexec] at hexec'
  cases hexec'
  exact ⟨hretains, hpost a rfl⟩

protected theorem pure {a : α} (hpost : P a s) : Attains (pure a : StoreM α) s P :=
  of_exec (exec_pure a s) (.refl s) fun _ hok => by cases hok; exact hpost

protected theorem throw (e : StoreError) : Attains (throw e : StoreM α) s P :=
  of_exec (exec_throw e s) (.refl s) fun _ hok => nomatch hok

/-- One operation after another; what comes next may refer to the run of the first. -/
protected theorem bind (hact : Attains act s P)
    (hf : ∀ a s', exec act s = (.ok a, s') → s.Retains s' → P a s' → Attains (f a) s' Q) :
    Attains (act >>= f) s Q := by
  intro b s'' hexec
  rw [exec_bind] at hexec
  generalize hfirst : exec act s = outcome at hexec
  obtain ⟨e | a, s'⟩ := outcome
  · cases hexec
  · obtain ⟨hretains, hpost⟩ := hact a s' hfirst
    obtain ⟨hretains', hpost'⟩ := hf a s' hfirst hretains hpost b s'' hexec
    exact ⟨hretains.trans hretains', hpost'⟩

theorem mono (hact : Attains act s P)
    (himp : ∀ a s', s.Retains s' → P a s' → P' a s') : Attains act s P' := by
  intro a s' hexec
  obtain ⟨hretains, hpost⟩ := hact a s' hexec
  exact ⟨hretains, himp a s' hretains hpost⟩

/-- The state may be looked at. -/
protected theorem get {f : Store → StoreM β} (hf : Attains (f s) s Q) :
    Attains (get >>= f) s Q := by
  intro b s' hexec
  rw [exec_bind] at hexec
  exact hf b s' hexec

protected theorem ite {p : Prop} [Decidable p] {act' : StoreM α} (hthen : p → Attains act s P)
    (helse : ¬ p → Attains act' s P) : Attains (if p then act else act') s P := by
  split
  · next hp => exact hthen hp
  · next hp => exact helse hp

theorem ofZones (f : Zones → Except StoreError α) : Attains (ofZones f) s fun _ s' => s' = s :=
  of_exec (exec_ofZones f s) (.refl s) fun _ _ => rfl

theorem naming (r : PageRef) (hact : Attains act s P) : Attains (r.naming act) s P := by
  intro a s' hexec
  rw [PageRef.exec_naming] at hexec
  generalize hfirst : exec act s = outcome at hexec
  obtain ⟨e | a', s₁⟩ := outcome
  · cases hexec
  · cases hexec
    exact hact a s' hfirst

/-- An operation on every item of a list, where what holds of a result goes on to hold. -/
theorem listMapM {γ : Type} {f : γ → StoreM β} {R : γ → β → Store → Prop} (l : List γ)
    (hstable : ∀ a b s s', s.Retains s' → R a b s → R a b s')
    (hf : ∀ a ∈ l, ∀ s', s.Retains s' → Attains (f a) s' (R a)) :
    Attains (l.mapM f) s fun bs s' => List.Forall₂ (fun a b => R a b s') l bs := by
  induction l generalizing s with
  | nil => exact .pure .nil
  | cons a l ih =>
      rw [List.mapM_cons]
      refine .bind (hf a List.mem_cons_self s (.refl s)) fun b s' _ hretains hb => ?_
      refine .bind (ih fun a' ha' s'' hretains' =>
        hf a' (List.mem_cons_of_mem a ha') s'' (hretains.trans hretains')) ?_
      intro bs s'' _ hretains' hbs
      exact .pure (.cons (hstable a b s' s'' hretains' hb) hbs)

/-- A search of a list finds what a look at one of the items finds. -/
theorem listFindSomeM {γ : Type} {f : γ → StoreM (Option β)} {R : γ → β → Prop} (l : List γ)
    (hf : ∀ a ∈ l, ∀ s, Attains (f a) s fun found _ => ∀ b, found = some b → R a b) :
    Attains (l.findSomeM? f) s fun found _ => ∀ b, found = some b → ∃ a ∈ l, R a b := by
  induction l generalizing s with
  | nil => exact .pure fun _ hnone => nomatch hnone
  | cons a l ih =>
      rw [List.findSomeM?]
      refine .bind (hf a List.mem_cons_self s) fun found s' _ _ hfound => ?_
      cases found with
      | none =>
          refine (ih fun a' ha' => hf a' (List.mem_cons_of_mem a ha')).mono ?_
          intro found s'' _ hrest b hb
          obtain ⟨a', ha', hR⟩ := hrest b hb
          exact ⟨a', List.mem_cons_of_mem a ha', hR⟩
      | some b =>
          refine .pure ?_
          rintro _ ⟨⟩
          exact ⟨a, List.mem_cons_self, hfound b rfl⟩

end Attains

/-! ## Reading and making pages -/

namespace PageRef

variable {r : PageRef} {p : LivePage}

theorem readPage_attains (r : PageRef) : Attains r.readPage s fun _ _ => True := by
  have htake : Attains takeFault s fun _ _ => True :=
    .of_exec rfl (.of_cells_eq rfl rfl) fun _ _ => trivial
  unfold readPage
  refine .bind htake fun failing s' _ _ _ => ?_
  refine .ite (fun _ => .throw _) fun _ => .get ?_
  split
  · have hcount : Attains countLoadFailure s' fun _ _ => True :=
      .of_exec rfl (.of_cells_eq rfl rfl) fun _ _ => trivial
    exact .bind hcount fun _ _ _ _ _ => .throw _
  · next page _ =>
      have hcount : Attains countLoad s' fun _ _ => True :=
        .of_exec rfl (.of_cells_eq rfl rfl) fun _ _ => trivial
      refine .bind hcount fun _ s'' _ _ _ => ?_
      rw [Page.mapChildren_eq]
      refine .bind (.listMapM (R := fun _ _ _ => True) _ (fun _ _ _ _ _ _ => trivial) ?_)
        fun _ _ _ _ _ => .pure trivial
      exact fun h _ s₁ _ => .of_exec (exec_ofHeader _ _ h s₁) (.pushCell s₁ _) fun _ _ => trivial

/-- What memory takes in under a reference that it had no page of. -/
theorem keep_retains (habsent : (s.hold r).copy? = none) (hretains : s.Retains s')
    (page : LivePage) : s.Retains (exec (r.keep page) s').2 := by
  have hcells : (exec (copyOf page) s').2.cells.size = s'.cells.size := rfl
  rw [exec_keep]
  refine ⟨?_, by simpa [hcells] using hretains.cells, hretains.settings⟩
  intro r' copy hcopy
  rw [← hretains.keeps r' copy hcopy]
  exact Store.hold_modifyCell_of_ne _ _ (s.id_ne_of_absent habsent hcopy)

theorem load_attains (habsent : (s.hold r).copy? = none) :
    Attains r.load s fun copy s' => r.id < s.cells.size → (s'.hold r).copy? = some copy := by
  intro copy s'' hexec
  obtain ⟨s', hread, hkept⟩ := load_eq_ok hexec
  obtain ⟨hretains, -⟩ := readPage_attains r copy.page s' hread
  have hretains' := keep_retains habsent hretains copy.page
  rw [hkept] at hretains'
  refine ⟨hretains', fun hallocated => ?_⟩
  obtain ⟨-, hstrong, -⟩ := hold_of_keep hkept (Nat.lt_of_lt_of_le hallocated hretains.cells)
  rw [hstrong r rfl]
  rfl

/-- The page that a look at a reference gives is the one that memory then has. -/
theorem page_attains (r : PageRef) : Attains r.page s fun p s' =>
    r.id < s.cells.size → s'.Has r p := by
  have hcopy : Attains r.pageCopy s fun copy s' =>
      r.id < s.cells.size → (s'.hold r).copy? = some copy := by
    intro copy s' hexec
    rw [pageCopy, exec_bind, exec_hold] at hexec
    cases hhold : (s.hold r).copy? with
    | some found =>
        simp only [hhold, countHit, exec_bind, exec_modify, exec_pure] at hexec
        cases hexec
        exact ⟨.of_cells_eq rfl rfl, fun _ => hhold⟩
    | none =>
        simp only [hhold] at hexec
        have hload : Attains (StoreM.ofZones Zones.checkOpen >>= fun _ => r.load) s
            fun copy s' => r.id < s.cells.size → (s'.hold r).copy? = some copy := by
          refine .bind (.ofZones _) ?_
          rintro _ _ - - rfl
          exact load_attains hhold
        exact hload.naming r copy s' hexec
  refine .bind hcopy fun copy s' _ _ hheld => .pure fun hallocated => ?_
  exact ⟨copy.serial, hheld hallocated⟩

/-- A page that memory holds to stay is had. -/
theorem page_attains_of_pins (hp : s.Pins r p) :
    Attains r.page s fun found s' => found = p ∧ s'.Pins r p := by
  refine (page_attains r).mono fun found s' hretains hfound => ?_
  have hp' := hp.keep hretains.keeps
  exact ⟨(hfound hp.allocated).unique hp'.has, hp'⟩

/-- A look at a page that memory has gives that page. -/
theorem exec_page_of_has (hp : s.Has r p) : ∃ s', exec r.page s = (.ok p, s') := by
  obtain ⟨serial, hcopy⟩ := hp
  have hfound : ∃ s', exec r.pageCopy s = (.ok ⟨serial, p⟩, s') := by
    rw [pageCopy, exec_bind, exec_hold]
    simp only [hcopy]
    exact ⟨_, rfl⟩
  obtain ⟨s', hfound⟩ := hfound
  exact ⟨s', by rw [page, exec_bind, hfound]; rfl⟩

/-- Nothing depends on a zone older than the first, so nothing is evacuated from one. -/
theorem evacuated_zero_attains (r : PageRef) (version : Nat) :
    Attains (r.evacuated 0 version) s fun r' _ => r' = r := by
  refine .get ?_
  generalize s.depthBound r = depth
  cases depth with
  | zero => exact .throw _
  | succ depth =>
      rw [evacuatedWithin, if_pos (by simp)]
      exact .pure rfl

end PageRef

/-- A reference to a new page, which memory holds to stay. -/
structure Store.Made (s : Store) (p : LivePage) (r : PageRef) : Prop where
  pins : s.Pins r p
  header : r.header = .ofPage p.stored .absent

theorem Store.Made.keep {p : LivePage} {r : PageRef} (hkeeps : s.Keeps s') (hmade : s.Made p r) :
    s'.Made p r :=
  ⟨hmade.pins.keep hkeeps, hmade.header⟩

theorem PageRef.ofPage_attains (p : LivePage) :
    Attains (ofPage p .absent) s fun r s' => s'.Made p r := by
  refine .of_exec (exec_ofPage p .absent s) ?_ fun r hok => ?_
  · have hcopied : s.Retains (exec (copyOf p) s).2 := .of_cells_eq rfl rfl
    exact hcopied.trans (.pushCell _ _)
  · cases hok
    exact ⟨⟨s.nextSerial, congrArg Cell.hold (Store.cell_pushCell_self _ _)⟩, rfl⟩

end PageTree
