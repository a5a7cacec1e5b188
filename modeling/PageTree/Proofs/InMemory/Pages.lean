import PageTree.Proofs.Rebuild

/-!
# Trees in memory

Before anything is softened, memory holds every page of a tree strongly, and what the tree means
does not depend on the zones: its pages may have been given places in any zones, even the same
place more than once.  The pages that memory holds so are a chart of their own (`Store.pinned`),
in which a reference is known by its identity alone.  `Store.Upright` says that a tree is all in
memory and that its references measure their pages; `Succeeds` judges operations that need nothing
else.
-/

namespace PageTree

open StoreM

/-! ## Measures -/

/-- The header has the measures of a page, wherever the page lies. -/
structure Header.Measures (h : Header) (p : Page Header) : Prop where
  extent : h.extent = p.extent
  size : h.size = p.size
  area : h.area = p.area

theorem Header.measures_ofPage (p : Page Header) (fold : Value) :
    (Header.ofPage p fold).Measures p :=
  ⟨rfl, rfl, rfl⟩

/-- Giving a page its place keeps its measures. -/
theorem Header.measures_located {h : Header} {p : Page Header} (hextent : h.extent = p.extent)
    (zone base : Nat) : (h.located p zone base).Measures p :=
  ⟨hextent, rfl, rfl⟩

/-- What a page covers follows from what its children cover. -/
theorem Page.extent_congr {p p' : Page Header}
    (hbody : p'.body.map Header.extent = p.body.map Header.extent) : p'.extent = p.extent := by
  have hspans : p'.children.map Header.span = p.children.map Header.span := by
    have h := congrArg (fun body => body.children.map Prod.fst) hbody
    simpa [PageBody.children_map, Page.children_eq, Header.extent, Function.comp_def] using h
  have htiles : p'.children.map (fun h => (h.x, h.y)) = p.children.map fun h => (h.x, h.y) := by
    have h := congrArg (fun body => body.children.map Prod.snd) hbody
    simpa [PageBody.children_map, Page.children_eq, Header.extent, Function.comp_def] using h
  obtain ⟨version, stem, body⟩ := p
  obtain ⟨version', stem', body'⟩ := p'
  cases body with
  | btreeNode children =>
      cases body' with
      | btreeNode children' =>
          exact Prod.ext (congrArg List.sum hspans) rfl
      | _ => cases hbody
  | qtreeNode children =>
      cases body' with
      | qtreeNode children' =>
          exact Prod.ext (congrArg List.sum hspans) (congrArg Tile.bounds htiles)
      | _ => cases hbody
  | btreeLeaf slots | utreeLeaf value | qtreeLeaf slots =>
      cases body' <;> cases hbody
      rfl

/-- Where children are replaced by others that cover the same, a page goes on to cover the
same. -/
theorem Page.Rebuilt.extent_eq {R : PageRef → PageRef → Prop} {version : Nat} {p p' : LivePage}
    (hrebuilt : p.Rebuilt R version p')
    (hR : ∀ m m', R m m' → m'.header.extent = m.header.extent) :
    p'.stored.extent = p.stored.extent := by
  apply Page.extent_congr
  apply PageBody.ext_of_shape
  · simpa [Page.stored] using hrebuilt.shape
  · have hall := hrebuilt.children
    rw [PageBody.children_map, PageBody.children_map, ← Page.children_eq, ← Page.children_eq,
      Page.stored_children, Page.stored_children]
    generalize p.children = ms at hall ⊢
    generalize p'.children = ms' at hall ⊢
    induction hall with
    | nil => rfl
    | cons hm _ ih => simp only [List.map_cons, hR _ _ hm, ih]

/-! ## What memory holds -/

namespace Store

/-- Memory holds the page of a reference, to stay. -/
def Pins (s : Store) (r : PageRef) (p : LivePage) : Prop :=
  ∃ serial, s.hold r = .strong ⟨serial, p⟩

/-- The chart of the pages that memory holds to stay, by the identities of their references,
whether they have been given places in zones or not. -/
def pinned (s : Store) : Chart where
  refs _ := False
  live id := ((s.cell id).hold.strong?.map PageCopy.page).map (Page.map Site.live)
  filed _ _ := none
  foldings _ := False

variable {s s' : Store} {r r' m : PageRef} {p q : LivePage}

theorem Pins.unique (hp : s.Pins r p) (hq : s.Pins r q) : p = q := by
  obtain ⟨serial, hp⟩ := hp
  obtain ⟨serial', hq⟩ := hq
  rw [hp] at hq
  cases hq
  rfl

theorem Pins.keep (hkeeps : s.Keeps s') (hp : s.Pins r p) : s'.Pins r p := by
  obtain ⟨serial, hp⟩ := hp
  exact ⟨serial, hkeeps.strong hp⟩

/-- Memory only holds the pages of references that have been made. -/
theorem Pins.allocated (hp : s.Pins r p) : r.id < s.cells.size := by
  obtain ⟨serial, hp⟩ := hp
  by_contra hfresh
  rw [Store.hold, Store.cell, Array.getD_eq_getD_getElem?, Array.getElem?_eq_none (by omega)] at hp
  cases hp

/-- Only the identity of a reference matters. -/
theorem Pins.of_same (hp : s.Pins r p) (hsame : r.same r' = true) : s.Pins r' p := by
  obtain ⟨serial, hp⟩ := hp
  have hid : r.id = r'.id := by simpa [PageRef.same] using hsame
  exact ⟨serial, by rw [Store.hold, ← hid, ← hp, Store.hold]⟩

theorem Pins.page (hp : s.Pins r p) : s.pinned.page (.live r) = some (p.map .live) := by
  obtain ⟨serial, hp⟩ := hp
  have hcell : (s.cell r.id).hold = .strong ⟨serial, p⟩ := hp
  simp [Chart.page, pinned, hcell, Hold.strong?]

theorem pins_of_page {n : Page Site} (hpage : s.pinned.page (.live r) = some n) :
    ∃ p, s.Pins r p ∧ n = p.map .live := by
  simp only [Chart.page, pinned] at hpage
  cases hhold : (s.cell r.id).hold with
  | strong copy =>
      rw [hhold] at hpage
      cases hpage
      exact ⟨copy.page, ⟨copy.serial, hhold⟩, rfl⟩
  | _ =>
      rw [hhold] at hpage
      cases hpage

theorem Keeps.pinned_le (hkeeps : s.Keeps s') : s.pinned ≤ s'.pinned := by
  refine ⟨fun _ h => h, fun id p hp => ?_, fun _ _ _ h => h, fun _ h => h⟩
  have hpage : s.pinned.page (.live ⟨id, default, 0, default, 0⟩) = some p := hp
  obtain ⟨q, hq, rfl⟩ := pins_of_page hpage
  exact (hq.keep hkeeps).page

/-! ## Trees all in memory -/

/-- The tree of a reference is all in memory: every reference has the measures of its page, and
all pages are of one kind and one stem. -/
inductive Upright (s : Store) (kind : TreeKind) (stem : Nat) : PageRef → Prop where
  | intro {r : PageRef} {p : LivePage} (pins : s.Pins r p) (measures : r.header.Measures p.stored)
      (tree : r.tree = kind ∧ p.treeKind = kind) (stems : r.stem = stem ∧ p.stem = stem)
      (beneath : ∀ m ∈ p.children, Upright s kind stem m) : Upright s kind stem r

variable {kind : TreeKind} {stem : Nat}

theorem Upright.keep (hkeeps : s.Keeps s') (hup : s.Upright kind stem r) :
    s'.Upright kind stem r := by
  induction hup with
  | intro pins measures tree stems _ ih => exact .intro (pins.keep hkeeps) measures tree stems ih

theorem Upright.pins (hup : s.Upright kind stem r) : ∃ p, s.Pins r p := by
  obtain ⟨hpins, -, -, -, -⟩ := hup
  exact ⟨_, hpins⟩

theorem Upright.measures (hup : s.Upright kind stem r) (hp : s.Pins r p) :
    r.header.Measures p.stored := by
  obtain ⟨hpins, hmeasures, -, -, -⟩ := hup
  rwa [hp.unique hpins]

theorem Upright.treeKind (hup : s.Upright kind stem r) (hp : s.Pins r p) :
    r.tree = kind ∧ p.treeKind = kind := by
  obtain ⟨hpins, -, htree, -, -⟩ := hup
  rwa [hp.unique hpins]

theorem Upright.stems (hup : s.Upright kind stem r) (hp : s.Pins r p) :
    r.stem = stem ∧ p.stem = stem := by
  obtain ⟨hpins, -, -, hstems, -⟩ := hup
  rwa [hp.unique hpins]

theorem Upright.child (hup : s.Upright kind stem r) (hp : s.Pins r p) (hm : m ∈ p.children) :
    s.Upright kind stem m := by
  obtain ⟨hpins, -, -, -, hbeneath⟩ := hup
  rw [hp.unique hpins] at hm
  exact hbeneath m hm

/-- The subtree of a child is smaller than that of its page. -/
theorem Upright.treeSize_lt (hup : s.Upright kind stem r) (hp : s.Pins r p)
    (hm : m ∈ p.children) : m.treeSize < r.treeSize := by
  have harea : r.treeSize = p.stored.area := (hup.measures hp).area
  have hmem : m.treeSize ∈ p.stored.children.map Header.area := by
    rw [Page.stored_children, List.map_map]
    exact List.mem_map.2 ⟨m, hm, rfl⟩
  have hle := le_sum_of_mem hmem
  rw [harea, Page.area_eq_sum]
  omega

end Store

/-- The headers of a tree in memory cover what their pages do. -/
theorem Store.Upright.measured {s : Store} {kind : TreeKind} {stem : Nat} {r : PageRef}
    (hup : s.Upright kind stem r) : s.pinned.Measured (.live r) := by
  induction hup with
  | @intro r p pins measures _ _ _ ih =>
      refine .intro pins.page ?_ ?_
      · rw [Page.map_map]
        exact measures.extent
      · intro m hm
        rw [Page.map_children] at hm
        obtain ⟨k, hk, rfl⟩ := List.mem_map.1 hm
        exact ih k hk

/-! ## Judgments -/

/-- Operations that succeed on what memory holds, and what holds of their results. -/
class Succeeding (m : Type → Type) [Monad m] where
  /-- From this state of the store on, the operation succeeds, drops nothing from memory, and
  its result has a property. -/
  Succeeds {α : Type} (act : m α) (s : Store) (post : α → Store → Prop) : Prop
  pure {α : Type} {a : α} {s : Store} {P : α → Store → Prop} :
    P a s → Succeeds (pure a : m α) s P
  bind {α β : Type} {act : m α} {f : α → m β} {s : Store} {P : α → Store → Prop}
    {Q : β → Store → Prop} : Succeeds act s P →
    (∀ a s', s.Keeps s' → P a s' → Succeeds (f a) s' Q) → Succeeds (act >>= f) s Q
  mono {α : Type} {act : m α} {s : Store} {P Q : α → Store → Prop} : Succeeds act s P →
    (∀ a s', s.Keeps s' → P a s' → Q a s') → Succeeds act s Q

export Succeeding (Succeeds)

instance : Succeeding StoreM where
  Succeeds act s post := ∃ a s', exec act s = (.ok a, s') ∧ s.Keeps s' ∧ post a s'
  pure hpost := ⟨_, _, rfl, .refl _, hpost⟩
  bind := by
    rintro α β act f s P Q ⟨a, s', hexec, hkeeps, hpost⟩ hf
    obtain ⟨b, s'', hexec', hkeeps', hpost'⟩ := hf a s' hkeeps hpost
    exact ⟨b, s'', by rw [exec_bind, hexec]; exact hexec', hkeeps.trans hkeeps', hpost'⟩
  mono := by
    rintro α act s P Q ⟨a, s', hexec, hkeeps, hpost⟩ himp
    exact ⟨a, s', hexec, hkeeps, himp a s' hkeeps hpost⟩

instance {ω : Type} : Succeeding (StateT (DiffWriter ω) StoreM) where
  Succeeds act s post := ∀ diff, ∃ a diff' s',
    exec (act.run diff) s = (.ok (a, diff'), s') ∧ s.Keeps s' ∧ post a s'
  pure hpost diff := ⟨_, diff, _, rfl, .refl _, hpost⟩
  bind := by
    intro α β act f s P Q hact hf diff
    obtain ⟨a, diff', s', hexec, hkeeps, hpost⟩ := hact diff
    obtain ⟨b, diff'', s'', hexec', hkeeps', hpost'⟩ := hf a s' hkeeps hpost diff'
    refine ⟨b, diff'', s'', ?_, hkeeps.trans hkeeps', hpost'⟩
    rw [StateT.run_bind, exec_bind, hexec]
    exact hexec'
  mono := by
    intro α act s P Q hact himp diff
    obtain ⟨a, diff', s', hexec, hkeeps, hpost⟩ := hact diff
    exact ⟨a, diff', s', hexec, hkeeps, himp a s' hkeeps hpost⟩

namespace Succeeding

variable {α β ω : Type} {s : Store} {P : α → Store → Prop} {Q : β → Store → Prop}

/-- The state may be looked at. -/
theorem get {f : Store → StoreM β} (hf : Succeeds (f s) s Q) :
    Succeeds (get >>= f : StoreM β) s Q := by
  obtain ⟨b, s', hexec, hrest⟩ := hf
  exact ⟨b, s', by rw [exec_bind]; exact hexec, hrest⟩

/-- Naming a reference in errors is no matter where there are none. -/
theorem naming {act : StoreM α} (r : PageRef) (hact : Succeeds act s P) :
    Succeeds (r.naming act) s P := by
  obtain ⟨a, s', hexec, hrest⟩ := hact
  exact ⟨a, s', by rw [PageRef.naming, exec_tryCatch, hexec], hrest⟩

/-- What succeeds on the store does so while a diff is being written. -/
theorem lift {act : StoreM α} (hact : Succeeds act s P) :
    Succeeds (liftM act : StateT (DiffWriter ω) StoreM α) s P := by
  intro diff
  obtain ⟨a, s', hexec, hrest⟩ := hact
  refine ⟨a, diff, s', ?_, hrest⟩
  change exec (act >>= fun a => Pure.pure (a, diff)) s = _
  rw [exec_bind, hexec]
  rfl

/-- The diff may be looked at. -/
theorem getDiff {f : DiffWriter ω → StateT (DiffWriter ω) StoreM β}
    (hf : ∀ diff, Succeeds (f diff) s Q) :
    Succeeds (MonadState.get >>= f : StateT (DiffWriter ω) StoreM β) s Q :=
  fun diff => hf diff diff

/-- The diff may be written to. -/
theorem modifyDiff (g : DiffWriter ω → DiffWriter ω) {f : Unit → StateT (DiffWriter ω) StoreM β}
    (hf : Succeeds (f ()) s Q) :
    Succeeds (modify g >>= f : StateT (DiffWriter ω) StoreM β) s Q :=
  fun diff => hf (g diff)

/-- A loop over a list, where one round keeps an invariant. -/
theorem foldlM {γ : Type} {f : β → γ → StoreM β} (l : List γ) {b : β} (hb : Q b s)
    (hf : ∀ b a s', Q b s' → Succeeds (f b a) s' Q) : Succeeds (l.foldlM f b) s Q := by
  induction l generalizing s b with
  | nil => exact Succeeding.pure hb
  | cons a l ih =>
      rw [List.foldlM_cons]
      apply Succeeding.bind (hf b a s hb)
      intro b' s' _ hb'
      exact ih hb'

section Children

variable {m : Type → Type} [Monad m] [LawfulMonad m] [Succeeding m] {γ δ : Type} {f : γ → m δ}
  {R : γ → δ → Store → Prop}

/-- An action on every item of a list, where what holds of a result goes on to hold. -/
theorem listMapM (l : List γ) (hstable : ∀ a b s s', s.Keeps s' → R a b s → R a b s')
    (hf : ∀ a ∈ l, ∀ s', s.Keeps s' → Succeeds (f a) s' (R a)) :
    Succeeds (l.mapM f) s fun bs s' => List.Forall₂ (fun a b => R a b s') l bs := by
  induction l generalizing s with
  | nil => exact Succeeding.pure List.Forall₂.nil
  | cons a l ih =>
      rw [List.mapM_cons]
      apply Succeeding.bind (hf a List.mem_cons_self s (.refl s))
      intro b s' hkeeps hb
      apply Succeeding.bind (ih fun a' ha' s'' hkeeps' =>
        hf a' (List.mem_cons_of_mem a ha') s'' (hkeeps.trans hkeeps'))
      intro bs s'' hkeeps' hbs
      exact Succeeding.pure (List.Forall₂.cons (hstable a b s' s'' hkeeps' hb) hbs)

/-- An action on the children of a page. -/
theorem mapChildren (p : Page γ) (version : Nat)
    (hstable : ∀ a b s s', s.Keeps s' → R a b s → R a b s')
    (hf : ∀ a ∈ p.children, ∀ s', s.Keeps s' → Succeeds (f a) s' (R a)) :
    Succeeds (p.mapChildren version f) s fun p' s' =>
      p.Rebuilt (fun a b => R a b s') version p' := by
  rw [Page.mapChildren_eq]
  apply Succeeding.bind (listMapM p.children hstable hf)
  intro children s' hkeeps hall
  exact Succeeding.pure (Page.rebuilt_withChildren version hall)

end Children
end Succeeding

/-! ## Reading and making pages -/

namespace PageRef

variable {s : Store} {kind : TreeKind} {stem : Nat} {r : PageRef} {p : LivePage}

/-- The page that memory holds is had. -/
theorem page_succeeds (hp : s.Pins r p) :
    Succeeds r.page s fun found s' => found = p ∧ s'.Pins r p := by
  obtain ⟨serial, hhold⟩ := hp
  -- a hit is counted, and memory stays as it is
  refine ⟨p, { s with stats := { s.stats with hits := s.stats.hits + 1 } }, ?_, .of_cells_eq rfl,
    rfl, serial, hhold⟩
  rw [page, pageCopy, exec_bind, exec_bind, exec_hold, hhold]
  rfl

theorem hardPage_succeeds (hp : s.Pins r p) :
    Succeeds r.hardPage? s fun found s' => found = some p ∧ s' = s := by
  obtain ⟨serial, hhold⟩ := hp
  refine ⟨some p, s, ?_, .refl s, rfl, rfl⟩
  rw [hardPage?, exec_bind, exec_hold, hhold]
  rfl

theorem copyOf_succeeds (p : LivePage) :
    Succeeds (copyOf p) s fun copy _ => copy.page = p :=
  ⟨_, _, exec_copyOf p s, .of_cells_eq rfl, rfl⟩

/-- What is made of a page in memory is held there to stay. -/
theorem holding_succeeds (tree : TreeKind) (stem : Nat) (header : Header) (copy : PageCopy) :
    Succeeds (holding tree stem header copy) s fun r s' =>
      s'.Pins r copy.page ∧ r.header = header ∧ r.tree = tree ∧ r.stem = stem := by
  refine ⟨_, _, rfl, .pushCell s _, ⟨copy.serial, ?_⟩, rfl, rfl, rfl⟩
  exact congrArg Cell.hold (Store.cell_pushCell_self _ _)

/-- A new page is held to stay, under an identity that no reference in memory has. -/
theorem ofPage_pins (p : LivePage) (fold : Value) :
    Succeeds (ofPage p fold) s fun r s' =>
      s'.Pins r p ∧ r.header = .ofPage p.stored fold ∧ r.id = s.cells.size :=
  ⟨_, _, exec_ofPage p fold s, (Store.Keeps.of_cells_eq rfl).trans (.pushCell _ _),
    ⟨s.nextSerial, congrArg Cell.hold (Store.cell_pushCell_self _ _)⟩, rfl, rfl⟩

/-- A new page over trees in memory. -/
theorem ofPage_succeeds (p : LivePage) (fold : Value)
    (hchildren : ∀ m ∈ p.children, s.Upright p.treeKind p.stem m) :
    Succeeds (ofPage p fold) s fun r s' =>
      s'.Upright p.treeKind p.stem r ∧ s'.Pins r p ∧ r.header = .ofPage p.stored fold := by
  have hkeeps : s.Keeps (exec (ofPage p fold) s).2 :=
    (Store.Keeps.of_cells_eq rfl).trans (.pushCell _ _)
  refine ⟨_, _, exec_ofPage p fold s, hkeeps, ?_⟩
  have hpins : (exec (ofPage p fold) s).2.Pins
      ⟨s.cells.size, p.treeKind, p.stem, .ofPage p.stored fold,
        pendingSize (.ofPage p.stored fold) p.children⟩ p :=
    ⟨s.nextSerial, congrArg Cell.hold (Store.cell_pushCell_self _ _)⟩
  refine ⟨.intro hpins (Header.measures_ofPage _ _) ⟨rfl, rfl⟩ ⟨rfl, rfl⟩ ?_, hpins, rfl⟩
  exact fun m hm => (hchildren m hm).keep hkeeps

end PageRef
end PageTree
