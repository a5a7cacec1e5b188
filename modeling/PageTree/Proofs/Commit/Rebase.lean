import PageTree.Proofs.Commit.Counterpart

/-!
# Rebasing

While a diff is written, the trunk may have moved on to another tree.  That tree is rebased: each
page that it shares with the tree of the diff gives way to its committed counterpart, found by
identity among the pairs of the two trees (`PageRef.pairCommitted_gathers`).  A rebased tree is
alike the tree that it was made of (`PageRef.rebased_runs`).
-/

namespace PageTree

open StoreM

/-! ## Pages that are twins -/

/-- The trees of two sites have the same pages, up to where the pages lie. -/
inductive Chart.Twin (c : Chart) : Site → Site → Prop
  | refl (n : Site) : Twin c n n
  | rebuilt {n n' : Site} {p p' : Page Site} (page : c.page n = some p)
      (page' : c.page n' = some p') (version : p'.version = p.version) (stem : p'.stem = p.stem)
      (shape : p'.body.shape = p.body.shape) (length : p.children.length = p'.children.length)
      (children : ∀ i h h', Twin c (p.children.get ⟨i, h⟩) (p'.children.get ⟨i, h'⟩)) :
      Twin c n n'

namespace Chart.Twin

variable {c c' : Chart} {n n' : Site} {p : Page Site}

theorem alike (htwin : c.Twin n n') : c.Alike n n' := by
  induction htwin with
  | refl n => exact .refl n
  | rebuilt page page' _ _ shape length _ ih => exact .rebuilt page page' shape length ih

theorem mono (hle : c ≤ c') (htwin : c.Twin n n') : c'.Twin n n' := by
  induction htwin with
  | refl n => exact refl n
  | rebuilt page page' version stem shape length _ ih =>
      exact rebuilt (page_mono hle page) (page_mono hle page') version stem shape length ih

/-- What twins have in common. -/
theorem page_of (htwin : c.Twin n n') (hpage : c.page n = some p) :
    ∃ p', c.page n' = some p' ∧ p.Rebuilt c.Twin p.version p' := by
  cases htwin with
  | refl =>
      have hrefl : ∀ ns : List Site, List.Forall₂ c.Twin ns ns := by
        intro ns
        induction ns with
        | nil => exact List.Forall₂.nil
        | cons n ns ih => exact List.Forall₂.cons (refl n) ih
      exact ⟨p, hpage, rfl, rfl, rfl, hrefl p.children⟩
  | rebuilt page page' version stem shape length children =>
      rw [page] at hpage
      cases hpage
      exact ⟨_, page', version, stem, shape, List.forall₂_iff_get.2 ⟨length, children⟩⟩

/-- A twin fits wherever the other does. -/
theorem fit {kind : TreeKind} {stem version : Nat} {r r' : PageRef}
    (htwin : c.Twin r.site r'.site) (hr' : c.refs r') (hfit : c.Fit kind stem version r) :
    c.Fit kind stem version r' := by
  obtain ⟨p, hp, rfl, rfl, hle⟩ := hfit.page
  obtain ⟨p', hp', hrebuilt⟩ := htwin.page_of hp
  exact ⟨hr', p', hp', hrebuilt.treeKind, hrebuilt.stem, by rw [hrebuilt.version]; exact hle⟩

end Chart.Twin

/-- A committed counterpart is a twin. -/
theorem Counterpart.twin {s : Store} {c : Chart} {zone start : Nat} {text : List Char}
    {r r' : PageRef} (hrep : Mirrors s c) (hcp : Counterpart s zone start text r r')
    (hr : c.refs r) (hr' : c.refs r') : c.Twin r.site r'.site := by
  induction hcp with
  | kept => exact .refl _
  | written uncommitted committed hold hold' _ _ version stem shape length _ ih =>
      obtain ⟨hpage, hrefs⟩ := hrep.held _ _ hr (by rw [hold]; rfl)
      obtain ⟨hpage', hrefs'⟩ := hrep.held _ _ hr' (by rw [hold']; rfl)
      refine .rebuilt hpage hpage' version stem (by simpa using shape) (by simpa using length) ?_
      intro i h h'
      simp only [Page.map_children, List.get_eq_getElem, List.getElem_map]
      exact ih i _ _ (hrefs _ (List.getElem_mem _)) (hrefs' _ (List.getElem_mem _))

/-- A counterpart that is another reference is that of a page that was not committed. -/
theorem Counterpart.uncommitted_of_apart {s : Store} {zone start : Nat} {text : List Char}
    {r r' : PageRef} (hcp : Counterpart s zone start text r r') (happart : r.same r' = false) :
    r.isCommitted = false := by
  cases hcp with
  | kept => simp [PageRef.same] at happart
  | written uncommitted => exact uncommitted

/-! ## Pairs -/

/-- Two references stand at the same place in two trees, as far as memory holds both strongly. -/
inductive Store.Paired (s : Store) : PageRef → PageRef → PageRef → PageRef → Prop where
  | self (a a' : PageRef) : Paired s a a' a a'
  | beneath {a a' m m' r r' : PageRef} {copy copy' : PageCopy} (hold : s.hold a = .strong copy)
      (hold' : s.hold a' = .strong copy')
      (child : (m, m') ∈ copy.page.children.zip copy'.page.children)
      (paired : Paired s m m' r r') : Paired s a a' r r'

/-- Pairs of references in use and twins of them. -/
def Chart.Pairs (c : Chart) (pairs : PageRef.CommitPairs) : Prop :=
  ∀ pair ∈ pairs, ∃ m, m.id = pair.1 ∧ c.refs m ∧ c.refs pair.2 ∧ c.Twin m.site pair.2.site

theorem Chart.Pairs.mono {c c' : Chart} {pairs : PageRef.CommitPairs} (hle : c ≤ c')
    (hpairs : c.Pairs pairs) : c'.Pairs pairs := by
  intro pair hmem
  obtain ⟨m, hid, hm, hk, htwin⟩ := hpairs pair hmem
  exact ⟨m, hid, hle.refs m hm, hle.refs _ hk, htwin.mono hle⟩

/-- The pairs that a walk through some trees and their counterparts adds to those before. -/
structure Gathers (s : Store) (c : Chart) (roots : List (PageRef × PageRef))
    (pairs pairs' : PageRef.CommitPairs) : Prop where
  kept : ∀ pair ∈ pairs, pair ∈ pairs'
  sound : ∀ pair ∈ pairs', pair ∈ pairs ∨ ∃ a ∈ roots, ∃ m, m.id = pair.1 ∧
    s.Paired a.1 a.2 m pair.2 ∧ c.refs m ∧ c.refs pair.2 ∧ c.Twin m.site pair.2.site
  complete : ∀ a ∈ roots, ∀ zone start text, Counterpart s zone start text a.1 a.2 →
    ∀ m, s.Within a.1 m → m.isCommitted = false → ∃ k, (m.id, k) ∈ pairs'

namespace Gathers

variable {s : Store} {c : Chart} {a : PageRef × PageRef} {roots : List (PageRef × PageRef)}
  {pairs pairs' pairs'' : PageRef.CommitPairs}

theorem nil : Gathers s c [] pairs pairs :=
  ⟨fun _ h => h, fun _ h => Or.inl h, by simp⟩

theorem cons (hfirst : Gathers s c [a] pairs pairs') (hrest : Gathers s c roots pairs' pairs'') :
    Gathers s c (a :: roots) pairs pairs'' := by
  refine ⟨fun pair h => hrest.kept pair (hfirst.kept pair h), ?_, ?_⟩
  · intro pair hmem
    rcases hrest.sound pair hmem with hmem | ⟨b, hb, hpaired⟩
    · rcases hfirst.sound pair hmem with hmem | ⟨b, hb, hpaired⟩
      · exact Or.inl hmem
      · exact Or.inr ⟨b, by simp_all, hpaired⟩
    · exact Or.inr ⟨b, List.mem_cons_of_mem a hb, hpaired⟩
  · intro b hb zone start text hcp m hwithin huncommitted
    rcases List.mem_cons.1 hb with rfl | hb
    · obtain ⟨k, hk⟩ := hfirst.complete b (by simp) zone start text hcp m hwithin huncommitted
      exact ⟨k, hrest.kept _ hk⟩
    · exact hrest.complete b hb zone start text hcp m hwithin huncommitted

end Gathers

namespace PageRef

variable {s : Store} {c : Chart} {kind : TreeKind} {stem version : Nat} {r r' : PageRef}

/-- A committed reference leads to committed ones only. -/
theorem isCommitted_of_within (hrep : Mirrors s c) {m : PageRef} (hr : c.refs r)
    (hwithin : s.Within r m) (hcommitted : r.isCommitted = true) : m.isCommitted = true := by
  induction hwithin with
  | self => exact hcommitted
  | @beneath r m k copy held child _ ih =>
      obtain ⟨hpage, hrefs⟩ := hrep.held r copy hr held
      exact ih (hrefs m child) (Chart.isCommitted_of_child hpage hcommitted child)

theorem Hold.strong?_eq_some {hold : Hold} {copy : PageCopy} :
    hold.strong? = some copy ↔ hold = .strong copy := by
  cases hold <;> simp [Hold.strong?]

/-- The pages that a walk over two references looks at. -/
theorem exec_pairWithin_hold (depth : Nat) {r k : PageRef} {pairs : CommitPairs}
    (hsame : r.same k = false) :
    exec ((pairWithin (depth + 1) r k).run pairs) s =
      exec ((do
        match (s.hold r).strong?.map PageCopy.page, (s.hold k).strong?.map PageCopy.page with
        | some page, some written =>
          (page.children.zip written.children).forM fun (a, b) => pairWithin depth a b
        | _, _ => pure ()
        modify ((r.id, k) :: ·) : StateT CommitPairs StoreM Unit).run pairs) s := by
  rw [pairWithin, hsame]
  rfl

/-- A walk over two references that memory holds the pages of goes on with their children. -/
theorem exec_pairWithin_pages (depth : Nat) {r k : PageRef} {pairs pairs' : CommitPairs}
    {copy copy' : PageCopy} (hsame : r.same k = false) (hhold : s.hold r = .strong copy)
    (hhold' : s.hold k = .strong copy')
    (hexec : exec (((copy.page.children.zip copy'.page.children).forM fun (a, b) =>
      pairWithin depth a b).run pairs) s = (.ok ((), pairs'), s)) :
    exec ((pairWithin (depth + 1) r k).run pairs) s = (.ok ((), (r.id, k) :: pairs'), s) := by
  rw [exec_pairWithin_hold depth hsame, hhold, hhold']
  simp only [Hold.strong?, Option.map_some]
  rw [StateT.run_bind, exec_bind, hexec]
  rfl

/-- Otherwise the walk ends with the two. -/
theorem exec_pairWithin_apart (depth : Nat) {r k : PageRef} {pairs : CommitPairs}
    (hsame : r.same k = false)
    (hnot : ∀ copy copy', s.hold r = .strong copy → s.hold k ≠ .strong copy') :
    exec ((pairWithin (depth + 1) r k).run pairs) s = (.ok ((), (r.id, k) :: pairs), s) := by
  rw [exec_pairWithin_hold depth hsame]
  cases hr : (s.hold r).strong? with
  | none => rfl
  | some copy =>
      cases hk : (s.hold k).strong? with
      | none => rfl
      | some copy' =>
          exact absurd (Hold.strong?_eq_some.1 hk) (hnot copy copy' (Hold.strong?_eq_some.1 hr))

theorem exists_zip_of_forall₂ {α β : Type} {R : α → β → Prop} {as : List α} {bs : List β} {a : α}
    (hall : List.Forall₂ R as bs) (ha : a ∈ as) : ∃ b, (a, b) ∈ as.zip bs ∧ R a b := by
  induction hall with
  | nil => cases ha
  | @cons x y xs ys hxy _ ih =>
      rcases List.mem_cons.1 ha with rfl | ha
      · exact ⟨y, List.mem_cons_self, hxy⟩
      · obtain ⟨b, hb, hR⟩ := ih ha
        exact ⟨b, List.mem_cons_of_mem _ hb, hR⟩

theorem forM_gathers (depth : Nat) (l : List (PageRef × PageRef))
    (hf : ∀ a ∈ l, ∀ pairs, ∃ pairs', exec ((pairWithin depth a.1 a.2).run pairs) s =
      (.ok ((), pairs'), s) ∧ Gathers s c [a] pairs pairs') (pairs : CommitPairs) :
    ∃ pairs', exec ((l.forM fun (a, b) => pairWithin depth a b).run pairs) s =
      (.ok ((), pairs'), s) ∧ Gathers s c l pairs pairs' := by
  induction l generalizing pairs with
  | nil => exact ⟨pairs, rfl, .nil⟩
  | cons a l ih =>
      obtain ⟨pairs', hexec, hfirst⟩ := hf a List.mem_cons_self pairs
      obtain ⟨pairs'', hexec', hrest⟩ := ih (fun b hb => hf b (List.mem_cons_of_mem a hb)) pairs'
      refine ⟨pairs'', ?_, hfirst.cons hrest⟩
      rw [List.forM, StateT.run_bind, exec_bind, hexec]
      exact hexec'

/-- A reference that is its own counterpart leads to committed pages only. -/
theorem gathers_same (hrep : Mirrors s c) (hr : c.refs r) (pairs : CommitPairs) :
    Gathers s c [(r, r)] pairs pairs := by
  refine ⟨fun _ h => h, fun _ h => Or.inl h, ?_⟩
  intro a ha zone start text hcp m hwithin huncommitted
  obtain rfl := List.mem_singleton.1 ha
  have hm := isCommitted_of_within hrep hr hwithin hcp.isCommitted
  rw [huncommitted] at hm
  cases hm

/-- What is gathered from the children of a reference and its counterpart, with the two
themselves. -/
theorem gathers_pages (hr : c.refs r) (hr' : c.refs r') (htwin : c.Twin r.site r'.site)
    (happart : r.same r' = false) {copy copy' : PageCopy} (hhold : s.hold r = .strong copy)
    (hhold' : s.hold r' = .strong copy') {pairs pairs' : CommitPairs}
    (hbeneath : Gathers s c (copy.page.children.zip copy'.page.children) pairs pairs') :
    Gathers s c [(r, r')] pairs ((r.id, r') :: pairs') := by
  refine ⟨fun pair h => List.mem_cons_of_mem _ (hbeneath.kept pair h), ?_, ?_⟩
  · intro pair hmem
    rcases List.mem_cons.1 hmem with rfl | hmem
    · exact Or.inr ⟨(r, r'), List.mem_singleton_self _, r, rfl, .self r r', hr, hr', htwin⟩
    · rcases hbeneath.sound pair hmem with hmem | ⟨a, ha, m, hid, hpaired, hm⟩
      · exact Or.inl hmem
      · exact Or.inr ⟨(r, r'), List.mem_singleton_self _, m, hid,
          .beneath hhold hhold' ha hpaired, hm⟩
  · intro a ha zone start text hcp m hwithin huncommitted
    obtain rfl := List.mem_singleton.1 ha
    obtain ⟨copy₁, copy₁', hhold₁, hhold₁', -, -, hrebuilt⟩ :=
      hcp.pages (hcp.uncommitted_of_apart happart)
    obtain rfl := Hold.strong.inj (hhold.symm.trans hhold₁)
    obtain rfl := Hold.strong.inj (hhold'.symm.trans hhold₁')
    cases hwithin with
    | self => exact ⟨r', List.mem_cons_self⟩
    | beneath held child hwithin =>
        rw [hhold] at held
        cases held
        obtain ⟨k, hzip, hk⟩ := exists_zip_of_forall₂ hrebuilt.children child
        obtain ⟨k', hk'⟩ := hbeneath.complete _ hzip zone start text hk m hwithin huncommitted
        exact ⟨k', List.mem_cons_of_mem _ hk'⟩

/-- Where memory does not hold both pages, the two are no counterparts, and are all there is. -/
theorem gathers_apart (hr : c.refs r) (hr' : c.refs r') (htwin : c.Twin r.site r'.site)
    (happart : r.same r' = false)
    (hnot : ∀ copy copy', s.hold r = .strong copy → s.hold r' ≠ .strong copy')
    (pairs : CommitPairs) : Gathers s c [(r, r')] pairs ((r.id, r') :: pairs) := by
  refine ⟨fun pair h => List.mem_cons_of_mem _ h, ?_, ?_⟩
  · intro pair hmem
    rcases List.mem_cons.1 hmem with rfl | hmem
    · exact Or.inr ⟨(r, r'), List.mem_singleton_self _, r, rfl, .self r r', hr, hr', htwin⟩
    · exact Or.inl hmem
  · intro a ha zone start text hcp m hwithin huncommitted
    obtain rfl := List.mem_singleton.1 ha
    obtain ⟨copy, copy', hhold, hhold', -⟩ := hcp.pages (hcp.uncommitted_of_apart happart)
    exact absurd hhold' (hnot copy copy' hhold)

/-- The children of twins are in use and twins again. -/
theorem twins_of_hold (hrep : Mirrors s c) (hr : c.refs r) (hr' : c.refs r')
    (htwin : c.Twin r.site r'.site) {copy copy' : PageCopy} (hhold : s.hold r = .strong copy)
    (hhold' : s.hold r' = .strong copy') {m m' : PageRef}
    (hzip : (m, m') ∈ copy.page.children.zip copy'.page.children) :
    c.refs m ∧ c.refs m' ∧ c.Twin m.site m'.site ∧ m.treeSize < r.treeSize := by
  obtain ⟨hpage, hrefs⟩ := hrep.held r copy hr (by rw [hhold]; rfl)
  obtain ⟨hpage', hrefs'⟩ := hrep.held r' copy' hr' (by rw [hhold']; rfl)
  obtain ⟨p', hp', hrebuilt⟩ := htwin.page_of hpage
  rw [hpage'] at hp'
  cases hp'
  have hall := hrebuilt.children
  rw [Page.map_children, Page.map_children, List.forall₂_map_left_iff,
    List.forall₂_map_right_iff] at hall
  obtain ⟨hm, hm'⟩ := List.of_mem_zip hzip
  exact ⟨hrefs m hm, hrefs' m' hm', List.forall₂_zip hall hzip, hrep.treeSize_lt hr hpage hm⟩

/-- Pairing a tree with its counterpart changes nothing in the store and does not fail. -/
theorem pairWithin_gathers (hrep : Mirrors s c) (depth : Nat) (hdepth : r.treeSize < depth)
    (hr : c.refs r) (hr' : c.refs r') (htwin : c.Twin r.site r'.site) (pairs : CommitPairs) :
    ∃ pairs', exec ((pairWithin depth r r').run pairs) s = (.ok ((), pairs'), s) ∧
      Gathers s c [(r, r')] pairs pairs' := by
  induction depth generalizing r r' pairs with
  | zero => exact absurd hdepth (Nat.not_lt_zero _)
  | succ depth ih =>
      cases hsame : r.same r' with
      | true =>
          obtain rfl := hrep.eq_of_same hr hr' hsame
          refine ⟨pairs, ?_, gathers_same hrep hr pairs⟩
          rw [pairWithin, hsame]
          rfl
      | false =>
          -- counterparts are only looked for in pages that memory holds strongly on both sides
          by_cases hboth : ∃ copy copy', s.hold r = .strong copy ∧ s.hold r' = .strong copy'
          · obtain ⟨copy, copy', hhold, hhold'⟩ := hboth
            obtain ⟨pairs', hexec, hgathers⟩ := forM_gathers (s := s) (c := c) depth
              (copy.page.children.zip copy'.page.children) (by
                rintro ⟨m, m'⟩ hzip pairs
                obtain ⟨hm, hm', htwin', hlt⟩ := twins_of_hold hrep hr hr' htwin hhold hhold' hzip
                exact ih (by omega) hm hm' htwin' pairs) pairs
            exact ⟨_, exec_pairWithin_pages depth hsame hhold hhold' hexec,
              gathers_pages hr hr' htwin hsame hhold hhold' hgathers⟩
          · have hnot : ∀ copy copy', s.hold r = .strong copy → s.hold r' ≠ .strong copy' :=
              fun copy copy' h h' => hboth ⟨copy, copy', h, h'⟩
            exact ⟨_, exec_pairWithin_apart depth hsame hnot,
              gathers_apart hr hr' htwin hsame hnot pairs⟩

/-- The pairs of a tree and its counterpart. -/
theorem pairCommitted_gathers (hrep : Mirrors s c) (hr : c.refs r) (hr' : c.refs r')
    (htwin : c.Twin r.site r'.site) :
    ∃ pairs, exec (r.pairCommitted r') s = (.ok pairs, s) ∧ Gathers s c [(r, r')] [] pairs := by
  obtain ⟨pairs, hexec, hgathers⟩ := pairWithin_gathers hrep (s.depthBound r)
    (Store.treeSize_lt_depthBound _ _) hr hr' htwin []
  refine ⟨pairs, ?_, hgathers⟩
  rw [pairCommitted, exec_bind, exec_get]
  dsimp only
  rw [exec_bind]
  have hrun : exec (pairWithin (s.depthBound r) r r' []) s = (.ok ((), pairs), s) := hexec
  rw [hrun]
  rfl

theorem pairs_of_gathers {pairs : CommitPairs} (hgathers : Gathers s c [(r, r')] [] pairs) :
    c.Pairs pairs := by
  intro pair hmem
  rcases hgathers.sound pair hmem with hnil | ⟨a, -, m, hid, -, hm⟩
  · cases hnil
  · exact ⟨m, hid, hm⟩

/-! ## Rebased trees -/

theorem CommitPairs.mem_of_find? {pairs : CommitPairs} {k : PageRef}
    (hfind : pairs.find? r = some k) : (r.id, k) ∈ pairs := by
  rw [CommitPairs.find?, Option.map_eq_some_iff] at hfind
  obtain ⟨⟨id, k'⟩, hfind, rfl⟩ := hfind
  have hid : id = r.id := by simpa using List.find?_some hfind
  rw [← hid]
  exact List.mem_of_find?_eq_some hfind

theorem CommitPairs.exists_find? {pairs : CommitPairs} {k : PageRef} (hmem : (r.id, k) ∈ pairs) :
    ∃ k', pairs.find? r = some k' := by
  rw [CommitPairs.find?]
  cases hfind : List.find? (fun pair => pair.1 == r.id) pairs with
  | some pair => exact ⟨pair.2, rfl⟩
  | none =>
      rw [List.find?_eq_none] at hfind
      exact absurd (beq_self_eq_true r.id) (hfind _ hmem)

end PageRef

/-- What rebasing makes of a reference: a page that has a counterpart gives way to it, any other
committed page stays, and any other uncommitted page is still uncommitted and in memory, over
what became of its children. -/
inductive Rebased (s : Store) (pairs : PageRef.CommitPairs) : PageRef → PageRef → Prop where
  | replaced {r k : PageRef} (found : pairs.find? r = some k) : Rebased s pairs r k
  | committed {r : PageRef} (absent : pairs.find? r = none) (committed : r.isCommitted = true) :
      Rebased s pairs r r
  | rebuilt {r r' : PageRef} {copy copy' : PageCopy} (absent : pairs.find? r = none)
      (uncommitted : r.isCommitted = false) (uncommitted' : r'.isCommitted = false)
      (hold : s.hold r = .strong copy) (hold' : s.hold r' = .strong copy')
      (version : copy'.page.version = copy.page.version) (stem : copy'.page.stem = copy.page.stem)
      (shape : copy'.page.body.shape = copy.page.body.shape)
      (length : copy.page.children.length = copy'.page.children.length)
      (children : ∀ i h h', Rebased s pairs (copy.page.children.get ⟨i, h⟩)
        (copy'.page.children.get ⟨i, h'⟩)) : Rebased s pairs r r'

namespace Rebased

variable {s s' : Store} {pairs : PageRef.CommitPairs} {r r' : PageRef}

theorem of_rebuilt {copy copy' : PageCopy} (habsent : pairs.find? r = none)
    (huncommitted : r.isCommitted = false) (huncommitted' : r'.isCommitted = false)
    (hhold : s.hold r = .strong copy) (hhold' : s.hold r' = .strong copy')
    (hrebuilt : copy.page.Rebuilt (Rebased s pairs) copy.page.version copy'.page) :
    Rebased s pairs r r' := by
  obtain ⟨hlength, hget⟩ := List.forall₂_iff_get.1 hrebuilt.children
  exact rebuilt habsent huncommitted huncommitted' hhold hhold' hrebuilt.version hrebuilt.stem
    hrebuilt.shape hlength hget

theorem keep (hkeeps : s.Keeps s') (hrebased : Rebased s pairs r r') : Rebased s' pairs r r' := by
  induction hrebased with
  | replaced found => exact replaced found
  | committed absent isCommitted => exact committed absent isCommitted
  | rebuilt absent uncommitted uncommitted' hold hold' version stem shape length _ ih =>
      exact rebuilt absent uncommitted uncommitted' (hkeeps.strong hold) (hkeeps.strong hold')
        version stem shape length ih

end Rebased

namespace PageRef

variable {s : Store} {c : Chart} {kind : TreeKind} {stem version : Nat} {r r' : PageRef}
  {pairs : CommitPairs}

theorem children_eq_of_not_moved (hrep : Mirrors s c) {as bs : List PageRef}
    (hlength : as.length = bs.length) (has : ∀ a ∈ as, c.refs a) (hbs : ∀ b ∈ bs, c.refs b)
    (hmoved : anyMoved as bs = false) : bs = as := by
  induction as generalizing bs with
  | nil => exact List.length_eq_zero_iff.1 hlength.symm
  | cons a as ih =>
      cases bs with
      | nil => cases hlength
      | cons b bs =>
          simp only [anyMoved, List.zip_cons_cons, List.any_cons, Bool.or_eq_false_iff,
            Bool.not_eq_false'] at hmoved
          rw [hrep.eq_of_same (has a List.mem_cons_self) (hbs b List.mem_cons_self) hmoved.1,
            ih (by simpa using hlength) (fun a' h => has a' (List.mem_cons_of_mem _ h))
              (fun b' h => hbs b' (List.mem_cons_of_mem _ h)) hmoved.2]

/-- A page whose children stay is kept as it is. -/
theorem rebased_self (hfit : c.Fit kind stem version r) (habsent : pairs.find? r = none)
    (huncommitted : r.isCommitted = false) {copy : PageCopy} (hhold : s.hold r = .strong copy)
    (hkept : List.Forall₂ (Rebased s pairs) copy.page.children copy.page.children) :
    c.Likeness kind stem version r.site r ∧ Rebased s pairs r r :=
  ⟨.refl hfit, .of_rebuilt habsent huncommitted huncommitted hhold hhold ⟨rfl, rfl, rfl, hkept⟩⟩

/-- A node whose children have been rebased is made again if any of them has moved. -/
theorem rebasedNode_runs (hrep : Represents s c) (hfit : c.Fit kind stem version r)
    (habsent : pairs.find? r = none) (huncommitted : r.isCommitted = false) {copy : PageCopy}
    (hhold : s.hold r = .strong copy) {page' : LivePage}
    (hrebuilt : copy.page.Rebuilt (fun m m' => c.Likeness kind stem copy.page.version m.site m' ∧
      Rebased s pairs m m') copy.page.version page') :
    Runs (if anyMoved copy.page.children page'.children then ofPage page' r.fold else pure r) s c
      fun r' s' c' => c'.Likeness kind stem version r.site r' ∧ Rebased s' pairs r r' := by
  obtain ⟨hpage, hrefs⟩ := hrep.held r copy hfit.refs (by rw [hhold]; rfl)
  obtain ⟨hkind, hstem, hle⟩ := fit_of_page hfit hpage
  have hselfFit : c.Fit kind stem copy.page.version r :=
    ⟨hfit.refs, _, hpage, by simpa using hkind, by simpa using hstem, by simp⟩
  refine Runs.ite ?_ ?_
  · intro _
    have hlikes := hrebuilt.imp fun _ _ h => h.1
    have hfolds := folds_of_rebuilt hrep.toMirrors hfit.refs hpage hlikes
    refine (ofRebuilt_holds hrep hselfFit hpage hlikes hfolds).mono ?_
    rintro r' s' c' hgrows ⟨hlike, hmade, serial, hhold'⟩
    refine ⟨hlike.raise hle, .of_rebuilt habsent huncommitted hmade.uncommitted
      (hgrows.keeps.strong hhold) hhold' ?_⟩
    exact hrebuilt.imp fun _ _ h => h.2.keep hgrows.keeps
  · intro hstill
    have hsame : page'.children = copy.page.children := by
      refine children_eq_of_not_moved hrep.toMirrors hrebuilt.children.length_eq hrefs ?_
        (by simpa using hstill)
      intro m' hm'
      obtain ⟨m, -, hlike, -⟩ := exists_of_forall₂_right hrebuilt.children hm'
      exact hlike.fit.refs
    have hchildren := hrebuilt.children
    rw [hsame] at hchildren
    exact Runs.pure hrep
      (rebased_self hfit habsent huncommitted hhold (hchildren.imp fun _ _ h => h.2))

/-- A rebased tree is alike the one that it is made of. -/
theorem rebasedWithin_runs (hrep : Represents s c) (hpairs : c.Pairs pairs) (depth : Nat)
    (hdepth : r.treeSize < depth) (hfit : c.Fit kind stem version r) :
    Runs (rebasedWithin pairs depth r) s c fun r' s' c' =>
      c'.Likeness kind stem version r.site r' ∧ Rebased s' pairs r r' := by
  induction depth generalizing s c kind stem version r with
  | zero => exact absurd hdepth (Nat.not_lt_zero _)
  | succ depth ih =>
      unfold rebasedWithin
      cases hfind : pairs.find? r with
      | some k =>
          obtain ⟨m, hid, hm, hk, htwin⟩ := hpairs _ (CommitPairs.mem_of_find? hfind)
          obtain rfl := hrep.unique m r hm hfit.refs hid
          exact Runs.pure hrep ⟨⟨htwin.fit hk hfit, htwin.alike⟩, .replaced hfind⟩
      | none =>
          refine Runs.ite ?_ ?_
          · intro hcommitted
            exact Runs.pure hrep ⟨.refl hfit, .committed hfind hcommitted⟩
          intro huncommitted
          replace huncommitted : r.isCommitted = false := by simpa using huncommitted
          -- memory holds what is not committed
          obtain ⟨copy, hhold⟩ := hrep.strong r hfit.refs huncommitted
          obtain ⟨hpage, hrefs⟩ := hrep.held r copy hfit.refs (by rw [hhold]; rfl)
          obtain ⟨hkind, hstem, -⟩ := fit_of_page hfit hpage
          refine Runs.hardPage ?_
          rw [hhold]
          refine Runs.ite ?_ ?_
          · intro hleaf
            refine Runs.pure hrep (rebased_self hfit hfind huncommitted hhold ?_)
            rw [Page.children_of_not_isNode (by simpa using hleaf)]
            exact List.Forall₂.nil
          intro _
          refine Runs.bind (Runs.mapChildren hrep copy.page copy.page.version
            (R := fun m m' s' c' => c'.Likeness kind stem copy.page.version m.site m' ∧
              Rebased s' pairs m m') ?_ ?_) ?_
          · rintro m m' s' c' s'' c'' hgrows ⟨hlike, hrebased⟩
            exact ⟨hlike.mono hgrows.le, hrebased.keep hgrows.keeps⟩
          · intro m hm s' c' hgrows
            have hlt := hrep.treeSize_lt hfit.refs hpage hm
            refine ih hgrows.represents (hpairs.mono hgrows.le) (by omega) ?_
            have hchild := hrep.child_fit hfit.refs hpage hm (hrefs m hm)
            rw [hkind, hstem] at hchild
            exact hchild.mono hgrows.le
          · intro page' s' c' hgrows hrebuilt
            exact rebasedNode_runs hgrows.represents (hfit.mono hgrows.le) hfind huncommitted
              (hgrows.keeps.strong hhold) hrebuilt

/-- A rebased tree is alike the one that it is made of. -/
theorem rebased_runs (hrep : Represents s c) (hpairs : c.Pairs pairs)
    (hfit : c.Fit kind stem version r) :
    Runs (r.rebased pairs) s c fun r' s' c' =>
      c'.Likeness kind stem version r.site r' ∧ Rebased s' pairs r r' := by
  refine Runs.get (rebasedWithin_runs hrep hpairs _ ?_ hfit)
  exact Store.treeSize_lt_depthBound _ _

end PageRef
end PageTree
