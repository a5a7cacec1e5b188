import Mathlib.Algebra.Order.BigOperators.Group.List
import Mathlib.Algebra.Order.Ring.Nat
import PageTree.Proofs.System.Replay

/-!
# Pages stay where they were filed

Whatever becomes of memory and of other zones, the text of a zone that is kept has every page that
a commit has written to it, at the place that the references to the page name, and that stretch of
the text spells the page (`System.pages_stay`).
-/

namespace PageTree

open StoreM

variable {s s' : Store} {c c' : Chart} {kind : TreeKind} {stem version : Nat} {r m k : PageRef}
  {h : Header} {q : Page Header} {n : Site}

/-! ## Numbers in headers -/

/-- There are not more entries than bytes. -/
theorem Chart.Sound.span_le_area (hsound : c.Sound n) : n.header.span ≤ n.header.area := by
  induction hsound with
  | @intro n p found described fits folded covers beneath ih =>
      have hsound := Chart.Sound.intro found described fits folded covers beneath
      rw [described.area_eq, Page.area_eq_sum]
      cases hnode : p.isNode with
      | true =>
          rw [hsound.measured.span_of_isNode found hnode]
          have hsum : (p.children.map fun m => m.header.span).sum ≤
              (p.children.map fun m => m.header.area).sum :=
            List.sum_le_sum fun m hm => ih m hm
          have hareas : ((p.map Site.header).children.map Header.area).sum =
              (p.children.map fun m => m.header.area).sum := by
            rw [Page.map_children, List.map_map]
            rfl
          omega
      | false =>
          rw [hsound.measured.span_of_leaf found hnode, ← Page.map_arity Site.header]
          have harity := (p.map Site.header).arity_le_size
          omega

theorem foldl_min_le (l : List Nat) (a : Nat) : l.foldl min a ≤ a := by
  induction l generalizing a with
  | nil => exact Nat.le_refl a
  | cons b l ih => exact Nat.le_trans (ih (min a b)) (Nat.min_le_left a b)

/-- A page depends on the zone that it lies in. -/
theorem Header.Describes.post_le {p : Page Header} (hdesc : h.Describes p)
    (hcommitted : h.isCommitted = true) : h.post ≤ h.zone := by
  rw [Header.Describes, if_pos hcommitted] at hdesc
  have hpost : h.post = p.childPosts.foldl min h.zone := congrArg Header.post hdesc
  rw [hpost]
  exact foldl_min_le _ _

/-- The numbers of the header of a filed page can be read where there is room for them. -/
theorem Chart.Sound.fits_header (hrep : Represents s c) (hsound : c.Sound (.filed h))
    (hbases : ∀ z b p, c.filed z b = some p → b < 2 ^ 63) (hzones : s.zones.active < 2 ^ 32)
    (harea : h.area < 2 ^ 63) : h.Fits := by
  obtain ⟨p, hp⟩ := hsound.page
  obtain ⟨q, hq, -⟩ := Chart.exists_filed hp
  have hdesc := hsound.describes hp
  have hzone := hrep.backed.started _ _ _ hq
  have hpost : h.post ≤ h.zone := hdesc.post_le (hsound.fits hp)
  have hspan : h.span ≤ h.area := hsound.span_le_area
  have hsize : h.size ≤ h.area := by
    have hsize := hdesc.size_eq
    have harea := hdesc.area_eq
    rw [Page.area_eq_sum] at harea
    change h.size = _ at hsize
    change h.area = _ at harea
    omega
  exact ⟨by omega, by omega, hbases _ _ _ hq, by omega, harea, by omega⟩

/-- The numbers of a filed page can be read where there is room for them. -/
theorem Chart.Sound.fits_filed (hrep : Represents s c) (hsound : c.Sound (.filed h))
    (hq : c.filed h.zone h.base = some q) (hbases : ∀ z b p, c.filed z b = some p → b < 2 ^ 63)
    (hzones : s.zones.active < 2 ^ 32) (harea : h.area < 2 ^ 63) (hstem : q.stem < 2 ^ 63)
    (hversion : q.version < 2 ^ 63) : q.Fits := by
  refine ⟨hstem, hversion, ?_⟩
  intro k hk
  have hpage : c.page (.filed h) = some (q.map Site.filed) := by simp [Chart.page, hq]
  have hmem : Site.filed k ∈ (q.map Site.filed).children := by
    simp only [Page.map_children, List.mem_map]
    exact ⟨k, hk, rfl⟩
  have hlt : k.area < h.area := hsound.area_lt hpage hmem
  exact (hsound.child hpage hmem).fits_header hrep hbases hzones (by omega)

/-! ## Reaching pages -/

/-- Loading pages, each beneath the one before, leads from a reference to another. -/
inductive Store.Reaches : Store → PageRef → Store → PageRef → Prop where
  | here (s : Store) (r : PageRef) : Reaches s r s r
  | down {s s' s'' : Store} {r m k : PageRef} {page : LivePage}
      (found : exec r.page s = (.ok page, s')) (child : m ∈ page.children)
      (reaches : Reaches s' m s'' k) : Reaches s r s'' k

/-- Loads pages along a path, which says for each of them which child is next; none if a page cannot
be had or has no such child. -/
def Store.follow? (s : Store) (r : PageRef) : List Nat → Option (Store × PageRef)
  | [] => some (s, r)
  | n :: path =>
    match exec? r.page s with
    | some (page, s') =>
      match page.children[n]? with
      | some m => s'.follow? m path
      | none => none
    | none => none

/-- Just what paths lead to is reached. -/
theorem Store.reaches_iff {k : PageRef} :
    s.Reaches r s' k ↔ ∃ path, s.follow? r path = some (s', k) := by
  constructor
  · intro hreaches
    induction hreaches with
    | here s r => exact ⟨[], rfl⟩
    | down found child _ ih =>
        obtain ⟨n, hn⟩ := List.mem_iff_getElem?.1 child
        obtain ⟨path, hpath⟩ := ih
        exact ⟨n :: path, by simp only [follow?, exec?_eq_some.2 found, hn, hpath]⟩
  · rintro ⟨path, hpath⟩
    induction path generalizing s r with
    | nil =>
        cases hpath
        exact .here _ _
    | cons n path ih =>
        unfold follow? at hpath
        split at hpath
        · next page s₁ found =>
            split at hpath
            · next m hm =>
                exact .down (exec?_eq_some.1 found) (List.mem_of_getElem? hm) (ih hpath)
            · cases hpath
        · cases hpath

/-- What is reached is in use and fits beneath where it is reached from. -/
theorem Store.Reaches.fit (hreaches : s.Reaches r s' k) (hrep : Represents s c)
    (hfit : c.Fit kind stem version r) :
    ∃ c', Grows s c s' c' ∧ c'.Fit kind stem version k ∧ k.treeSize ≤ r.treeSize := by
  induction hreaches generalizing c with
  | here s r => exact ⟨c, .refl hrep, hfit, Nat.le_refl _⟩
  | @down s s' s'' r m k page found child _ ih =>
      obtain ⟨c₁, hgrows, hpage, hrefs⟩ := (PageRef.page_runs hrep hfit.refs).of_ok found
      have hr := hgrows.le.refs r hfit.refs
      have hchild := hgrows.represents.child_fit hr hpage child (hrefs m child)
      obtain ⟨hkind, hstem, hversion⟩ := PageRef.fit_of_page (hfit.mono hgrows.le) hpage
      rw [hkind, hstem] at hchild
      obtain ⟨c₂, hgrows', hfit', hle⟩ := ih hgrows.represents (hchild.raise hversion)
      have hlt := hgrows.represents.treeSize_lt hr hpage child
      exact ⟨c₂, hgrows.trans hgrows', hfit', by omega⟩

/-! ## Runs within bounds -/

namespace System

variable {x y : System} {origin : Tree}

/-- Zones have numbers other than 0 where pages are filed. -/
theorem filed_pos {seed : Seed} {x₀ : System} (hstarts : Starts seed x₀)
    (hrun : Relation.ReflTransGen Step x₀ x) {z b : Nat} {p : Page Header}
    (hfiled : x.filed z b p) : 0 < z := by
  induction hrun generalizing z b p with
  | refl => exact absurd hfiled (hstarts.filed z b p)
  | tail _ hstep ih =>
      rcases hstep with (hclient | hcommit) | hstore
      · cases hclient <;> exact ih hfiled
      · cases hcommit with
        | write => exact hfiled.elim ih Filing.pos
        | _ => exact ih hfiled
      · cases hstore <;> exact ih hfiled

/-- There is room for the numbers of a system: zones have numbers of 32 bits, and texts, trees and
versions numbers of 63. -/
structure Fits (x : System) : Prop where
  zones : x.store.zones.active < 2 ^ 32
  texts : ∀ zone ∈ x.store.zones.zones, zone.text.utf8ByteSize < 2 ^ 63
  tree : x.trunk.tree.size < 2 ^ 63
  version : x.trunk.version < 2 ^ 63

instance (x : System) : Decidable x.Fits :=
  decidable_of_iff (x.store.zones.active < 2 ^ 32 ∧
      (∀ zone ∈ x.store.zones.zones, zone.text.utf8ByteSize < 2 ^ 63) ∧
      x.trunk.tree.size < 2 ^ 63 ∧ x.trunk.version < 2 ^ 63)
    ⟨fun h => ⟨h.1, h.2.1, h.2.2.1, h.2.2.2⟩, fun h => ⟨h.zones, h.texts, h.tree, h.version⟩⟩

/-- A step that leaves room. -/
def FitStep (x y : System) : Prop :=
  Step x y ∧ y.Fits

/-- There is a run that leaves room if and only if there is a schedule that does. -/
theorem fit_run_iff :
    Relation.ReflTransGen FitStep x y ↔
      ∃ moves, x.play? (fun _ y => decide y.Fits) moves = some y := by
  refine play_iff fun x y => ?_
  rw [FitStep, step_iff, exists_and_right, decide_eq_true_eq]

/-- The pages of a system end within room. -/
theorem FitStep.bases (hx : Coherent origin x c) (hstep : FitStep x y)
    (hbases : ∀ z b p, x.filed z b p → b < 2 ^ 63) : ∀ z b p, y.filed z b p → b < 2 ^ 63 := by
  obtain ⟨hstep, hfits⟩ := hstep
  have hsame : y.filed = x.filed → ∀ z b p, y.filed z b p → b < 2 ^ 63 := by
    intro heq
    rw [heq]
    exact hbases
  rcases hstep with (hclient | hcommit) | hstore
  · exact hsame (by cases hclient <;> rfl)
  · cases hcommit with
    | @write snapshot request diff s begun wrote =>
        obtain ⟨c', hwrote⟩ := hx.wrote begun wrote
        intro z b p hfiled
        change x.filed z b p ∨ Filing diff.committed.root s z b p at hfiled
        rw [hx.filed, hwrote.filed_iff] at hfiled
        rcases hwrote.active z b p hfiled with hold | rfl
        · exact hbases z b p ((hx.filed z b p).2 hold)
        · -- the page ends within the text of the active zone, which has room
          obtain ⟨text, htext⟩ := Option.isSome_iff_exists.1
            (Zones.text?_isSome.2 hwrote.sound.kept)
          have hle := (hwrote.represents.backed.kept _ b p text hfiled htext).1
          obtain ⟨zone, hzone, rfl⟩ := Option.map_eq_some_iff.1 htext
          exact Nat.lt_of_le_of_lt hle (hfits.texts zone (List.mem_of_find?_eq_some hzone))
    | _ => exact hsame rfl
  · exact hsame (by cases hstore <;> rfl)

/-- A run that leaves room. -/
theorem fit_run (hx : Coherent origin x c) (hfits : x.Fits)
    (hbases : ∀ z b p, x.filed z b p → b < 2 ^ 63) (hrun : Relation.ReflTransGen FitStep x y) :
    (∃ c', Coherent origin y c') ∧ y.Fits ∧ ∀ z b p, y.filed z b p → b < 2 ^ 63 := by
  induction hrun with
  | refl => exact ⟨⟨c, hx⟩, hfits, hbases⟩
  | tail _ hstep ih =>
      obtain ⟨⟨c', hy⟩, -, hbases'⟩ := ih
      obtain ⟨c'', hy', -⟩ := hy.step hstep.1
      exact ⟨⟨c'', hy'⟩, hstep.2, hstep.bases hy hbases'⟩

/-- In every run, a committed page that the tree of the trunk leads to is in the text of its zone
while the zone is kept, at the place that its reference names, and what is there spells just the
page that a commit has written there. -/
theorem pages_stay {seed : Seed} {x₀ x : System} {s : Store} {r : PageRef} {text : String}
    (hstarts : Starts seed x₀) (hstem : seed.stem < 2 ^ 63) (hfits : x₀.Fits)
    (hrun : Relation.ReflTransGen FitStep x₀ x)
    (hreaches : x.store.Reaches x.trunk.tree.root s r) (hcommitted : r.isCommitted = true)
    (hkept : x.store.zones.text? r.zone = some text) :
    ∃ p, x.filed r.zone r.base p ∧ (∀ q, x.filed r.zone r.base q → q = p) ∧
      r.pageSize ≤ r.base ∧ r.base ≤ text.utf8ByteSize ∧
      Text.between? (r.base - r.pageSize) r.base text = some p.toText ∧
      Page.parse p.toText = .ok p := by
  obtain ⟨c₀, hx₀, -, hseed⟩ := Coherent.of_starts hstarts
  have hnone : ∀ z b p, x₀.filed z b p → b < 2 ^ 63 :=
    fun z b p hfiled => absurd hfiled (hstarts.filed z b p)
  obtain ⟨⟨c, hx⟩, hfits, hbases⟩ := fit_run hx₀ hfits hnone hrun
  obtain ⟨c', hgrows, hfit, hle⟩ := hreaches.fit hx.represents hx.has.fit
  obtain ⟨p, hp, -, hstem', hversion⟩ := hfit.page
  have hsound := hgrows.represents.sound r hfit.refs
  rw [PageRef.site_of_committed hcommitted] at hp hsound
  obtain ⟨q, hq, rfl⟩ := Chart.exists_filed hp
  have hfiled : x.filed r.zone r.base q := by
    rw [hx.filed, ← hgrows.filed]
    exact hq
  have hzones : s.zones = x.store.zones := hgrows.zones
  -- the reference has the size of the page from the header that describes it
  have hsize : r.pageSize = q.size := by
    have hdesc := hsound.describes hp
    rw [Page.map_map] at hdesc
    have hsize := hdesc.size_eq
    rwa [show Page.map (fun k => (Site.filed k).header) q = q from Page.map_id q] at hsize
  have htext : s.zones.text? r.zone = some text := by rw [hzones, hkept]
  obtain ⟨hbase, hpage, hbetween⟩ := hgrows.represents.backed.kept _ _ _ _ hq htext
  refine ⟨q, hfiled, ?_, by rw [hsize]; exact hpage, hbase, by rw [hsize]; exact hbetween, ?_⟩
  · intro q' hfiled'
    rw [hx.filed, ← hgrows.filed] at hfiled'
    have heq := hfiled'.symm.trans hq
    exact Option.some.inj heq
  · refine Page.parse_toText (fun hkind k hk => hsound.untiled hq hkind hk) ?_
    refine hsound.fits_filed hgrows.represents hq ?_ ?_ ?_ ?_ ?_
    · intro z b p hfiled'
      rw [hgrows.filed, ← hx.filed] at hfiled'
      exact hbases z b p hfiled'
    · rw [hzones]
      exact hfits.zones
    · exact Nat.lt_of_le_of_lt hle hfits.tree
    · have hq' : q.stem = x.trunk.tree.seed.stem := by simpa using hstem'
      rw [hq', hx.kin.stem, hseed]
      exact hstem
    · have hv : q.version ≤ x.trunk.version := by simpa using hversion
      exact Nat.lt_of_le_of_lt hv hfits.version

/-- Three entries are put and committed.  Other texts are written behind them and into another zone,
one of the entries is put again and committed there, and again another text follows. -/
def surrounded : List Move :=
  grown ++ [.store (.append .plain "other"), .store .shiftZone, .store (.append .plain "else")] ++
    Move.callAlone 3 (.put (.int 1) (long 4)) ++ Move.commitAlone .plain ++
    [.store .lookToSoften, .store (.soften 0), .store (.reclaim ⟨[], []⟩),
      .store (.append .plain "last")]

/-- A page that has been committed first is where it was, and the tree leads to it from another zone
with other texts around. -/
theorem pages_stay_surrounded :
    ∃ x s r p text, crowded.play? (fun _ y => decide y.Fits) surrounded = some x ∧
      Relation.ReflTransGen FitStep crowded x ∧ x.trunk.tree.root.zone = 2 ∧
      x.store.follow? x.trunk.tree.root [1] = some (s, r) ∧ r.isCommitted = true ∧ r.zone = 1 ∧
      x.store.zones.text? r.zone = some text ∧
      Text.between? (r.base - r.pageSize) r.base text = some (Page.toText p) ∧
      Page.parse p.toText = .ok p := by
  have hplayed : ((crowded.play? (fun _ y => decide y.Fits) surrounded).bind fun x =>
      (x.store.follow? x.trunk.tree.root [1]).map fun found =>
        (x.trunk.tree.root.zone, found.2.isCommitted, found.2.zone,
          (x.store.zones.text? found.2.zone).isSome)) = some (2, true, 1, true) := by
    decide +kernel
  obtain ⟨x, hplay, hfollowed⟩ := Option.bind_eq_some_iff.1 hplayed
  obtain ⟨⟨s, r⟩, hfollow, hfacts⟩ := Option.map_eq_some_iff.1 hfollowed
  simp only [Prod.mk.injEq] at hfacts
  obtain ⟨hroot, hcommitted, hzone, hkept⟩ := hfacts
  obtain ⟨text, htext⟩ := Option.isSome_iff_exists.1 hkept
  have hrun := fit_run_iff.2 ⟨_, hplay⟩
  obtain ⟨p, -, -, -, -, hbetween, hparse⟩ := pages_stay starts_crowded (by decide) (by decide) hrun
    (Store.reaches_iff.2 ⟨_, hfollow⟩) hcommitted htext
  exact ⟨x, s, r, p, text, hplay, hrun, hroot, hfollow, hcommitted, hzone, htext, hbetween, hparse⟩

end System
end PageTree
