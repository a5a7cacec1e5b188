import PageTree.Proofs.System.Filing

/-!
# Excerpts of a chart

Of all the pages that a store has written, a committed tree has only some.  The excerpt of a chart
for a committed root has just these, and the references to them (`Chart.excerpt`).  A store goes
on to be as the excerpt says (`Represents.excerpt`), the tree has its content by the excerpt
(`Chart.Has.excerpt`), and where there is room for the numbers of the tree, every page of the
excerpt can be loaded (`Represents.supplies_excerpt`).
-/

namespace PageTree

open StoreM

variable {s : Store} {c c' : Chart} {h : Header} {n m : Site} {p : Page Site} {r : PageRef}

/-! ## Beneath a site -/

/-- A site lies beneath another, or is the other itself. -/
inductive Chart.Beneath (c : Chart) (n : Site) : Site → Prop where
  | root : Beneath c n n
  | child {m k : Site} {p : Page Site} (above : Beneath c n m) (page : c.page m = some p)
      (mem : k ∈ p.children) : Beneath c n k

namespace Chart.Beneath

/-- Beneath a filed site there are only filed ones. -/
theorem filed (hbeneath : c.Beneath (.filed h) m) : ∃ k, m = .filed k := by
  induction hbeneath with
  | root => exact ⟨h, rfl⟩
  | child _ page mem ih =>
      obtain ⟨k, rfl⟩ := ih
      exact children_of_filed page mem

/-- What lies beneath a sound site is sound and no larger, and its page belongs to the same tree
and is not newer. -/
theorem covers (hsound : c.Sound n) (hpage : c.page n = some p) (hbeneath : c.Beneath n m) :
    c.Sound m ∧ m.header.area ≤ n.header.area ∧
      ∃ q, c.page m = some q ∧ q.stem = p.stem ∧ q.version ≤ p.version := by
  induction hbeneath with
  | root => exact ⟨hsound, Nat.le_refl _, p, hpage, rfl, Nat.le_refl _⟩
  | child _ page mem ih =>
      obtain ⟨hsound', harea, q, hq, hstem, hversion⟩ := ih
      rw [page] at hq
      cases hq
      obtain ⟨q', hq', hcovers⟩ := hsound'.covers page mem
      have hlt := hsound'.area_lt page mem
      exact ⟨hsound'.child page mem, by omega, q', hq', hcovers.stem.trans hstem,
        Nat.le_trans hcovers.version hversion⟩

end Chart.Beneath

/-! ## Excerpts -/

open Classical in
/-- The pages beneath the site that a header names, and the references to them. -/
noncomputable def Chart.excerpt (c : Chart) (h : Header) : Chart where
  refs r := c.refs r ∧ c.Beneath (.filed h) r.site
  live _ := none
  filed zone base :=
    if ∃ k, c.Beneath (.filed h) (.filed k) ∧ k.zone = zone ∧ k.base = base then
      c.filed zone base
    else none
  foldings := c.foldings

/-- What an excerpt has filed lies beneath its root. -/
theorem Chart.filed_excerpt {zone base : Nat} {q : Page Header}
    (hfiled : (c.excerpt h).filed zone base = some q) :
    c.filed zone base = some q ∧
      ∃ k, c.Beneath (.filed h) (.filed k) ∧ k.zone = zone ∧ k.base = base := by
  simp only [excerpt] at hfiled
  split at hfiled
  · next hbeneath => exact ⟨hfiled, hbeneath⟩
  · cases hfiled

theorem Chart.excerpt_le (c : Chart) (h : Header) : c.excerpt h ≤ c where
  refs _ hr := hr.1
  live _ _ hlive := by cases hlive
  filed _ _ _ hfiled := (filed_excerpt hfiled).1
  foldings _ hf := hf

/-- The pages of an excerpt are those of the chart. -/
theorem Chart.Beneath.page_excerpt (hbeneath : c.Beneath (.filed h) m) :
    (c.excerpt h).page m = c.page m := by
  obtain ⟨k, rfl⟩ := hbeneath.filed
  simp only [page, excerpt]
  rw [if_pos ⟨k, hbeneath, rfl, rfl⟩]

/-- The leaves beneath a page of an excerpt are those of the chart. -/
theorem Chart.Reads.excerpt {depth : Nat} {shapes : List (PageBody Unit)}
    (hreads : c.Reads depth m shapes) (hbeneath : c.Beneath (.filed h) m) :
    (c.excerpt h).Reads depth m shapes := by
  induction depth generalizing m shapes with
  | zero => exact hreads
  | succ depth ih =>
      obtain ⟨p, hp, hgathers⟩ := hreads
      exact ⟨p, by rw [hbeneath.page_excerpt, hp], hgathers.imp fun k hk shapes hk' =>
        ih hk' (hbeneath.child hp hk)⟩

theorem Chart.Sound.excerpt (hsound : c.Sound m) (hbeneath : c.Beneath (.filed h) m) :
    (c.excerpt h).Sound m := by
  induction hsound with
  | intro found described fits folded covers _ ih =>
      have hbelow := fun k hk => hbeneath.child (k := k) found hk
      refine .intro (by rw [hbeneath.page_excerpt, found]) described fits ?_ ?_ ?_
      · intro hdefined
        obtain ⟨depth, shapes, hgathers, hfolded⟩ := folded hdefined
        exact ⟨depth, shapes, hgathers.imp fun k hk shapes hreads =>
          hreads.excerpt (hbelow k hk), hfolded⟩
      · intro k hk
        obtain ⟨q, hq, hcovers⟩ := covers k hk
        exact ⟨q, by rw [(hbelow k hk).page_excerpt, hq], hcovers⟩
      · exact fun k hk => ih k hk (hbelow k hk)

/-- A store that is as a chart says is as an excerpt says. -/
theorem Represents.excerpt (hrep : Represents s c) (h : Header) :
    Represents s (c.excerpt h) where
  allocated r hr := hrep.allocated r hr.1
  charted _ _ hlive := by cases hlive
  unique r r' hr hr' := hrep.unique r r' hr.1 hr'.1
  sound r hr := (hrep.sound r hr.1).excerpt hr.2
  fits r p hr hp := hrep.fits r p hr.1 (Chart.page_mono (c.excerpt_le h) hp)
  settled r hr := hrep.settled r hr.1
  held r copy hr hcopy := by
    obtain ⟨hpage, hrefs⟩ := hrep.held r copy hr.1 hcopy
    refine ⟨by rw [hr.2.page_excerpt, hpage], fun m hm => ⟨hrefs m hm, hr.2.child hpage ?_⟩⟩
    rw [Page.map_children]
    exact List.mem_map_of_mem hm
  strong r hr huncommitted := by
    -- all references of an excerpt have a place in a zone
    obtain ⟨k, hk⟩ := hr.2.filed
    rw [(PageRef.site_eq_filed hk).2] at huncommitted
    cases huncommitted
  dated r v p hr hv hp := hrep.dated r v p hr.1 hv (Chart.page_mono (c.excerpt_le h) hp)
  backed :=
    ⟨fun z b p hfiled => hrep.backed.started z b p (Chart.filed_excerpt hfiled).1,
      fun z b p text hfiled => hrep.backed.kept z b p text (Chart.filed_excerpt hfiled).1⟩

/-! ## Contents by an excerpt -/

theorem Chart.Fit.excerpt {kind : TreeKind} {stem version : Nat}
    (hfit : c.Fit kind stem version r) (hbeneath : c.Beneath (.filed h) r.site) :
    (c.excerpt h).Fit kind stem version r := by
  obtain ⟨q, hq, hrest⟩ := hfit.page
  exact ⟨⟨hfit.refs, hbeneath⟩, q, by rw [hbeneath.page_excerpt, hq], hrest⟩

theorem BTree.Holds.excerpt {height : Nat} {es : List Entry} (hholds : BTree.Holds c height n es)
    (hbeneath : c.Beneath (.filed h) n) : BTree.Holds (c.excerpt h) height n es := by
  induction height generalizing n es with
  | zero =>
      obtain ⟨hsorted, p, hp, hbody⟩ := hholds
      exact ⟨hsorted, p, by rw [hbeneath.page_excerpt, hp], hbody⟩
  | succ height ih =>
      obtain ⟨hsorted, p, children, parts, hp, hbody, hkeyed, hes⟩ := hholds
      refine ⟨hsorted, p, children, parts, by rw [hbeneath.page_excerpt, hp], hbody, ?_, hes⟩
      apply hkeyed.imp_mem
      intro child hmem part hpart
      have hchild : child.2 ∈ p.children := by
        rw [Page.children, hbody]
        exact List.mem_map_of_mem hmem
      exact ih hpart (hbeneath.child hp hchild)

theorem QTree.Holds.excerpt {height : Nat} {slots : List Slot}
    (hholds : QTree.Holds c height n slots) (hbeneath : c.Beneath (.filed h) n) :
    QTree.Holds (c.excerpt h) height n slots := by
  induction height generalizing n slots with
  | zero =>
      obtain ⟨hsorted, p, hp, hbody⟩ := hholds
      exact ⟨hsorted, p, by rw [hbeneath.page_excerpt, hp], hbody⟩
  | succ height ih =>
      obtain ⟨p, children, parts, hp, hbody, hfilled, hslots⟩ := hholds
      refine ⟨p, children, parts, by rw [hbeneath.page_excerpt, hp], hbody, ?_, hslots⟩
      apply hfilled.imp_mem
      intro child hmem part hpart
      have hchild : child ∈ p.children := by
        rwa [Page.children, hbody]
      exact ih hpart (hbeneath.child hp hchild)

/-- A tree has its content by the excerpt for its root. -/
theorem Chart.Has.excerpt {version : Nat} {t : Tree} {content : Content}
    (hhas : c.Has version t content) (hsite : t.root.site = .filed h) :
    (c.excerpt h).Has version t content := by
  have hbeneath : c.Beneath (.filed h) t.root.site := hsite ▸ .root
  cases content with
  | listing es =>
      obtain ⟨hkind, height, hfit, hholds⟩ := hhas
      exact ⟨hkind, height, hfit.excerpt hbeneath, hholds.excerpt hbeneath⟩
  | register value =>
      obtain ⟨hkind, hfit, p, hp, hbody⟩ := hhas
      exact ⟨hkind, hfit.excerpt hbeneath, p, by rw [hbeneath.page_excerpt, hp], hbody⟩
  | plane f =>
      obtain ⟨hkind, slots, hplaced, hplane, height, slots', hsub, hperm⟩ := hhas
      exact ⟨hkind, slots, hplaced, hplane, height, slots',
        ⟨hsub.fit.excerpt hbeneath, hsub.holds.excerpt hbeneath⟩, hperm⟩

/-! ## Loading the pages of an excerpt -/

/-- Every page that lies in a zone can be loaded. -/
structure Supplies (s : Store) (c : Chart) : Prop where
  isOpen : s.zones.isClosed = false
  faultless : s.faults.pending = 0
  read : ∀ z b p, c.filed z b = some p → (s.zones.text? z).isSome ∧ Page.parse p.toText = .ok p

theorem Supplies.serves (hsupplies : Supplies s c) : Serves s c :=
  Or.inr ⟨hsupplies.isOpen, hsupplies.faultless, hsupplies.read⟩

/-- Pages that are kept end within the texts of their zones. -/
theorem Represents.base_lt {z b bound : Nat} {q : Page Header} (hrep : Represents s c)
    (hkept : ∀ z b q, c.filed z b = some q → (s.zones.text? z).isSome)
    (htexts : ∀ zone ∈ s.zones.zones, zone.text.utf8ByteSize < bound)
    (hfiled : c.filed z b = some q) : b < bound := by
  obtain ⟨text, htext⟩ := Option.isSome_iff_exists.1 (hkept z b q hfiled)
  have hend := (hrep.backed.kept z b q text hfiled htext).1
  obtain ⟨zone, hzone, rfl⟩ := Option.map_eq_some_iff.1 htext
  exact Nat.lt_of_le_of_lt hend (htexts zone (List.mem_of_find?_eq_some hzone))

/-- Where zones are kept and there is room for the numbers of a tree, all its pages can be
loaded. -/
theorem Represents.supplies_excerpt (hrep : Represents s c) (hsound : c.Sound (.filed h))
    (hpage : c.page (.filed h) = some p) (hopen : s.zones.isClosed = false)
    (hfaultless : s.faults.pending = 0)
    (hkept : ∀ z b q, c.filed z b = some q → (s.zones.text? z).isSome)
    (hzones : s.zones.active < 2 ^ 32)
    (htexts : ∀ zone ∈ s.zones.zones, zone.text.utf8ByteSize < 2 ^ 63) (harea : h.area < 2 ^ 63)
    (hstem : p.stem < 2 ^ 63) (hversion : p.version < 2 ^ 63) : Supplies s (c.excerpt h) where
  isOpen := hopen
  faultless := hfaultless
  read := by
    intro z b q hfiled
    obtain ⟨hq, k, hbeneath, rfl, rfl⟩ := Chart.filed_excerpt hfiled
    obtain ⟨hsound', hle, q', hq', hstem', hversion'⟩ := hbeneath.covers hsound hpage
    have hmap : c.page (.filed k) = some (q.map Site.filed) := by simp [Chart.page, hq]
    rw [hmap] at hq'
    cases hq'
    rw [Page.map_stem] at hstem'
    rw [Page.map_version] at hversion'
    have hbases : ∀ z b q, c.filed z b = some q → b < 2 ^ 63 :=
      fun _ _ _ => hrep.base_lt hkept htexts
    refine ⟨hkept _ _ _ hq, Page.parse_toText (fun hkind m hm => hsound'.untiled hq hkind hm) ?_⟩
    exact hsound'.fits_filed hrep hq hbases hzones (Nat.lt_of_le_of_lt hle harea)
      (by rw [hstem']; exact hstem) (Nat.lt_of_le_of_lt hversion' hversion)

end PageTree
