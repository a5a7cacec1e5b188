import Mathlib.Order.Bounds.Basic
import PageTree.Proofs.System.Filing

/-!
# The oldest zone that a subtree needs

A subtree needs the zones that its committed pages lie in.  The post of a reference is the least of
them, and 0 if there is none (`Chart.Sound.least_post`); so a post says whether a subtree is clear
of the zones before some zone, and then all subtrees beneath it are (`PageRef.ClearOf`).
-/

namespace PageTree

variable {c : Chart} {s : Store} {n m : Site} {q : Page Site} {r : PageRef} {z zone : Nat}

/-! ## Least numbers -/

/-- The least number with a property, or 0 if there is none. -/
def LeastOrZero (P : Nat → Prop) (n : Nat) : Prop :=
  IsLeast {z | P z} n ∨ n = 0 ∧ ∀ z, ¬ P z

theorem LeastOrZero.congr {P Q : Nat → Prop} {n : Nat} (hleast : LeastOrZero P n)
    (hiff : ∀ z, P z ↔ Q z) : LeastOrZero Q n := by
  rwa [← show P = Q from funext fun z => propext (hiff z)]

/-- A number below the least one, unless that is 0, is below all. -/
theorem LeastOrZero.le_of {P : Nat → Prop} {n : Nat} (hleast : LeastOrZero P n)
    (hpos : ∀ z, P z → 0 < z) (hn : n = 0 ∨ zone ≤ n) (hz : P z) : zone ≤ z := by
  rcases hleast with ⟨hmem, hle⟩ | ⟨-, hnone⟩
  · have hpositive := hpos n hmem
    have hle := hle hz
    omega
  · exact absurd hz (hnone z)

theorem Header.zone_pos {h : Header} (hcommitted : h.isCommitted = true) : 0 < h.zone := by
  rw [Header.isCommitted, Bool.and_eq_true, decide_eq_true_eq] at hcommitted
  exact hcommitted.1

/-- The posts of the children of a page that depend on a zone at all. -/
theorem Page.mem_childPosts {p : Page Header} {post : Nat} :
    post ∈ p.childPosts ↔ post ≠ 0 ∧ ∃ k ∈ p.children, k.post = post := by
  simp only [Page.childPosts, List.mem_filter, List.mem_map, bne_iff_ne, ne_eq]
  exact and_comm

/-- The post that a header describes is the least of the zone of the page, if it lies in one, and
of the posts of its children. -/
theorem Header.Describes.least_post {h : Header} {p : Page Header} (hdesc : h.Describes p) :
    LeastOrZero (fun z => h.isCommitted = true ∧ z = h.zone ∨ z ∈ p.childPosts) h.post := by
  unfold Header.Describes at hdesc
  -- a committed page lies in a zone itself, and any other is only as old as its children
  split at hdesc
  · next hcommitted =>
      have hpost : h.post = p.childPosts.foldl min h.zone := congrArg Header.post hdesc
      rw [List.foldl_min] at hpost
      refine Or.inl ⟨?_, ?_⟩
      · cases hmin : p.childPosts.min? with
        | none =>
            rw [hmin, Option.getD_none, Nat.min_self] at hpost
            exact Or.inl ⟨hcommitted, hpost⟩
        | some post =>
            rw [hmin, Option.getD_some] at hpost
            rcases Nat.le_total h.zone post with hle | hle
            · exact Or.inl ⟨hcommitted, by rw [hpost, Nat.min_eq_left hle]⟩
            · rw [Nat.min_eq_right hle] at hpost
              exact Or.inr (by rw [hpost]; exact List.min?_mem hmin)
      · rintro z (⟨-, rfl⟩ | hz)
        · rw [hpost]
          exact Nat.min_le_left _ _
        · cases hmin : p.childPosts.min? with
          | none => rw [List.min?_eq_none_iff.1 hmin] at hz; cases hz
          | some post =>
              rw [hmin, Option.getD_some] at hpost
              have hle := (List.min?_eq_some_iff.1 hmin).2 z hz
              omega
  · next huncommitted =>
      have hpost : h.post = p.childPosts.min?.getD 0 := congrArg Header.post hdesc
      cases hmin : p.childPosts.min? with
      | none =>
          rw [hmin, Option.getD_none] at hpost
          refine Or.inr ⟨hpost, ?_⟩
          rintro z (⟨hcommitted, -⟩ | hz)
          · exact huncommitted hcommitted
          · rw [List.min?_eq_none_iff.1 hmin] at hz
            cases hz
      | some post =>
          rw [hmin, Option.getD_some] at hpost
          subst hpost
          obtain ⟨hmem, hle⟩ := List.min?_eq_some_iff.1 hmin
          refine Or.inl ⟨Or.inr hmem, ?_⟩
          rintro z (⟨hcommitted, -⟩ | hz)
          · exact absurd hcommitted huncommitted
          · exact hle z hz

/-- Neither the zone of a page nor the post of a child is 0. -/
theorem Header.pos_of_own_or_child {h : Header} {p : Page Header} {z : Nat}
    (hz : h.isCommitted = true ∧ z = h.zone ∨ z ∈ p.childPosts) : 0 < z := by
  rcases hz with ⟨hcommitted, rfl⟩ | hz
  · exact Header.zone_pos hcommitted
  · exact Nat.pos_of_ne_zero (Page.mem_childPosts.1 hz).1

/-! ## What a subtree needs -/

/-- A committed page of the subtree of a site, its own page included, lies in a zone. -/
inductive Chart.Needs (c : Chart) : Site → Nat → Prop where
  | here {h : Header} (committed : h.isCommitted = true) : Needs c (.filed h) h.zone
  | beneath {n m : Site} {p : Page Site} {z : Nat} (found : c.page n = some p)
      (child : m ∈ p.children) (needs : Needs c m z) : Needs c n z

theorem Chart.Needs.pos (hneeds : c.Needs n z) : 0 < z := by
  induction hneeds with
  | here committed => exact Header.zone_pos committed
  | beneath _ _ _ ih => exact ih

/-- What a site needs is the zone of its page and what its children need. -/
theorem Chart.Sound.needs_iff (hsound : c.Sound n) (hpage : c.page n = some q) :
    c.Needs n z ↔ n.header.isCommitted = true ∧ z = n.header.zone ∨ ∃ m ∈ q.children, c.Needs m z := by
  constructor
  · intro hneeds
    cases hneeds with
    | here committed => exact Or.inl ⟨committed, rfl⟩
    | beneath found child needs =>
        rw [hpage] at found
        cases found
        exact Or.inr ⟨_, child, needs⟩
  · rintro (⟨hcommitted, rfl⟩ | ⟨m, hm, hneeds⟩)
    · have hfits := hsound.fits hpage
      cases n with
      | live r =>
          have huncommitted : r.header.isCommitted = false := hfits.1
          rw [Site.header_live, huncommitted] at hcommitted
          cases hcommitted
      | filed h => exact .here hcommitted
    · exact .beneath hpage hm hneeds

/-- The post of a site is the oldest zone that its subtree needs. -/
theorem Chart.Sound.least_post (hsound : c.Sound n) : LeastOrZero (c.Needs n) n.header.post := by
  induction hsound with
  | @intro n p found described fits folded covers beneath ih =>
      have hneeds : ∀ z, c.Needs n z ↔ _ := fun z =>
        (Chart.Sound.intro found described fits folded covers beneath).needs_iff found
      have hposts : ∀ z, z ∈ (p.map Site.header).childPosts ↔
          z ≠ 0 ∧ ∃ m ∈ p.children, m.header.post = z := by
        intro z
        rw [Page.mem_childPosts, Page.map_children]
        simp only [List.mem_map, exists_exists_and_eq_and]
      -- a zone that a child needs is not older than the child's post
      have hbelow : ∀ z m, m ∈ p.children → c.Needs m z →
          m.header.post ∈ (p.map Site.header).childPosts ∧ m.header.post ≤ z := by
        intro z m hm hz
        rcases ih m hm with ⟨hmem, hle⟩ | ⟨-, hnone⟩
        · exact ⟨(hposts _).2 ⟨Nat.ne_of_gt hmem.pos, m, hm, rfl⟩, hle hz⟩
        · exact absurd hz (hnone z)
      rcases described.least_post with ⟨hmem, hle⟩ | ⟨hzero, hnone⟩
      · refine Or.inl ⟨?_, ?_⟩
        · rcases hmem with hown | hmem
          · exact (hneeds _).2 (Or.inl hown)
          · obtain ⟨hne, m, hm, hpost⟩ := (hposts _).1 hmem
            rcases ih m hm with ⟨hleast, -⟩ | ⟨hzero, -⟩
            · exact (hneeds _).2 (Or.inr ⟨m, hm, hpost ▸ hleast⟩)
            · exact absurd (hpost.symm.trans hzero) hne
        · intro z hz
          rcases (hneeds z).1 hz with hown | ⟨m, hm, hz⟩
          · exact hle (Or.inl hown)
          · obtain ⟨hpost, hlez⟩ := hbelow z m hm hz
            exact Nat.le_trans (hle (Or.inr hpost)) hlez
      · refine Or.inr ⟨hzero, fun z hz => ?_⟩
        rcases (hneeds z).1 hz with hown | ⟨m, hm, hz⟩
        · exact hnone z (Or.inl hown)
        · exact hnone _ (Or.inr (hbelow z m hm hz).1)

/-! ## What a reference needs -/

section Needs

variable (filed : Nat → Nat → Page Header → Prop)

/-- A committed page lies in a zone, among the pages that have been written beneath a header. -/
inductive Header.Needs : Header → Nat → Prop where
  | here {h : Header} (committed : h.isCommitted = true) : Needs h h.zone
  | beneath {h k : Header} {p : Page Header} {z : Nat} (written : filed h.zone h.base p)
      (child : k ∈ p.children) (needs : Needs k z) : Needs h z

/-- A committed page of the subtree of a reference, its own page included, lies in a zone.  The
pages beneath a committed page are those that have been written beneath it; an uncommitted page is
in memory. -/
inductive PageRef.Needs (s : Store) : PageRef → Nat → Prop where
  | written {r : PageRef} {z : Nat} (committed : r.isCommitted = true)
      (needs : r.header.Needs filed z) : Needs s r z
  | beneath {r m : PageRef} {copy : PageCopy} {z : Nat} (uncommitted : r.isCommitted = false)
      (held : s.hold r = .strong copy) (child : m ∈ copy.page.children) (needs : Needs s m z) :
      Needs s r z

variable {filed}

/-- What a header needs is what a chart says of it. -/
theorem Header.needs_iff (hfiled : ∀ z b p, filed z b p ↔ c.filed z b = some p) {h : Header} :
    h.Needs filed z ↔ c.Needs (.filed h) z := by
  constructor
  · intro hneeds
    induction hneeds with
    | here committed => exact .here committed
    | @beneath h k p z written child _ ih =>
        have hpage : c.page (.filed h) = some (p.map Site.filed) := by
          simp [Chart.page, (hfiled _ _ _).1 written]
        refine .beneath hpage ?_ ih
        rw [Page.map_children]
        exact List.mem_map_of_mem child
  · intro hneeds
    generalize hn : Site.filed h = n at hneeds
    induction hneeds generalizing h with
    | here committed =>
        cases hn
        exact .here committed
    | @beneath n m p z found child _ ih =>
        subst hn
        obtain ⟨q, hq, rfl⟩ := Chart.exists_filed found
        rw [Page.map_children] at child
        obtain ⟨k, hk, rfl⟩ := List.mem_map.1 child
        exact .beneath ((hfiled _ _ _).2 hq) hk (ih rfl)

/-- What a reference in use needs is what a chart says of it. -/
theorem Mirrors.needs_iff (hrep : Mirrors s c)
    (hfiled : ∀ z b p, filed z b p ↔ c.filed z b = some p) (hr : c.refs r) :
    r.Needs filed s z ↔ c.Needs r.site z := by
  constructor
  · intro hneeds
    induction hneeds with
    | written committed needs =>
        rw [PageRef.site_of_committed committed]
        exact (Header.needs_iff hfiled).1 needs
    | @beneath r m copy z uncommitted held child _ ih =>
        obtain ⟨hpage, hrefs⟩ := hrep.held r copy hr (by rw [held]; rfl)
        refine .beneath hpage ?_ (ih (hrefs m child))
        rw [Page.map_children]
        exact List.mem_map_of_mem child
  · intro hneeds
    generalize hn : r.site = n at hneeds
    induction hneeds generalizing r with
    | here committed =>
        obtain ⟨rfl, hcommitted⟩ := PageRef.site_eq_filed hn
        exact .written hcommitted (.here committed)
    | @beneath n m p z found child needs ih =>
        subst hn
        -- beneath a committed page all is filed, and memory holds what is not
        cases hcommitted : r.isCommitted with
        | true =>
            rw [PageRef.site_of_committed hcommitted] at found
            exact .written hcommitted ((Header.needs_iff hfiled).2 (.beneath found child needs))
        | false =>
            obtain ⟨copy, hheld⟩ := hrep.strong r hr hcommitted
            obtain ⟨hpage, hrefs⟩ := hrep.held r copy hr (by rw [hheld]; rfl)
            rw [hpage] at found
            cases found
            rw [Page.map_children] at child
            obtain ⟨k, hk, rfl⟩ := List.mem_map.1 child
            exact .beneath hcommitted hheld hk (ih (hrefs k hk) rfl)

/-- The post of a reference in use is the oldest zone that it needs. -/
theorem Mirrors.least_post (hrep : Mirrors s c)
    (hfiled : ∀ z b p, filed z b p ↔ c.filed z b = some p) (hr : c.refs r) :
    LeastOrZero (r.Needs filed s) r.post := by
  have hleast := (hrep.sound r hr).least_post
  rw [PageRef.header_site] at hleast
  exact hleast.congr fun z => (hrep.needs_iff hfiled hr).symm

end Needs

/-! ## Being clear of older zones -/

/-- The subtree of a reference depends on no zone before some zone. -/
def PageRef.ClearOf (zone : Nat) (r : PageRef) : Prop :=
  r.post = 0 ∨ zone ≤ r.post

namespace PageRef.ClearOf

theorem mono {zone' : Nat} (hle : zone ≤ zone') (hclear : r.ClearOf zone') : r.ClearOf zone :=
  hclear.imp_right (Nat.le_trans hle)

/-- A header is clear of older zones if all children are, and the zone of its page is none. -/
theorem of_children {p : LivePage} (hdesc : r.header.Describes p.stored)
    (hown : r.isCommitted = true → zone ≤ r.zone) (hchildren : ∀ m ∈ p.children, m.ClearOf zone) :
    r.ClearOf zone := by
  rcases hdesc.least_post with ⟨⟨hcommitted, hpost⟩ | hmem, -⟩ | ⟨hzero, -⟩
  · exact Or.inr (by rw [post, hpost]; exact hown hcommitted)
  · obtain ⟨hne, k, hk, hpost⟩ := Page.mem_childPosts.1 hmem
    rw [Page.stored_children] at hk
    obtain ⟨m, hm, rfl⟩ := List.mem_map.1 hk
    refine Or.inr ?_
    rcases hchildren m hm with hzero | hle
    · exact absurd (hpost.symm.trans hzero) hne
    · rwa [post, ← hpost]
  · exact Or.inl hzero

/-- What is beneath a page that is clear of older zones is clear of them too. -/
theorem child {p : LivePage} (hclear : r.ClearOf zone) (hdesc : r.header.Describes p.stored)
    {m : PageRef} (hm : m ∈ p.children) : m.ClearOf zone := by
  by_cases hzero : m.post = 0
  · exact Or.inl hzero
  · have hmem : m.post ∈ p.stored.childPosts := by
      rw [Page.mem_childPosts, Page.stored_children]
      exact ⟨hzero, m.header, List.mem_map_of_mem hm, rfl⟩
    exact Or.inr (hdesc.least_post.le_of (fun _ => Header.pos_of_own_or_child) hclear
      (Or.inr hmem))

/-- A committed page that is clear of older zones lies in none of them. -/
theorem le_zone {p : Page Header} (hclear : r.ClearOf zone) (hdesc : r.header.Describes p)
    (hcommitted : r.isCommitted = true) : zone ≤ r.zone :=
  hdesc.least_post.le_of (fun _ => Header.pos_of_own_or_child) hclear
    (Or.inl ⟨hcommitted, rfl⟩)

end PageRef.ClearOf

end PageTree
