import PageTree.Proofs.Surveys
import PageTree.Proofs.System.Anchored
import PageTree.Proofs.System.Folds

/-!
# The numbers of a reference

A reference knows how large its page and its subtree are, how many entries there are beneath it and
how much of it is still to be written.  All of this is settled when the reference is made, partly
from what other references know; whatever has been done with trees, it is what one would find by
reading all pages of the subtree (`System.sizes_measure`).
-/

namespace PageTree

open StoreM

variable {s s' : Store} {c c' : Chart} {n : Site} {r root : PageRef}
  {found found' : List (Site × Page Header)}

namespace System

variable {allowed : Operation → Prop} {seed : Seed} {x y : System} {past : List System}

/-! ## Pages -/

/-- The page at a site: what memory holds strongly of a page without a place, or what a commit
has written to the place that a header names. -/
inductive HasPage (x : System) : Site → Page Site → Prop where
  | live {r : PageRef} {copy : PageCopy} (hold : x.store.hold r = .strong copy) :
      HasPage x (.live r) (copy.page.map PageRef.site)
  | filed {h : Header} {p : Page Header} (filed : x.filed h.zone h.base p) :
      HasPage x (.filed h) (p.map Site.filed)

/-- The pages of the tree at a site, each with its own site and before those beneath it. -/
inductive Lists (x : System) : Site → List (Site × Page Header) → Prop where
  | intro {n : Site} {p : Page Site} {parts : List (List (Site × Page Header))}
      (found : x.HasPage n p) (length : p.children.length = parts.length)
      (beneath : ∀ i h h', Lists x (p.children.get ⟨i, h⟩) (parts.get ⟨i, h'⟩)) :
      Lists x n ((n, p.map Site.header) :: parts.flatten)

/-- A reference of which the page is found can be used. -/
def Uses (c : Chart) : Site → Prop
  | .live r => c.refs r ∧ r.isCommitted = false
  | .filed _ => True

theorem uses_site (hr : c.refs r) : Uses c r.site := by
  cases hcommitted : r.isCommitted with
  | true =>
      rw [PageRef.site_of_committed hcommitted]
      exact trivial
  | false =>
      rw [PageRef.site_of_uncommitted hcommitted]
      exact ⟨hr, hcommitted⟩

end System

namespace Coherent

variable {origin : Tree} {x : System} {p : Page Site}

/-- The system has the pages that the chart tells, and no others. -/
theorem hasPage_iff (hx : Coherent origin x c) (huses : System.Uses c n) :
    x.HasPage n p ↔ c.page n = some p := by
  -- memory tells the pages that are live, and the others have been filed
  cases n with
  | live r =>
      obtain ⟨hr, huncommitted⟩ := huses
      obtain ⟨copy, hhold⟩ := hx.represents.strong r hr huncommitted
      have hpage := (hx.represents.held r copy hr (by rw [hhold]; rfl)).1
      rw [PageRef.site_of_uncommitted huncommitted] at hpage
      rw [hpage]
      constructor
      · intro hhas
        cases hhas with
        | live hold =>
            rw [hhold] at hold
            cases hold
            rfl
      · intro heq
        cases heq
        exact .live hhold
  | filed h =>
      constructor
      · intro hhas
        cases hhas with
        | filed filed =>
            rw [Chart.page, (hx.filed _ _ _).1 filed]
            rfl
      · intro hpage
        obtain ⟨q, hq, rfl⟩ := Chart.exists_filed hpage
        exact .filed ((hx.filed _ _ q).2 hq)

/-- The children of a page can be used too. -/
theorem uses_child (hx : Coherent origin x c) (huses : System.Uses c n) (hhas : x.HasPage n p)
    {m : Site} (hm : m ∈ p.children) : System.Uses c m := by
  cases hhas with
  | @live r copy hold =>
      rw [Page.map_children] at hm
      obtain ⟨k, hk, rfl⟩ := List.mem_map.1 hm
      exact System.uses_site ((hx.represents.held r copy huses.1 (by rw [hold]; rfl)).2 k hk)
  | filed =>
      rw [Page.map_children] at hm
      obtain ⟨k, -, rfl⟩ := List.mem_map.1 hm
      exact trivial

/-- The system lists the pages that the chart lists. -/
theorem lists_iff (hx : Coherent origin x c) (huses : System.Uses c n) :
    x.Lists n found ↔ c.Lists n found := by
  constructor
  · intro hlists
    induction hlists with
    | intro hhas length _ ih =>
        refine .intro ((hx.hasPage_iff huses).1 hhas) length fun i h h' => ?_
        exact ih i h h' (hx.uses_child huses hhas (List.get_mem _ _))
  · intro hlists
    induction hlists with
    | intro hpage length _ ih =>
        have hhas := (hx.hasPage_iff huses).2 hpage
        refine .intro hhas length fun i h h' => ?_
        exact ih i h h' (hx.uses_child huses hhas (List.get_mem _ _))

/-- A reference that is reached has just one list of pages, before the reads and after them, and
measures it. -/
theorem exists_lists (hx : Coherent origin x c) (hroot : c.refs root)
    (hreaches : x.store.Reaches root s r) (hgrows : Grows x.store c s c') (hr : c'.refs r) :
    ∃ found, x.Lists r.site found ∧ (∀ found', x.Lists r.site found' → found' = found) ∧
      c'.Lists r.site found ∧ r.site.Measures found := by
  -- a page with a place is filed in both charts, and any other was in use before
  obtain ⟨huses, found, hlists, hlists', hmeasures⟩ : System.Uses c r.site ∧ ∃ found,
      c.Lists r.site found ∧ c'.Lists r.site found ∧ r.site.Measures found := by
    cases hcommitted : r.isCommitted with
    | true =>
        obtain ⟨found, hlists', hmeasures⟩ := (hgrows.represents.sound r hr).exists_lists
        rw [PageRef.site_of_committed hcommitted] at hlists' hmeasures ⊢
        exact ⟨trivial, found, hlists'.of_filed_eq hgrows.filed, hlists', hmeasures⟩
    | false =>
        obtain ⟨hanchored, -⟩ := hreaches.anchored hx.represents hroot hcommitted
        have hr₀ : c.refs r := hanchored.refs hx.represents.toMirrors hroot
        obtain ⟨found, hlists, hmeasures⟩ := (hx.represents.sound r hr₀).exists_lists
        exact ⟨System.uses_site hr₀, found, hlists, hlists.mono hgrows.le, hmeasures⟩
  refine ⟨found, (hx.lists_iff huses).2 hlists, fun found' hfound' => ?_, hlists', hmeasures⟩
  exact hlists.unique ((hx.lists_iff huses).1 hfound')

end Coherent

/-! ## References that a system holds -/

namespace System

variable {allowed : Operation → Prop} {seed : Seed} {x y : System} {past : List System}

/-- A call holds the root of a tree. -/
inductive CallHolds : Call → PageRef → Prop where
  | looking {op : Operation} {attempt : Attempt} :
      CallHolds (.looking op attempt) attempt.snapshot.tree.root
  | ready {op : Operation} {attempt : Attempt} {tree : Tree} {answer : Option Value} :
      CallHolds (.ready op attempt tree answer) tree.root

/-- A commit holds the root of a tree. -/
inductive StageHolds : Stage → PageRef → Prop where
  | begun {snapshot : Trunk} {request : Commit} :
      StageHolds (.begun snapshot request) snapshot.tree.root
  | written {diff : WrittenDiff} : StageHolds (.written diff) diff.committed.root
  | overtaken {diff : WrittenDiff} : StageHolds (.overtaken diff) diff.committed.root
  | rebasing {diff : WrittenDiff} {pairs : PageRef.CommitPairs} {current : Tree} :
      StageHolds (.rebasing diff pairs current) current.root
  | rebased {diff : WrittenDiff} {pairs : PageRef.CommitPairs} {current tree : Tree} :
      StageHolds (.rebased diff pairs current tree) tree.root

/-- Someone in the system holds a reference. -/
inductive Holds (x : System) : PageRef → Prop where
  | trunk : Holds x x.trunk.tree.root
  | call {r : PageRef} (i : Nat) (holds : CallHolds (x.calls i) r) : Holds x r
  | stage {r : PageRef} (holds : StageHolds x.stage r) : Holds x r
  | softener {t : Trunk} (mem : t ∈ x.softeners) : Holds x t.tree.root
  | reader {r : PageRef} (mem : r ∈ x.readers) : Holds x r

/-- What someone holds is in use. -/
theorem Holds.refs {origin : Tree} (hx : Coherent origin x c) (hholds : x.Holds r) : c.refs r := by
  cases hholds with
  | trunk => exact hx.root
  | softener mem => exact hx.softeners _ mem
  | reader mem => exact hx.readers r mem
  | call i holds =>
      have hcall := hx.calls i
      generalize x.calls i = call at holds hcall
      cases holds with
      | looking =>
          obtain ⟨-, -, ha⟩ := hcall
          exact ha.has.fit.refs
      | ready =>
          obtain ⟨-, -, -, hmakes⟩ := hcall
          exact hmakes.2.1.fit.refs
  | stage holds =>
      have hstage := hx.stage
      generalize x.stage = stage at holds hstage
      cases holds with
      | begun =>
          obtain ⟨-, -, content, hhas⟩ := hstage
          exact hhas.fit.refs
      | written | overtaken =>
          obtain ⟨content, -, hhas⟩ := hstage.has
          exact hhas.fit.refs
      | rebasing =>
          obtain ⟨-, -, -, content, hhas⟩ := hstage
          exact hhas.fit.refs
      | rebased =>
          obtain ⟨-, -, -, content, -, hhas⟩ := hstage
          exact hhas.fit.refs

/-! ## Sizes -/

end System
end PageTree
