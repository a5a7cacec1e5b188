import PageTree.BTree.Split
import PageTree.Proofs.Retention

/-!
# How pages are reshaped

B-trees and Q-trees balance their pages alike.  A page that is too large is cut, one that is too
small is joined with a sibling and cut again (`Rebalanced`), a root that is too large gets levels of
nodes above its parts (`Grown`), and a root with a single child gives way to it (`Collapsed`).  What
differs is how pages are cut and joined, which a `Reshaping` tells together with what follows from
it: parts are as small as cutting can make them (`Page.Compact`), and the children of a page are
handed on, in a Q-tree maybe in another order.

All this is said of the memory that balancing ends with, so whatever holds of it can be derived
without looking at the operations again.
-/

namespace PageTree

open StoreM

/-- A page fits, or there is too little in it for a cut. -/
def Page.Compact (settings : Settings) (p : LivePage) : Prop :=
  p.stored.size ≤ settings.pageSplitSize ∨ p.arity ≤ if p.isNode then 3 else 1

instance (settings : Settings) (p : LivePage) : Decidable (p.Compact settings) :=
  inferInstanceAs (Decidable (_ ∨ _))

/-- A page that is not too large is compact. -/
theorem Page.compact_of_fits {settings : Settings} {p : LivePage} {size : Nat}
    (hsize : size = p.stored.size) (hfits : p.isOversized settings size = false) :
    p.Compact settings := by
  simp only [Page.isOversized, Settings.shouldSplit, Bool.and_eq_false_iff, decide_eq_false_iff_not,
    Nat.not_lt] at hfits
  rcases hfits with hfits | hone
  · exact Or.inl (hsize ▸ hfits)
  · refine Or.inr (Nat.le_trans hone ?_)
    split <;> decide

/-- The same children, which only a Q-tree may have in another order. -/
def TreeKind.Alike {α : Type} (kind : TreeKind) (as bs : List α) : Prop :=
  match kind with
  | .qtree => as.Perm bs
  | _ => as = bs

namespace TreeKind.Alike

variable {α β : Type} {kind : TreeKind} {as bs cs : List α}

protected theorem refl (as : List α) : kind.Alike as as := by
  cases kind
  · exact rfl
  · exact rfl
  · exact List.Perm.refl as

theorem trans (halike : kind.Alike as bs) (halike' : kind.Alike bs cs) : kind.Alike as cs := by
  cases kind
  · exact Eq.trans halike halike'
  · exact Eq.trans halike halike'
  · exact List.Perm.trans halike halike'

theorem symm (halike : kind.Alike as bs) : kind.Alike bs as := by
  cases kind
  · exact Eq.symm halike
  · exact Eq.symm halike
  · exact List.Perm.symm halike

theorem perm (halike : kind.Alike as bs) : as.Perm bs := by
  cases kind
  · exact List.Perm.of_eq halike
  · exact List.Perm.of_eq halike
  · exact halike

theorem of_eq (heq : as = bs) : kind.Alike as bs :=
  heq ▸ .refl as

end TreeKind.Alike

/-! ## Cutting and joining -/

/-- How the pages of trees of a kind are cut and joined. -/
structure Reshaping (kind : TreeKind) (settings : Settings) where
  /-- The parts of a page. -/
  cut : LivePage → List LivePage
  /-- Two siblings in one page; it is told whether the second one is the last of its node. -/
  join : Bool → LivePage → LivePage → LivePage
  cut_ne_nil : ∀ p, cut p ≠ []
  cut_alike : ∀ p, kind.Alike ((cut p).flatMap Page.children) p.children
  cut_kind : ∀ p, p.treeKind = kind → ∀ q ∈ cut p, q.treeKind = kind
  cut_compact : ∀ p, p.treeKind = kind → ∀ q ∈ cut p, q.Compact settings
  join_kind : ∀ isLast p q, p.treeKind = kind → q.treeKind = kind →
    (join isLast p q).treeKind = kind
  join_subset : ∀ isLast p q, (join isLast p q).children ⊆ p.children ++ q.children
  join_alike : ∀ isLast p q, p.treeKind = kind → p.kind = q.kind →
    kind.Alike (join isLast p q).children (p.children ++ q.children)

variable {kind : TreeKind} {settings : Settings} {c : Reshaping kind settings} {s s' : Store}

/-- References to the parts of a page. -/
def Parts (s : Store) (c : Reshaping kind settings) (p : LivePage) (parts : List PageRef) : Prop :=
  List.Forall₂ s.Made (c.cut p) parts

theorem Parts.keep {p : LivePage} {parts : List PageRef} (hkeeps : s.Keeps s')
    (hparts : Parts s c p parts) : Parts s' c p parts :=
  List.Forall₂.imp (fun _ _ hmade => hmade.keep hkeeps) hparts

/-! ## A row of siblings -/

/-- What becomes of the children of a node when one of them, between some others, has been rebuilt.
It is left out if nothing is left of it, put back if it fits, cut if it is too large, and joined
with the sibling behind it, or the one before it if it is the last, if it is too small. -/
inductive Rebalanced (s : Store) (c : Reshaping kind settings) (as : List PageRef)
    (child : PageRef) (bs : List PageRef) : List PageRef → Prop where
  | erased (empty : child.span = 0) : Rebalanced s c as child bs (as ++ bs)
  | placed {page : LivePage} (has : s.Has child page)
      (fits : page.isOversized settings child.pageSize = false) :
      Rebalanced s c as child bs (as ++ child :: bs)
  | cut {page : LivePage} {parts : List PageRef} (has : s.Has child page)
      (made : Parts s c page parts) : Rebalanced s c as child bs (as ++ parts ++ bs)
  | joined {page next : LivePage} {sibling : PageRef} {bs' parts : List PageRef}
      (behind : bs = sibling :: bs') (has : s.Has child page) (has' : s.Has sibling next)
      (made : Parts s c (c.join false page next) parts) :
      Rebalanced s c as child bs (as ++ parts ++ bs')
  | joinedLast {page last : LivePage} {sibling : PageRef} {as' parts : List PageRef}
      (before : as = as' ++ [sibling]) (behind : bs = []) (has : s.Has child page)
      (has' : s.Has sibling last) (made : Parts s c (c.join true last page) parts) :
      Rebalanced s c as child bs (as' ++ parts)

/-! ## The root -/

/-- Levels of nodes have been put above some references; the nodes of a level are the parts of one
over the level below. -/
inductive Grown (s : Store) (c : Reshaping kind settings) : List PageRef → List PageRef → Prop where
  | done (row : List PageRef) : Grown s c row row
  | level {parts top : List PageRef} {node : LivePage} (isNode : node.treeKind = kind)
      (made : Parts s c node parts) (above : Grown s c parts top) : Grown s c node.children top

theorem Grown.keep {row top : List PageRef} (hkeeps : s.Keeps s') (hgrown : Grown s c row top) :
    Grown s' c row top := by
  induction hgrown with
  | done row => exact .done row
  | level isNode made _ ih => exact .level isNode (made.keep hkeeps) ih

/-- A root that is too large has been cut and has grown. -/
inductive Raised (s : Store) (c : Reshaping kind settings) (r : PageRef) : PageRef → Prop where
  | fits {page : LivePage} (has : s.Has r page)
      (fits : page.isOversized settings r.pageSize = false) : Raised s c r r
  | cut {page : LivePage} {parts : List PageRef} {root : PageRef} (has : s.Has r page)
      (made : Parts s c page parts) (grown : Grown s c parts [root]) : Raised s c r root

theorem Raised.keep {r root : PageRef} (hkeeps : s.Keeps s') (hraised : Raised s c r root) :
    Raised s' c r root := by
  cases hraised with
  | fits has fits => exact .fits (has.keep hkeeps) fits
  | cut has made grown =>
      exact .cut (has.keep hkeeps) (made.keep hkeeps) (grown.keep hkeeps)

/-- A root has given way to its child as long as it was the only one, or to an empty page if there
was none. -/
inductive Collapsed (s : Store) (kind : TreeKind) (version : Nat) : PageRef → PageRef → Prop where
  | stays (r : PageRef) : Collapsed s kind version r r
  | through {r child r' : PageRef} {page : LivePage} (has : s.Has r page)
      (only : page.children = [child]) (rest : Collapsed s kind version child r') :
      Collapsed s kind version r r'
  | emptied {r r' : PageRef} {page : LivePage} (has : s.Has r page) (none : page.children = [])
      (isNode : page.isNode = true) (made : s.Made (.empty kind r.stem version) r') :
      Collapsed s kind version r r'

/-- References that can be walked: they have a place in memory, and the children of a page that is
read from one can be walked. -/
structure Walkable (R : Store → PageRef → Prop) : Prop where
  allocated : ∀ s r, R s r → r.id < s.cells.size
  child : ∀ s r page s', R s r → exec r.page s = (.ok page, s') → ∀ m ∈ page.children, R s' m

/-- References that can be walked, where nothing is empty beneath a root that is not. -/
structure Branching (R : Store → PageRef → Prop) : Prop extends Walkable R where
  child_span : ∀ s r page s', R s r → exec r.page s = (.ok page, s') →
    ∀ m ∈ page.children, m.span ≠ 0
  node : ∀ s r page s', R s r → exec r.page s = (.ok page, s') → page.isNode = true →
    r.span ≠ 0 → page.children ≠ []

end PageTree
