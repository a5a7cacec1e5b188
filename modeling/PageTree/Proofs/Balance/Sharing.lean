import Mathlib.Data.List.Perm.Subperm
import PageTree.Proofs.Balance.Basic
import PageTree.Proofs.Commit.Counterpart

/-!
# What trees share

A change makes new pages on the way to what it changes and takes over what lies aside.  A row of
references *unfolds* to another one where some references give way to the children of their pages
(`Store.Unfolds`); what a tree has taken over is among what its root unfolds to, in the order it had
(`Store.Shares`).  A rebuilt child *carries* what lies aside of the turns below it, and so does
whatever its page is cut into and joined with (`Rebalanced.carries`), up to the root.
-/

namespace PageTree

open StoreM

variable {kind : TreeKind} {settings : Settings} {c : Reshaping kind settings} {s s' : Store}
  {r r' child root : PageRef} {p page : LivePage} {as bs row row' cut cut' : List PageRef}

/-! ## Unfolding -/

/-- A row of references, some of them replaced by what the children of their pages unfold to. -/
inductive Store.Unfolds (s : Store) : List PageRef → List PageRef → Prop where
  | nil : Unfolds s [] []
  | keep {row cut : List PageRef} (r : PageRef) (rest : Unfolds s row cut) :
      Unfolds s (r :: row) (r :: cut)
  | unfold {r : PageRef} {p : LivePage} {row cut cut' : List PageRef} (has : s.Has r p)
      (beneath : Unfolds s p.children cut) (rest : Unfolds s row cut') :
      Unfolds s (r :: row) (cut ++ cut')

namespace Store.Unfolds

theorem refl (row : List PageRef) : s.Unfolds row row := by
  induction row with
  | nil => exact .nil
  | cons r row ih => exact .keep r ih

theorem keeps (hkeeps : s.Keeps s') (hunfolds : s.Unfolds row cut) : s'.Unfolds row cut := by
  induction hunfolds with
  | nil => exact .nil
  | keep r _ ih => exact .keep r ih
  | unfold has _ _ ih ih' => exact .unfold (has.keep hkeeps) ih ih'

theorem append (hunfolds : s.Unfolds row cut) (hunfolds' : s.Unfolds row' cut') :
    s.Unfolds (row ++ row') (cut ++ cut') := by
  induction hunfolds with
  | nil => exact hunfolds'
  | keep r _ ih => exact .keep r ih
  | unfold has beneath _ _ ih =>
      rw [List.append_assoc]
      exact .unfold has beneath ih

/-- A row in two stretches unfolds to two stretches. -/
theorem of_append (hunfolds : s.Unfolds (as ++ bs) cut) :
    ∃ cut₁ cut₂, cut = cut₁ ++ cut₂ ∧ s.Unfolds as cut₁ ∧ s.Unfolds bs cut₂ := by
  induction as generalizing cut with
  | nil => exact ⟨[], cut, rfl, .nil, hunfolds⟩
  | cons a as ih =>
      cases hunfolds with
      | keep _ rest =>
          obtain ⟨cut₁, cut₂, rfl, h₁, h₂⟩ := ih rest
          exact ⟨a :: cut₁, cut₂, rfl, .keep a h₁, h₂⟩
      | @unfold _ _ _ cut₀ _ has beneath rest =>
          obtain ⟨cut₁, cut₂, rfl, h₁, h₂⟩ := ih rest
          exact ⟨cut₀ ++ cut₁, cut₂, (List.append_assoc ..).symm, .unfold has beneath h₁, h₂⟩

/-- What a reference unfolds to is itself or what its page unfolds to. -/
theorem of_singleton (hunfolds : s.Unfolds [r] cut) :
    cut = [r] ∨ ∃ p, s.Has r p ∧ s.Unfolds p.children cut := by
  cases hunfolds with
  | keep _ rest =>
      cases rest
      exact .inl rfl
  | unfold has beneath rest =>
      cases rest
      rw [List.append_nil]
      exact .inr ⟨_, has, beneath⟩

/-- References in another order unfold to the same in another order. -/
theorem perm (hperm : row.Perm row') (hunfolds : s.Unfolds row cut) :
    ∃ cut', s.Unfolds row' cut' ∧ cut.Perm cut' := by
  induction hperm generalizing cut with
  | nil => exact ⟨cut, hunfolds, .refl cut⟩
  | cons r _ ih =>
      cases hunfolds with
      | keep _ rest =>
          obtain ⟨cut', hunfolds', hperm'⟩ := ih rest
          exact ⟨r :: cut', .keep r hunfolds', hperm'.cons r⟩
      | unfold has beneath rest =>
          obtain ⟨cut', hunfolds', hperm'⟩ := ih rest
          exact ⟨_, .unfold has beneath hunfolds', hperm'.append_left _⟩
  | swap r r' row =>
      -- each of the two goes before the other with all that it unfolds to
      obtain ⟨cut₁, rest, rfl, h₁, hrest⟩ :=
        of_append (show s.Unfolds ([r'] ++ r :: row) cut from hunfolds)
      obtain ⟨cut₂, cut₃, rfl, h₂, h₃⟩ :=
        of_append (show s.Unfolds ([r] ++ row) rest from hrest)
      refine ⟨cut₂ ++ (cut₁ ++ cut₃), h₂.append (h₁.append h₃), ?_⟩
      rw [← List.append_assoc, ← List.append_assoc]
      exact List.perm_append_comm.append_right cut₃
  | trans _ _ ih ih' =>
      obtain ⟨cut₁, hunfolds₁, hperm₁⟩ := ih hunfolds
      obtain ⟨cut₂, hunfolds₂, hperm₂⟩ := ih' hunfolds₁
      exact ⟨cut₂, hunfolds₂, hperm₁.trans hperm₂⟩

theorem alike (halike : kind.Alike row row') (hunfolds : s.Unfolds row cut) :
    ∃ cut', s.Unfolds row' cut' ∧ kind.Alike cut cut' := by
  cases kind with
  | qtree => exact hunfolds.perm halike
  | btree | utree =>
      cases (show row = row' from halike)
      exact ⟨cut, hunfolds, .refl cut⟩

/-- References to new pages unfold to what the children of the pages unfold to. -/
theorem of_made {pages : List LivePage} (hmade : List.Forall₂ s.Made pages row)
    (hunfolds : s.Unfolds (pages.flatMap Page.children) cut) : s.Unfolds row cut := by
  induction hmade generalizing cut with
  | nil => exact hunfolds
  | cons hpage _ ih =>
      obtain ⟨cut₁, cut₂, rfl, h₁, h₂⟩ := of_append hunfolds
      exact .unfold hpage.pins.has h₁ (ih h₂)

/-- What a root unfolds to is in its tree. -/
theorem within (hunfolds : s.Unfolds row cut) {m : PageRef} (hm : m ∈ cut) :
    ∃ r ∈ row, s.Within r m := by
  induction hunfolds with
  | nil => cases hm
  | keep r _ ih =>
      rcases List.mem_cons.1 hm with rfl | hm
      · exact ⟨m, List.mem_cons_self, .self m⟩
      · obtain ⟨r', hr', hwithin⟩ := ih hm
        exact ⟨r', List.mem_cons_of_mem r hr', hwithin⟩
  | @unfold r _ _ _ _ has _ _ ih ih' =>
      rcases List.mem_append.1 hm with hm | hm
      · obtain ⟨k, hk, hwithin⟩ := ih hm
        obtain ⟨serial, hcopy⟩ := has
        exact ⟨r, List.mem_cons_self, .beneath hcopy hk hwithin⟩
      · obtain ⟨r', hr', hwithin⟩ := ih' hm
        exact ⟨r', List.mem_cons_of_mem r hr', hwithin⟩

end Store.Unfolds

/-- The references occur among others, in their order unless the tree is a Q-tree. -/
def TreeKind.Among {α : Type} (kind : TreeKind) (as bs : List α) : Prop :=
  match kind with
  | .qtree => as.Subperm bs
  | _ => as.Sublist bs

namespace TreeKind.Among

variable {α : Type} {xs ys zs : List α}

theorem of_sublist (hsublist : xs.Sublist ys) : kind.Among xs ys := by
  cases kind
  · exact hsublist
  · exact hsublist
  · exact hsublist.subperm

theorem alike (hamong : kind.Among xs ys) (halike : kind.Alike ys zs) : kind.Among xs zs := by
  cases kind with
  | qtree =>
      have hsubperm : xs.Subperm ys := hamong
      have hperm : ys.Perm zs := halike
      exact hsubperm.trans hperm.subperm
  | btree | utree =>
      cases (show ys = zs from halike)
      exact hamong

theorem sublist (hamong : kind.Among xs ys) (hsublist : ys.Sublist zs) : kind.Among xs zs := by
  cases kind with
  | qtree =>
      have hsubperm : xs.Subperm ys := hamong
      exact hsubperm.trans hsublist.subperm
  | btree | utree =>
      have hsublist' : xs.Sublist ys := hamong
      exact hsublist'.trans hsublist

/-- Nothing or all occurs in a single item. -/
theorem of_singleton {a : α} (hamong : kind.Among xs [a]) : xs = [] ∨ xs = [a] := by
  cases kind with
  | qtree => exact List.subperm_singleton_iff.1 hamong
  | btree | utree => exact List.sublist_singleton.1 hamong

end TreeKind.Among

/-! ## What lies aside of a way -/

/-- A node on a way down a tree, and the index of the child that the way goes on with. -/
structure Turn where
  page : LivePage
  index : Nat

/-- The children of the node, in order, without the one that the way goes on with and without at
most one of its two neighbours. -/
def Turn.Aside (turn : Turn) (front back : List PageRef) : Prop :=
  ∃ taken, turn.page.children = front ++ taken ++ back ∧ taken.length ≤ 2 ∧
    front.length ≤ turn.index ∧ turn.index < front.length + taken.length

/-- A way down from a reference to a page without children, every turn of which is one that leads
on. -/
inductive Store.Way (s : Store) (Leads : LivePage → Nat → Prop) : PageRef → List Turn → Prop where
  | ends {r : PageRef} {p : LivePage} (has : s.Has r p) (childless : p.children = []) :
      Way s Leads r []
  | turns {r child : PageRef} {p : LivePage} {index : Nat} {turns : List Turn} (has : s.Has r p)
      (leads : Leads p index) (taken : p.children[index]? = some child)
      (beneath : Way s Leads child turns) : Way s Leads r (⟨p, index⟩ :: turns)

theorem Store.Way.keep {Leads : LivePage → Nat → Prop} {turns : List Turn} (hkeeps : s.Keeps s')
    (hway : s.Way Leads r turns) : s'.Way Leads r turns := by
  induction hway with
  | ends has childless => exact .ends (has.keep hkeeps) childless
  | turns has leads taken _ ih => exact .turns (has.keep hkeeps) leads taken ih

/-- What lies aside of a turn is among what a row unfolds to. -/
def Store.Carries (s : Store) (kind : TreeKind) (row : List PageRef) (turn : Turn) : Prop :=
  ∃ front back cut, turn.Aside front back ∧ s.Unfolds row cut ∧ kind.Among (front ++ back) cut

namespace Store.Carries

variable {turn : Turn}

theorem keep (hkeeps : s.Keeps s') (hcarries : s.Carries kind row turn) :
    s'.Carries kind row turn := by
  obtain ⟨front, back, cut, haside, hunfolds, hamong⟩ := hcarries
  exact ⟨front, back, cut, haside, hunfolds.keeps hkeeps, hamong⟩

theorem alike (hcarries : s.Carries kind row turn) (halike : kind.Alike row row') :
    s.Carries kind row' turn := by
  obtain ⟨front, back, cut, haside, hunfolds, hamong⟩ := hcarries
  obtain ⟨cut', hunfolds', halike'⟩ := hunfolds.alike halike
  exact ⟨front, back, cut', haside, hunfolds', hamong.alike halike'⟩

/-- More references on either side carry no less. -/
theorem between (hcarries : s.Carries kind row turn) (as bs : List PageRef) :
    s.Carries kind (as ++ row ++ bs) turn := by
  obtain ⟨front, back, cut, haside, hunfolds, hamong⟩ := hcarries
  refine ⟨front, back, as ++ cut ++ bs, haside,
    ((Unfolds.refl as).append hunfolds).append (.refl bs), hamong.sublist ?_⟩
  exact (List.sublist_append_right as cut).trans (List.sublist_append_left _ bs)

theorem of_made {pages : List LivePage} (hmade : List.Forall₂ s.Made pages row)
    (hcarries : s.Carries kind (pages.flatMap Page.children) turn) : s.Carries kind row turn := by
  obtain ⟨front, back, cut, haside, hunfolds, hamong⟩ := hcarries
  exact ⟨front, back, cut, haside, .of_made hmade hunfolds, hamong⟩

/-- Nothing lies aside of a turn at a node of a single child. -/
theorem of_single (row : List PageRef) (hindex : turn.index < turn.page.children.length)
    (hsingle : turn.page.children.length ≤ 1) : s.Carries kind row turn := by
  refine ⟨[], [], row, ⟨turn.page.children, by simp, by omega, Nat.zero_le _, by simpa⟩, .refl row,
    .of_sublist (List.nil_sublist row)⟩

end Store.Carries

/-! ## Taking over -/

variable {turn : Turn}

theorem Parts.carries {parts : List PageRef} (hparts : Parts s c p parts)
    (hcarries : s.Carries kind p.children turn) : s.Carries kind parts turn :=
  .of_made hparts (hcarries.alike (.symm (c.cut_alike p)))

/-- What a rebuilt child carries, the row that takes it back carries too.  If nothing is left of the
child, nothing lay aside of the turn. -/
theorem Rebalanced.carries (hrow : Rebalanced s c as child bs row) (hmade : s.Made page child)
    (hkind : page.treeKind = kind)
    (hpeers : child.span ≠ 0 → ∀ m ∈ as ++ bs, ∀ q, s.Has m q → q.kind = page.kind)
    (hindex : turn.index < turn.page.children.length)
    (hspent : child.span = 0 → turn.page.children.length ≤ 1)
    (hcarries : s.Carries kind page.children turn) : s.Carries kind row turn := by
  -- if nothing is left of the child, then nothing lay beside the turn that could be lost
  by_cases hempty : child.span = 0
  · exact .of_single row hindex (hspent hempty)
  replace hpeers := hpeers hempty
  cases hrow with
  | erased empty => exact absurd empty hempty
  | placed =>
      have hchild : s.Carries kind [child] turn :=
        .of_made (.cons hmade .nil) (by simpa using hcarries)
      simpa using hchild.between as bs
  | cut has made =>
      obtain rfl := has.unique hmade.pins.has
      exact (made.carries hcarries).between as bs
  | @joined _ next sibling bs' parts behind has has' made =>
      subst behind
      obtain rfl := has.unique hmade.pins.has
      have hsame := hpeers sibling (by simp) next has'
      -- what the pages carry that join, the page that they join to carries side by side
      have hboth := hcarries.between [] next.children
      have hjoined := c.join_alike false _ next hkind hsame.symm
      exact (made.carries (hboth.alike (.symm hjoined))).between as bs'
  | @joinedLast _ last sibling as' parts before behind has has' made =>
      subst before behind
      obtain rfl := has.unique hmade.pins.has
      have hsame := hpeers sibling (by simp) last has'
      have hkind' : last.treeKind = kind := by rw [Page.treeKind, hsame]; exact hkind
      have hboth := hcarries.between last.children []
      rw [List.append_nil] at hboth
      have hparts := made.carries (hboth.alike (.symm (c.join_alike true _ _ hkind' hsame)))
      simpa using hparts.between as' []

/-- A row that takes back a rebuilt child has all children aside of the old one. -/
theorem Rebalanced.carries_aside {old : PageRef} (hrow : Rebalanced s c as child bs row)
    (hchildren : p.children = as ++ old :: bs) : s.Carries kind row ⟨p, as.length⟩ := by
  have haside : Turn.Aside ⟨p, as.length⟩ as bs :=
    ⟨[old], by simp [hchildren], by simp, Nat.le_refl _, by simp⟩
  cases hrow with
  | erased => exact ⟨as, bs, _, haside, .refl _, .of_sublist (.refl _)⟩
  | placed =>
      exact ⟨as, bs, _, haside, .refl _,
        .of_sublist ((List.sublist_cons_self child bs).append_left as)⟩
  | cut =>
      exact ⟨as, bs, _, haside, .refl _,
        .of_sublist ((List.sublist_append_left as _).append_right bs)⟩
  | @joined _ _ sibling bs' parts behind =>
      subst behind
      refine ⟨as, bs', _, ⟨[old, sibling], by simp [hchildren], by simp, Nat.le_refl _, by simp⟩,
        .refl _, .of_sublist ((List.sublist_append_left as _).append_right bs')⟩
  | @joinedLast _ _ sibling as' parts before behind =>
      subst before behind
      refine ⟨as', [], _, ⟨[sibling, old], by simp [hchildren], by simp, by simp, by simp⟩,
        .refl _, .of_sublist ?_⟩
      rw [List.append_nil]
      exact List.sublist_append_left as' parts

/-! ## Rebuilt subtrees -/

theorem Store.Way.index_lt {Leads : LivePage → Nat → Prop} {turns : List Turn}
    (hway : s.Way Leads r turns) : ∀ turn ∈ turns, turn.index < turn.page.children.length := by
  induction hway with
  | ends => exact fun _ hturn => absurd hturn List.not_mem_nil
  | turns has leads taken _ ih =>
      exact List.forall_mem_cons.2 ⟨(List.getElem?_eq_some_iff.1 taken).1, ih⟩

/-- All pages on a way down from a reference have been rebuilt, the topmost as a page that carries
what lies aside of the turns. -/
structure Store.Rebuilds (s : Store) (kind : TreeKind) (Leads : LivePage → Nat → Prop) (r : PageRef)
    (turns : List Turn) (page : LivePage) (r' : PageRef) : Prop where
  way : s.Way Leads r turns
  made : s.Made page r'
  isKind : page.treeKind = kind
  carries : ∀ turn ∈ turns, s.Carries kind page.children turn

theorem Store.Rebuilds.keep {Leads : LivePage → Nat → Prop} {turns : List Turn}
    (hkeeps : s.Keeps s') (hrebuilds : s.Rebuilds kind Leads r turns page r') :
    s'.Rebuilds kind Leads r turns page r' :=
  ⟨hrebuilds.way.keep hkeeps, hrebuilds.made.keep hkeeps, hrebuilds.isKind,
    fun turn hturn => (hrebuilds.carries turn hturn).keep hkeeps⟩

/-- A page without children is rebuilt as another one. -/
theorem Store.Rebuilds.leaf {Leads : LivePage → Nat → Prop} (hhas : s.Has r p)
    (hchildless : p.children = []) (hkeeps : s.Keeps s') (hmade : s'.Made page r')
    (hkind : page.treeKind = kind) : s'.Rebuilds kind Leads r [] page r' :=
  ⟨.ends (hhas.keep hkeeps) hchildless, hmade, hkind, fun _ hturn => absurd hturn List.not_mem_nil⟩

/-- A node is rebuilt over a row that has taken back a rebuilt child. -/
theorem Store.Rebuilds.node {Leads : LivePage → Nat → Prop} {turns : List Turn} {p' : LivePage}
    {old : PageRef} (hrebuilds : s.Rebuilds kind Leads old turns page child) (hhas : s.Has r p)
    (hchildren : p.children = as ++ old :: bs) (hleads : Leads p as.length)
    (hrow : Rebalanced s c as child bs row)
    (hpeers : child.span ≠ 0 → ∀ m ∈ as ++ bs, ∀ q, s.Has m q → q.kind = page.kind)
    (hspent : child.span = 0 → ∀ turn ∈ turns, turn.page.children.length ≤ 1)
    (hkeeps : s.Keeps s') (hmade : s'.Made p' r') (hkind : p'.treeKind = kind)
    (hrow' : p'.children = row) : s'.Rebuilds kind Leads r (⟨p, as.length⟩ :: turns) p' r' := by
  have hway : s.Way Leads r (⟨p, as.length⟩ :: turns) :=
    .turns hhas hleads (by simp [hchildren]) hrebuilds.way
  refine ⟨hway.keep hkeeps, hmade, hkind, ?_⟩
  rw [hrow']
  refine List.forall_mem_cons.2 ⟨(hrow.carries_aside hchildren).keep hkeeps, fun turn hturn => ?_⟩
  have hcarries := hrow.carries hrebuilds.made hrebuilds.isKind hpeers
    (hrebuilds.way.index_lt turn hturn) (fun hempty => hspent hempty turn hturn)
    (hrebuilds.carries turn hturn)
  exact hcarries.keep hkeeps

/-! ## Rebuilt roots -/

/-- What some new pages carry, the root of the levels above them carries beneath its page. -/
theorem Grown.carries {top : List PageRef} {pages : List LivePage} (hgrown : Grown s c row top)
    (htop : top = [root]) (hmade : List.Forall₂ s.Made pages row)
    (hcarries : s.Carries kind (pages.flatMap Page.children) turn) :
    ∃ q, s.Has root q ∧ s.Carries kind q.children turn := by
  induction hgrown generalizing pages with
  | done row =>
      subst htop
      obtain ⟨q, rest, hq, hrest, rfl⟩ := List.forall₂_cons_right_iff.1 hmade
      cases hrest
      exact ⟨q, hq.pins.has, by simpa using hcarries⟩
  | @level parts top node isNode made above ih =>
      exact ih htop made ((hcarries.of_made hmade).alike (.symm (c.cut_alike node)))

/-- What a rebuilt root carries, it carries beneath its page once it has grown. -/
theorem Raised.carries (hraised : Raised s c r root) (hmade : s.Made page r)
    (hcarries : s.Carries kind page.children turn) :
    ∃ q, s.Has root q ∧ s.Carries kind q.children turn := by
  cases hraised with
  | fits => exact ⟨page, hmade.pins.has, hcarries⟩
  | cut has made grown =>
      obtain rfl := has.unique hmade.pins.has
      exact grown.carries rfl made (hcarries.alike (.symm (c.cut_alike _)))

/-- Nodes lead down to a reference, each to its only child. -/
inductive Store.Narrows (s : Store) : PageRef → PageRef → Prop where
  | self (r : PageRef) : Narrows s r r
  | through {r child r' : PageRef} {page : LivePage} (has : s.Has r page)
      (only : page.children = [child]) (rest : Narrows s child r') : Narrows s r r'

theorem Store.Narrows.keep (hkeeps : s.Keeps s') (hnarrows : s.Narrows r r') : s'.Narrows r r' := by
  induction hnarrows with
  | self r => exact .self r
  | through has only _ ih => exact .through (has.keep hkeeps) only ih

/-- What lies aside of a turn is in the tree beneath a root, in the order it had unless the tree is
a Q-tree; or it is one node, and the root is what the node has given way to, as a node of a single
child. -/
def Store.Shares (s : Store) (kind : TreeKind) (root : PageRef) (turn : Turn) : Prop :=
  ∃ front back, turn.Aside front back ∧
    ((∃ cut, s.Unfolds [root] cut ∧ kind.Among (front ++ back) cut) ∨
      ∃ m p child, front ++ back = [m] ∧ s.Has m p ∧ p.children = [child] ∧ s.Narrows child root)

theorem Store.Shares.keep (hkeeps : s.Keeps s') (hshares : s.Shares kind root turn) :
    s'.Shares kind root turn := by
  obtain ⟨front, back, haside, hshared⟩ := hshares
  refine ⟨front, back, haside, hshared.imp ?_ ?_⟩
  · rintro ⟨cut, hunfolds, hamong⟩
    exact ⟨cut, hunfolds.keeps hkeeps, hamong⟩
  · rintro ⟨m, p, child, hone, has, only, hnarrows⟩
    exact ⟨m, p, child, hone, has.keep hkeeps, only, hnarrows.keep hkeeps⟩

/-- What a root carries beneath its page is shared when the root gives way. -/
theorem Store.Narrows.shares (hnarrows : s.Narrows root r') {q : LivePage} (hq : s.Has root q)
    (hcarries : s.Carries kind q.children turn) : s.Shares kind r' turn := by
  obtain ⟨front, back, cut, haside, hunfolds, hamong⟩ := hcarries
  refine ⟨front, back, haside, ?_⟩
  induction hnarrows generalizing q with
  | self r => exact .inl ⟨cut, by simpa using Unfolds.unfold hq hunfolds .nil, hamong⟩
  | @through r child r' page has only rest ih =>
      obtain rfl := hq.unique has
      rw [only] at hunfolds
      rcases hunfolds.of_singleton with rfl | ⟨q', hq', hunfolds'⟩
      · -- the only child lies aside, or nothing does
        rcases hamong.of_singleton with hnone | hone
        · exact .inl ⟨[r'], .refl _, by rw [hnone]; exact .of_sublist (List.nil_sublist _)⟩
        · cases rest with
          | self => exact .inl ⟨[child], .refl _, by rw [hone]; exact .of_sublist (.refl _)⟩
          | through has' only' rest' => exact .inr ⟨child, _, _, hone, has', only', rest'⟩
      · exact ih hq' hunfolds'

/-- A root that is not empty gives way to what it leads down to. -/
theorem Collapsed.narrows {R : Store → PageRef → Prop} {version : Nat} (hbranching : Branching R)
    (hkeeps : s.Keeps s') (hr : R s' r) (hspan : r.span ≠ 0)
    (hcollapsed : Collapsed s kind version r r') : s.Narrows r r' := by
  induction hcollapsed generalizing s' with
  | stays r => exact .self r
  | @through r child r' page has only _ ih =>
      obtain ⟨s'', hread⟩ := PageRef.exec_page_of_has (has.keep hkeeps)
      obtain ⟨hretains, -⟩ := PageRef.page_attains r page s'' hread
      have hmem : child ∈ page.children := by simp [only]
      exact .through has only (ih (hkeeps.trans hretains.keeps)
        (hbranching.child _ r page s'' hr hread child hmem)
        (hbranching.child_span _ r page s'' hr hread child hmem))
  | emptied has none isNode =>
      obtain ⟨s'', hread⟩ := PageRef.exec_page_of_has (has.keep hkeeps)
      exact absurd none (hbranching.node _ _ _ s'' hr hread isNode hspan)

/-- Nothing lies aside of a turn at a node of a single child, so any root shares it. -/
theorem Store.Shares.of_single (root : PageRef) (hindex : turn.index < turn.page.children.length)
    (hsingle : turn.page.children.length ≤ 1) : s.Shares kind root turn := by
  have hcarries : s.Carries kind [root] turn := .of_single [root] hindex hsingle
  obtain ⟨front, back, cut, haside, hunfolds, hamong⟩ := hcarries
  exact ⟨front, back, haside, .inl ⟨cut, hunfolds, hamong⟩⟩

/-- What a rebuilt root carries is shared once the root has grown and then given way.  If nothing is
left, nothing may lie aside of the turn. -/
theorem Raised.shares {R : Store → PageRef → Prop} {version : Nat} (hbranching : Branching R)
    (hraised : Raised s c r root) (hcollapsed : Collapsed s kind version root r')
    (hroot : R s root) (hmade : s.Made page r) (hindex : turn.index < turn.page.children.length)
    (hspent : root.span = 0 → turn.page.children.length ≤ 1)
    (hcarries : s.Carries kind page.children turn) : s.Shares kind r' turn := by
  by_cases hspan : root.span = 0
  · exact .of_single r' hindex (hspent hspan)
  · obtain ⟨q, hq, hcarries⟩ := hraised.carries hmade hcarries
    exact (hcollapsed.narrows hbranching (.refl s) hroot hspan).shares hq hcarries

end PageTree
