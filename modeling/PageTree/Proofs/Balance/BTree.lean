import PageTree.Proofs.Balance.Basic
import PageTree.Proofs.BTree.Provenance

/-!
# How B-trees balance their pages

The cuts of a page of a B-tree go on until each part is compact, and they keep the children in
their order (`reshaping`).  What the operations do with a row of siblings and with a root is what
`Rebalanced` and `Balanced` say of any tree (`rebalanceChild_attains`, `balanced_attains`).
-/

namespace PageTree
namespace BTree

open StoreM

variable {s : Store} {settings : Settings} {version stem : Nat} {p : LivePage}

/-! ## Cutting and joining -/

/-- The halves of a page have its children between them. -/
theorem children_halves {body left right : PageBody PageRef}
    (hhalves : halves? body = some (left, right)) :
    left.children ++ right.children = body.children := by
  cases body with
  | btreeLeaf slots =>
      cases hhalves
      rfl
  | btreeNode children =>
      obtain ⟨-, rfl, rfl⟩ := halves_node hhalves
      simp only [PageBody.children]
      rw [← List.map_append, List.take_append_drop]
  | utreeLeaf | qtreeLeaf | qtreeNode => cases hhalves

/-- Each half of a page is smaller than the page. -/
theorem arity_halves_lt (version stem : Nat) {left right : PageBody PageRef}
    (hhalves : halves? p.body = some (left, right)) (hmany : 1 < p.arity) :
    (⟨version, stem, left⟩ : LivePage).arity < p.arity ∧
      (⟨version, stem, right⟩ : LivePage).arity < p.arity := by
  obtain ⟨v, st, body⟩ := p
  cases body with
  | btreeLeaf slots =>
      cases hhalves
      simp only [Page.arity, List.length_take, List.length_drop] at hmany ⊢
      omega
  | btreeNode children =>
      obtain ⟨hfour, rfl, rfl⟩ := halves_node hhalves
      simp only [Page.arity, List.length_take, List.length_drop]
      omega
  | utreeLeaf | qtreeLeaf | qtreeNode => cases hhalves

theorem splitWithin_ne_nil (settings : Settings) (version cuts : Nat) (p : LivePage) :
    splitWithin settings version cuts p ≠ [] := by
  induction cuts generalizing p with
  | zero => exact List.cons_ne_nil _ _
  | succ cuts ih =>
      unfold splitWithin
      split
      · split
        · exact fun hnil => ih _ (List.append_eq_nil_iff.1 hnil).1
        · exact List.cons_ne_nil _ _
      · exact List.cons_ne_nil _ _

/-- The parts of a page have its children, in their order. -/
theorem splitWithin_children (settings : Settings) (version cuts : Nat) (p : LivePage) :
    (splitWithin settings version cuts p).flatMap Page.children = p.children := by
  induction cuts generalizing p with
  | zero => exact List.append_nil _
  | succ cuts ih =>
      unfold splitWithin
      split
      · split
        · next left right hhalves =>
            rw [List.flatMap_append, ih, ih, Page.children_eq, Page.children_eq,
              children_halves hhalves, Page.children_eq]
        · exact List.append_nil _
      · exact List.append_nil _

theorem splitWithin_kind (settings : Settings) (version cuts : Nat) (hkind : p.treeKind = .btree) :
    ∀ q ∈ splitWithin settings version cuts p, q.treeKind = .btree := by
  induction cuts generalizing p with
  | zero => exact fun q hq => List.mem_singleton.1 hq ▸ hkind
  | succ cuts ih =>
      unfold splitWithin
      split
      · split
        · next left right hhalves =>
            obtain ⟨⟨hleft, -⟩, hright, -⟩ := children_of_halves version p.stem hhalves
            exact List.forall_mem_append.2 ⟨ih hleft, ih hright⟩
        · exact fun q hq => List.mem_singleton.1 hq ▸ hkind
      · exact fun q hq => List.mem_singleton.1 hq ▸ hkind

/-- A page of a B-tree that is not cut has few children. -/
theorem compact_of_uncut (hkind : p.treeKind = .btree) (huncut : halves? p.body = none) :
    p.Compact settings := by
  obtain ⟨v, st, body⟩ := p
  cases body with
  | btreeLeaf slots => cases huncut
  | btreeNode children =>
      refine Or.inr ?_
      simp only [halves?] at huncut
      split at huncut
      · cases huncut
      · next hfew =>
          simp only [minNodeSplitArity, Nat.not_le] at hfew
          exact Nat.le_of_lt_succ hfew
  | utreeLeaf | qtreeLeaf | qtreeNode => cases hkind

/-- As many cuts as there are slots or children leave compact pages. -/
theorem splitWithin_compact (settings : Settings) (version cuts : Nat)
    (hkind : p.treeKind = .btree) (hcuts : p.arity ≤ cuts) :
    ∀ q ∈ splitWithin settings version cuts p, q.Compact settings := by
  induction cuts generalizing p with
  | zero =>
      intro q hq
      obtain rfl := List.mem_singleton.1 hq
      exact Or.inr (Nat.le_trans hcuts (Nat.zero_le _))
  | succ cuts ih =>
      unfold splitWithin
      split
      · next hoversized =>
          split
          · next left right hhalves =>
              obtain ⟨hleft, hright⟩ :=
                arity_halves_lt version p.stem hhalves (Page.one_lt_arity hoversized)
              obtain ⟨⟨hkind₁, -⟩, hkind₂, -⟩ := children_of_halves version p.stem hhalves
              exact List.forall_mem_append.2 ⟨ih hkind₁ (by omega), ih hkind₂ (by omega)⟩
          · next huncut =>
              exact fun q hq => List.mem_singleton.1 hq ▸ compact_of_uncut hkind huncut
      · next hfits =>
          intro q hq
          obtain rfl := List.mem_singleton.1 hq
          exact Page.compact_of_fits rfl (by simpa using hfits)

/-- Two leaves or two nodes in one have the children of both. -/
theorem children_mergePages (version : Nat) {p q : LivePage} (htree : p.treeKind = .btree)
    (hkind : p.kind = q.kind) : (mergePages p q version).children = p.children ++ q.children := by
  obtain ⟨v, st, body⟩ := p
  obtain ⟨v', st', body'⟩ := q
  cases body with
  | btreeLeaf slots =>
      cases body' with
      | btreeLeaf slots' => rfl
      | _ => cases hkind
  | btreeNode children =>
      cases body' with
      | btreeNode children' => exact List.map_append
      | _ => cases hkind
  | utreeLeaf | qtreeLeaf | qtreeNode => cases htree

/-- How pages of B-trees are cut and joined. -/
def reshaping (settings : Settings) (version : Nat) : Reshaping .btree settings where
  cut := split settings version
  join _ p q := mergePages p q version
  cut_ne_nil p := splitWithin_ne_nil settings version p.arity p
  cut_alike p := splitWithin_children settings version p.arity p
  cut_kind p hkind := splitWithin_kind settings version p.arity hkind
  cut_compact p hkind := splitWithin_compact settings version p.arity hkind (Nat.le_refl _)
  join_kind _ p q hkind _ := treeKind_mergePages.trans hkind
  join_subset _ p q m hm := by
    rw [Page.children_eq] at hm
    exact List.mem_append.2 (mem_mergePages version hm)
  join_alike _ p q htree hkind := children_mergePages version htree hkind

/-! ## Rows of siblings -/

/-- References to pages are made in the order of the pages. -/
theorem refsOf_attains (pages : List LivePage) :
    Attains (refsOf pages) s fun refs s' => List.Forall₂ s'.Made pages (refs.map Prod.snd) := by
  have hall : Attains (refsOf pages) s fun refs s' =>
      List.Forall₂ (fun p child => s'.Made p child.2) pages refs := by
    refine .listMapM pages (fun _ _ _ _ hretains hmade => hmade.keep hretains.keeps) ?_
    intro p _ s' _
    exact .bind (PageRef.ofPage_attains p) fun r s'' _ _ hmade => .pure hmade
  exact hall.mono fun refs s' _ hmade => List.forall₂_map_right_iff.2 hmade

/-- The parts of a page take the place of a stretch of children. -/
theorem replace_attains (settings : Settings) (version : Nat) (as mid bs : List (Value × PageRef))
    {hi : Nat} (hhi : hi + 1 = as.length + mid.length) (page : LivePage) :
    Attains
      (do return splice (as ++ mid ++ bs) as.length hi (← refsOf (split settings version page)))
      s fun row s' => ∃ parts, Parts s' (reshaping settings version) page parts ∧
        row.map Prod.snd = as.map Prod.snd ++ parts ++ bs.map Prod.snd := by
  refine .bind (refsOf_attains _) fun refs s' _ _ hmade => .pure ⟨_, hmade, ?_⟩
  rw [splice_append as mid bs refs hhi, List.map_append, List.map_append]

/-- A rebuilt child is put back between its siblings. -/
theorem rebalanceChild_attains {as bs : List (Value × PageRef)} {old : Value × PageRef}
    {child : PageRef} (hchild : child.id < s.cells.size)
    (hsiblings : ∀ sibling ∈ as ++ bs, sibling.2.id < s.cells.size) :
    Attains (rebalanceChild (as ++ old :: bs) as.length child version) s fun row s' =>
      Rebalanced s' (reshaping s.settings version) (as.map Prod.snd) child (bs.map Prod.snd)
        (row.map Prod.snd) := by
  unfold rebalanceChild
  refine .ite (fun hempty => .pure ?_) fun _ => ?_
  · rw [List.eraseIdx_append_of_length_le (Nat.le_refl _), Nat.sub_self, List.eraseIdx_cons_zero,
      List.map_append]
    exact .erased hempty
  refine .bind (PageRef.page_attains child) fun page s' _ hretains hpage => .get ?_
  replace hpage := hpage hchild
  rw [hretains.settings]
  refine .ite (fun hmerges => ?_) fun _ => .ite (fun _ => ?_) fun hfits => .pure ?_
  · have hmany : 1 < (as ++ old :: bs).length := by
      rw [Bool.and_eq_true, decide_eq_true_eq] at hmerges
      exact hmerges.1
    rcases sibling_cases hmany with
      ⟨as, sibling, rfl, rfl, hlast, hlo, hindex⟩ | ⟨sibling, bs, rfl, hinner, hindex⟩
    · -- the last child joins the one before it
      simp only [if_pos hlast, hlo, hindex]
      have hsibling := hsiblings sibling (by simp)
      refine .bind (PageRef.page_attains sibling.2) fun last s'' _ hretains' hlast => ?_
      replace hlast := hlast (Nat.lt_of_lt_of_le hsibling hretains.cells)
      have hreplaced := replace_attains (s := s'') s.settings version as [sibling, old] [] rfl
        (mergePages last page version)
      have hlist : as ++ [sibling, old] ++ [] = as ++ [sibling] ++ [old] := by simp
      rw [hlist] at hreplaced
      refine hreplaced.mono fun row s₃ hretains'' => ?_
      rintro ⟨parts, hmade, hrow⟩
      have hkeeps := hretains'.keeps.trans hretains''.keeps
      rw [hrow, List.map_append, List.map_nil, List.append_nil]
      exact .joinedLast rfl rfl (hpage.keep hkeeps) (hlast.keep hretains''.keeps) hmade
    · -- any other child joins the one behind it
      simp only [if_neg hinner, hindex]
      have hsibling := hsiblings sibling (by simp)
      refine .bind (PageRef.page_attains sibling.2) fun next s'' _ hretains' hnext => ?_
      replace hnext := hnext (Nat.lt_of_lt_of_le hsibling hretains.cells)
      have hreplaced := replace_attains (s := s'') s.settings version as [old, sibling] bs rfl
        (mergePages page next version)
      have hlist : as ++ [old, sibling] ++ bs = as ++ old :: sibling :: bs := by simp
      rw [hlist] at hreplaced
      refine hreplaced.mono fun row s₃ hretains'' => ?_
      rintro ⟨parts, hmade, hrow⟩
      have hkeeps := hretains'.keeps.trans hretains''.keeps
      rw [hrow]
      exact .joined rfl (hpage.keep hkeeps) (hnext.keep hretains''.keeps) hmade
  · have hreplaced := replace_attains (s := s') s.settings version as [old] bs rfl page
    rw [← List.append_cons] at hreplaced
    refine hreplaced.mono fun row s'' hretains' => ?_
    rintro ⟨parts, hmade, hrow⟩
    rw [hrow]
    exact .cut (hpage.keep hretains'.keeps) hmade
  · rw [List.set_append_right _ _ (Nat.le_refl _), Nat.sub_self, List.set_cons_zero,
      List.map_append, List.map_cons]
    exact .placed hpage (by simpa using hfits)

/-! ## Roots -/

/-- Levels of nodes above some references end with one root. -/
theorem growWithin_attains (levels : Nat) {children : List (Value × PageRef)}
    (hne : children ≠ []) (hlevels : children.length ≤ levels) :
    Attains (growWithin version stem levels children) s fun grown s' =>
      ∃ root, grown = [root] ∧
        Grown s' (reshaping s.settings version) (children.map Prod.snd) [root.2] := by
  induction levels generalizing s children with
  | zero => exact absurd (List.length_eq_zero_iff.1 (Nat.le_zero.1 hlevels)) hne
  | succ levels ih =>
      unfold growWithin
      refine .ite (fun hone => .pure ?_) fun hmany => .get ?_
      · obtain ⟨root, rfl⟩ : ∃ root, children = [root] :=
          List.length_eq_one_iff.1 (by have := List.length_pos_iff.2 hne; omega)
        exact ⟨root, rfl, .done _⟩
      · refine .bind (refsOf_attains _) fun refs s' _ hretains hmade => ?_
        have hfewer := length_splitWithin_le s.settings version children.length version stem
          children (by omega)
        have hlength := hmade.length_eq
        change (splitWithin s.settings version children.length _).length = _ at hlength
        rw [List.length_map] at hlength
        have hrefs : refs ≠ [] := by
          rintro rfl
          exact splitWithin_ne_nil s.settings version children.length _
            (List.length_eq_zero_iff.1 hlength)
        -- each level has fewer references than the one below, so the levels suffice
        refine (ih hrefs (by omega)).mono fun grown s'' hretains' => ?_
        rw [hretains.settings]
        rintro ⟨root, rfl, hgrown⟩
        have hlevel : Grown s'' (reshaping s.settings version)
            (⟨version, stem, .btreeNode children⟩ : LivePage).children [root.2] :=
          .level rfl (Parts.keep (c := reshaping s.settings version) hretains'.keeps hmade) hgrown
        exact ⟨root, rfl, hlevel⟩

theorem raised_attains {r : PageRef} (hallocated : r.id < s.cells.size) :
    Attains (raised r version) s fun root s' =>
      Raised s' (reshaping s.settings version) r root := by
  unfold raised
  refine .bind (PageRef.page_attains r) fun page s' _ hretains hpage => .get ?_
  replace hpage := hpage hallocated
  rw [hretains.settings]
  refine .ite (fun hoversized => ?_) fun hfits => .pure (.fits hpage (by simpa using hfits))
  refine .bind (refsOf_attains _) fun refs s'' _ hretains' hmade => ?_
  have hrefs : refs ≠ [] := by
    rintro rfl
    exact splitWithin_ne_nil s.settings version page.arity page
      (List.length_eq_zero_iff.1 hmade.length_eq)
  refine .bind (growWithin_attains refs.length hrefs (Nat.le_refl _)) ?_
  rintro grown s₃ - hretains'' ⟨root, rfl, hgrown⟩
  rw [hretains'.settings, hretains.settings] at hgrown
  have hkeeps := hretains'.keeps.trans hretains''.keeps
  exact .pure (.cut (hpage.keep hkeeps)
    (Parts.keep (c := reshaping s.settings version) hretains''.keeps hmade) hgrown)

/-- Nodes of a single child give way to it. -/
theorem collapseWithin_attains {R : Store → PageRef → Prop} (hwalk : Walkable R) (depth : Nat)
    {r : PageRef} (hr : R s r) :
    Attains (collapseWithin version depth r) s fun r' s' => Collapsed s' .btree version r r' := by
  induction depth generalizing s r with
  | zero => exact .throw _
  | succ depth ih =>
      unfold collapseWithin
      refine .bind (PageRef.page_attains r) fun page s' hread hretains hpage => ?_
      replace hpage := hpage (hwalk.allocated s r hr)
      split
      · next key child hbody =>
          have honly : page.children = [child] := by rw [Page.children_eq, hbody]; rfl
          have hchild := hwalk.child s r page s' hr hread child (by simp [honly])
          refine (ih hchild).mono fun r' s'' hretains' hcollapsed => ?_
          exact .through (hpage.keep hretains'.keeps) honly hcollapsed
      · next hbody =>
          refine (PageRef.ofPage_attains _).mono fun r' s'' hretains' hmade => ?_
          refine .emptied (hpage.keep hretains'.keeps) ?_ ?_ hmade
          · rw [Page.children_eq, hbody]; rfl
          · rw [Page.isNode, Page.kind, hbody]; rfl
      · exact .pure (.stays r)

end BTree
end PageTree
