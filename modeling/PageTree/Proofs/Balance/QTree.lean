import PageTree.Proofs.Balance.Basic
import PageTree.Proofs.QTree.Change

/-!
# How Q-trees balance their pages

A page of a Q-tree is cut around its middle, which may put its children in another order but drops
none of them, and the cuts go on until each part is compact (`reshaping`).  Rows of siblings and
roots are balanced as in any tree (`rebalanceChild_attains`, `raised_attains`,
`collapseWithin_attains`).
-/

namespace PageTree
namespace QTree

open StoreM

variable {s : Store} {settings : Settings} {version stem : Nat} {p : LivePage}
  {middle : Nat × Nat} {bodies : List (PageBody PageRef)}

/-! ## Cutting and joining -/

theorem one_lt_length_partsAround {α : Type} (tiles : α → Tile × Tile) (middle : Nat × Nat)
    (items : List α) : 1 < (partsAround tiles middle items).length := by
  unfold partsAround
  dsimp only
  split
  · assumption
  · exact Nat.one_lt_two

/-- A page that is cut has several parts. -/
theorem one_lt_length_of_parts {body : PageBody PageRef}
    (hparts : parts? middle body = some bodies) : 1 < bodies.length := by
  cases body with
  | qtreeLeaf slots =>
      cases hparts
      rw [List.length_map]
      exact one_lt_length_partsAround _ _ _
  | qtreeNode children =>
      simp only [parts?] at hparts
      split at hparts
      · cases hparts
        rw [List.length_map]
        split
        · exact Nat.one_lt_two
        · exact one_lt_length_partsAround _ _ _
      · cases hparts
  | btreeLeaf | btreeNode | utreeLeaf => cases hparts

/-- If there are several parts and none is empty, each has fewer items than the whole. -/
theorem Distributes.length_lt {α : Type} {items : List α} {parts : List (List α)}
    (hdistributes : Distributes items parts) (hmany : 1 < parts.length) :
    ∀ part ∈ parts, part.length < items.length := by
  intro part hpart
  obtain ⟨as, bs, rfl⟩ := List.append_of_mem hpart
  have hlength := hdistributes.perm.length_eq
  obtain ⟨other, hother, hmem⟩ : ∃ other, other ∈ as ++ bs ∧ other ∈ as ++ part :: bs := by
    obtain ⟨other, hother⟩ := List.exists_mem_of_length_pos
      (show 0 < (as ++ bs).length by simp at hmany ⊢; omega)
    refine ⟨other, hother, ?_⟩
    rcases List.mem_append.1 hother with h | h <;> simp [h]
  have hpos := List.length_pos_iff.2 (hdistributes.full other hmem)
  have hle := (List.sublist_flatten_of_mem hother).length_le
  simp only [List.flatten_append, List.flatten_cons, List.length_append] at hlength hle
  omega

/-- The parts of a page are pages of a Q-tree and smaller than the page. -/
theorem part_smaller (version : Nat) (hparts : parts? middle p.body = some bodies)
    (hmany : 1 < p.arity) :
    ∀ body ∈ bodies, (⟨version, p.stem, body⟩ : LivePage).treeKind = .qtree ∧
      (⟨version, p.stem, body⟩ : LivePage).arity < p.arity := by
  have hseveral := one_lt_length_of_parts hparts
  obtain ⟨v, st, body⟩ := p
  cases body with
  | qtreeLeaf slots =>
      obtain ⟨parts, rfl, hdistributes⟩ := parts_leaf hparts hmany
      rw [List.length_map] at hseveral
      exact List.forall_mem_map.2 fun part hpart =>
        ⟨rfl, hdistributes.length_lt hseveral part hpart⟩
  | qtreeNode children =>
      obtain ⟨parts, rfl, hdistributes, -⟩ := parts_node hparts
      rw [List.length_map] at hseveral
      exact List.forall_mem_map.2 fun part hpart =>
        ⟨rfl, hdistributes.length_lt hseveral part hpart⟩
  | btreeLeaf | btreeNode | utreeLeaf => cases hparts

/-- The parts of a page have its children between them. -/
theorem children_parts (hparts : parts? middle p.body = some bodies) (hmany : 1 < p.arity) :
    (bodies.flatMap PageBody.children).Perm p.body.children := by
  obtain ⟨v, st, body⟩ := p
  cases body with
  | qtreeLeaf slots =>
      obtain ⟨parts, rfl, -⟩ := parts_leaf hparts hmany
      rw [List.flatMap_map]
      simp [PageBody.children]
  | qtreeNode children =>
      obtain ⟨parts, rfl, hdistributes, -⟩ := parts_node hparts
      rw [List.flatMap_map]
      exact (List.Perm.of_eq List.flatMap_id').trans hdistributes.perm
  | btreeLeaf | btreeNode | utreeLeaf => cases hparts

theorem splitWithin_ne_nil (settings : Settings) (version cuts : Nat) (p : LivePage) :
    splitWithin settings version cuts p ≠ [] := by
  induction cuts generalizing p with
  | zero => exact List.cons_ne_nil _ _
  | succ cuts ih =>
      unfold splitWithin
      split
      · split
        · next bodies hparts =>
            have hseveral := one_lt_length_of_parts hparts
            obtain ⟨body, hbody⟩ := List.exists_mem_of_length_pos (by omega : 0 < bodies.length)
            exact fun hnil => ih _ (List.flatMap_eq_nil_iff.1 hnil body hbody)
        · exact List.cons_ne_nil _ _
      · exact List.cons_ne_nil _ _

/-- The parts of a page have its children, maybe in another order. -/
theorem splitWithin_children (settings : Settings) (version cuts : Nat) (p : LivePage) :
    ((splitWithin settings version cuts p).flatMap Page.children).Perm p.children := by
  induction cuts generalizing p with
  | zero => exact List.Perm.of_eq (List.append_nil _)
  | succ cuts ih =>
      unfold splitWithin
      split
      · next hoversized =>
          split
          · next bodies hparts =>
              rw [List.flatMap_assoc, p.children_eq]
              refine .trans ?_ (children_parts hparts (Page.one_lt_arity hoversized))
              exact List.Perm.flatMap_left _ fun body _ =>
                (ih _).trans (List.Perm.of_eq (Page.children_eq _))
          · exact List.Perm.of_eq (List.append_nil _)
      · exact List.Perm.of_eq (List.append_nil _)

theorem splitWithin_kind (settings : Settings) (version cuts : Nat) (hkind : p.treeKind = .qtree) :
    ∀ q ∈ splitWithin settings version cuts p, q.treeKind = .qtree := by
  induction cuts generalizing p with
  | zero => exact fun q hq => List.mem_singleton.1 hq ▸ hkind
  | succ cuts ih =>
      unfold splitWithin
      split
      · next hoversized =>
          split
          · next bodies hparts =>
              have hsmaller := part_smaller version hparts (Page.one_lt_arity hoversized)
              exact List.forall_mem_flatMap.2 fun body hbody => ih (hsmaller body hbody).1
          · exact fun q hq => List.mem_singleton.1 hq ▸ hkind
      · exact fun q hq => List.mem_singleton.1 hq ▸ hkind

/-- A page of a Q-tree that is not cut has few children. -/
theorem compact_of_uncut (hkind : p.treeKind = .qtree) (huncut : parts? middle p.body = none) :
    p.Compact settings := by
  obtain ⟨v, st, body⟩ := p
  cases body with
  | qtreeLeaf slots => cases huncut
  | qtreeNode children =>
      refine Or.inr ?_
      simp only [parts?] at huncut
      split at huncut
      · cases huncut
      · next hfew =>
          simp only [minNodeSplitArity, Nat.not_le] at hfew
          exact Nat.le_of_lt_succ hfew
  | btreeLeaf | btreeNode | utreeLeaf => cases hkind

/-- As many cuts as there are slots or children leave compact pages. -/
theorem splitWithin_compact (settings : Settings) (version cuts : Nat)
    (hkind : p.treeKind = .qtree) (hcuts : p.arity ≤ cuts) :
    ∀ q ∈ splitWithin settings version cuts p, q.Compact settings := by
  induction cuts generalizing p with
  | zero =>
      intro q hq
      obtain rfl := List.mem_singleton.1 hq
      exact Or.inr (Nat.le_trans hcuts (Nat.zero_le _))
  | succ cuts ih =>
      unfold splitWithin
      split
      · next hoversized =>
          split
          · next bodies hparts =>
              have hsmaller := part_smaller version hparts (Page.one_lt_arity hoversized)
              refine List.forall_mem_flatMap.2 fun body hbody => ?_
              obtain ⟨hkind', hlt⟩ := hsmaller body hbody
              exact ih hkind' (by omega)
          · next huncut =>
              exact fun q hq => List.mem_singleton.1 hq ▸ compact_of_uncut hkind huncut
      · next hfits =>
          intro q hq
          obtain rfl := List.mem_singleton.1 hq
          exact Page.compact_of_fits rfl (by simpa using hfits)

theorem treeKind_mergePages (p q : LivePage) (version : Nat) :
    (mergePages p q version).treeKind = p.treeKind := by
  obtain ⟨v, st, body⟩ := p
  obtain ⟨v', st', body'⟩ := q
  cases body <;> cases body' <;> rfl

theorem children_mergePages_subset (p q : LivePage) (version : Nat) :
    (mergePages p q version).children ⊆ p.children ++ q.children := by
  obtain ⟨v, st, body⟩ := p
  obtain ⟨v', st', body'⟩ := q
  cases body <;> cases body' <;> simp [mergePages, Page.children]

/-- Two leaves or two nodes in one have the children of both. -/
theorem children_mergePages (version : Nat) {p q : LivePage} (htree : p.treeKind = .qtree)
    (hkind : p.kind = q.kind) : (mergePages p q version).children = p.children ++ q.children := by
  obtain ⟨v, st, body⟩ := p
  obtain ⟨v', st', body'⟩ := q
  cases body with
  | qtreeLeaf slots =>
      cases body' with
      | qtreeLeaf slots' => rfl
      | _ => cases hkind
  | qtreeNode children =>
      cases body' with
      | qtreeNode children' => rfl
      | _ => cases hkind
  | btreeLeaf | btreeNode | utreeLeaf => cases htree

/-- How pages of Q-trees are cut and joined.  A page that is joined with the sibling before it goes
first all the same. -/
def reshaping (settings : Settings) (version : Nat) : Reshaping .qtree settings where
  cut := split settings version
  join isLast p q := if isLast then mergePages q p version else mergePages p q version
  cut_ne_nil p := splitWithin_ne_nil settings version p.arity p
  cut_alike p := splitWithin_children settings version p.arity p
  cut_kind p hkind := splitWithin_kind settings version p.arity hkind
  cut_compact p hkind := splitWithin_compact settings version p.arity hkind (Nat.le_refl _)
  join_kind isLast p q hp hq := by
    split
    · exact (treeKind_mergePages q p version).trans hq
    · exact (treeKind_mergePages p q version).trans hp
  join_subset isLast p q := by
    split
    · exact List.Subset.trans (children_mergePages_subset q p version)
        List.perm_append_comm.subset
    · exact children_mergePages_subset p q version
  join_alike isLast p q htree hkind := by
    have htree' : q.treeKind = .qtree := by
      rw [Page.treeKind, ← hkind]
      exact htree
    split
    · rw [children_mergePages version htree' hkind.symm]
      exact List.perm_append_comm
    · exact TreeKind.Alike.of_eq (children_mergePages version htree hkind)

/-! ## Finding the child -/

section Finding

variable {key : Value} {point : Point} {r : PageRef} {children : List PageRef}

theorem findWithin_attains (depth : Nat) (r : PageRef) :
    Attains (findWithin key point depth r) s fun _ _ => True := by
  induction depth generalizing s r with
  | zero => exact .throw _
  | succ depth ih =>
      unfold findWithin
      refine .bind (PageRef.page_attains r) fun page s' _ _ _ => ?_
      split
      · exact .pure trivial
      · refine (Attains.listFindSomeM (R := fun _ _ => True) _ fun child _ s'' => ?_).mono
          fun _ _ _ _ => trivial
        exact (ih child).mono fun _ _ _ _ _ _ => trivial
      · exact .pure trivial

theorem find_attains (r : PageRef) : Attains (find? r key point) s fun _ _ => True :=
  .get (findWithin_attains _ r)

theorem locateWithin_attains (depth : Nat) (r : PageRef) :
    Attains (locateWithin key depth r) s fun _ _ => True := by
  induction depth generalizing s r with
  | zero => exact .throw _
  | succ depth ih =>
      unfold locateWithin
      refine .bind (PageRef.page_attains r) fun page s' _ _ _ => ?_
      split
      · exact .pure trivial
      · refine (Attains.listFindSomeM (R := fun _ _ => True) _ fun child _ s'' => ?_).mono
          fun _ _ _ _ => trivial
        exact (ih child).mono fun _ _ _ _ _ _ => trivial
      · exact .pure trivial

theorem locate_attains (r : PageRef) : Attains (locate? r key) s fun _ _ => True :=
  .get (locateWithin_attains _ r)

/-- The child to change is one of the children. -/
theorem targetChild_attains (hne : children ≠ []) (isInsert : Bool) :
    Attains (targetChild? children key point isInsert) s fun found _ =>
      ∀ index, found = some index → index < children.length := by
  have hholder : Attains (holder? children key point) s fun found _ =>
      ∀ index, found = some index → index < children.length := by
    refine (Attains.listFindSomeM (R := fun child index => index = child.2) _ ?_).mono ?_
    · rintro ⟨child, index⟩ - s'
      refine .ite (fun _ => ?_) fun _ => .pure fun _ hnone => nomatch hnone
      refine .bind (find_attains child) fun slot _ _ _ _ => .pure fun index' hsome => ?_
      obtain ⟨-, -, rfl⟩ := Option.map_eq_some_iff.1 hsome
      rfl
    · intro found s' _ hfound index hindex
      obtain ⟨⟨child, index⟩, hmem, rfl⟩ := hfound index hindex
      exact List.snd_lt_of_mem_zipIdx hmem
  -- it is the child that has the key, or one around the point, or the one that grows least
  unfold targetChild?
  refine .bind hholder fun found s' _ _ hfound => ?_
  split
  · next index => exact .pure hfound
  · refine .ite (fun _ => ?_) fun _ => .pure fun _ hnone => nomatch hnone
    split
    · next index hfind =>
        refine .pure ?_
        rintro _ ⟨⟩
        exact (List.findIdx?_eq_some_iff_getElem.1 hfind).1
    · obtain ⟨index, best, hbest, hlt⟩ := leastGrowing_spec point children hne
      rw [hbest]
      refine .pure ?_
      rintro _ ⟨⟩
      exact hlt

end Finding

/-! ## Rows of siblings -/

/-- References to pages are made in the order of the pages. -/
theorem refsOf_attains (pages : List LivePage) :
    Attains (refsOf pages) s fun refs s' => List.Forall₂ s'.Made pages refs :=
  .listMapM pages (fun _ _ _ _ hretains hmade => hmade.keep hretains.keeps)
    fun p _ _ _ => PageRef.ofPage_attains p

/-- The parts of a page take their place between some children. -/
theorem replace_attains (settings : Settings) (version : Nat) (as bs : List PageRef)
    (page : LivePage) :
    Attains (do return as ++ (← refsOf (split settings version page)) ++ bs) s fun row s' =>
      ∃ parts, Parts s' (reshaping settings version) page parts ∧ row = as ++ parts ++ bs :=
  .bind (refsOf_attains _) fun refs _ _ _ hmade => .pure ⟨refs, hmade, rfl⟩

/-- A rebuilt child is put back between its siblings. -/
theorem rebalanceChild_attains {as bs : List PageRef} {old child : PageRef}
    (hchild : child.id < s.cells.size)
    (hsiblings : ∀ sibling ∈ as ++ bs, sibling.id < s.cells.size) :
    Attains (rebalanceChild (as ++ old :: bs) as.length child version) s fun row s' =>
      Rebalanced s' (reshaping s.settings version) as child bs row := by
  unfold rebalanceChild
  refine .ite (fun hempty => .pure ?_) fun _ => ?_
  · rw [List.eraseIdx_append_of_length_le (Nat.le_refl _), Nat.sub_self, List.eraseIdx_cons_zero]
    exact .erased hempty
  refine .bind (PageRef.page_attains child) fun page s' _ hretains hpage => .get ?_
  replace hpage := hpage hchild
  rw [hretains.settings]
  refine .ite (fun hmerges => ?_) fun _ => .ite (fun _ => ?_) fun hfits => .pure ?_
  · have hmany : 1 < (as ++ old :: bs).length := by
      rw [Bool.and_eq_true, decide_eq_true_eq] at hmerges
      exact hmerges.1
    rcases BTree.sibling_cases hmany with
      ⟨as, sibling, rfl, rfl, hlast, hlo, hindex⟩ | ⟨sibling, bs, rfl, hinner, hindex⟩
    · -- the last child joins the one before it
      have htake : (as ++ [sibling] ++ [old]).take as.length = as := by simp
      have hdrop : (as ++ [sibling] ++ [old]).drop (as.length + 2) = [] := by simp
      simp only [if_pos hlast, hlo, hindex, htake, hdrop]
      have hsibling := hsiblings sibling (by simp)
      refine .bind (PageRef.page_attains sibling) fun last s'' _ hretains' hlast => ?_
      replace hlast := hlast (Nat.lt_of_lt_of_le hsibling hretains.cells)
      refine (replace_attains _ _ _ _ _).mono fun row s₃ hretains'' => ?_
      rintro ⟨parts, hmade, rfl⟩
      have hkeeps := hretains'.keeps.trans hretains''.keeps
      rw [List.append_nil]
      exact .joinedLast rfl rfl (hpage.keep hkeeps) (hlast.keep hretains''.keeps) hmade
    · -- any other child joins the one behind it
      have htake : (as ++ old :: sibling :: bs).take as.length = as := by simp
      have hdrop : (as ++ old :: sibling :: bs).drop (as.length + 2) = bs := by simp
      simp only [if_neg hinner, hindex, htake, hdrop]
      have hsibling := hsiblings sibling (by simp)
      refine .bind (PageRef.page_attains sibling) fun next s'' _ hretains' hnext => ?_
      replace hnext := hnext (Nat.lt_of_lt_of_le hsibling hretains.cells)
      refine (replace_attains _ _ _ _ _).mono fun row s₃ hretains'' => ?_
      rintro ⟨parts, hmade, rfl⟩
      have hkeeps := hretains'.keeps.trans hretains''.keeps
      exact .joined rfl (hpage.keep hkeeps) (hnext.keep hretains''.keeps) hmade
  · have htake : (as ++ old :: bs).take as.length = as := by simp
    have hdrop : (as ++ old :: bs).drop (as.length + 1) = bs := by simp
    rw [htake, hdrop]
    refine (replace_attains _ _ _ _ _).mono fun row s'' hretains' => ?_
    rintro ⟨parts, hmade, rfl⟩
    exact .cut (hpage.keep hretains'.keeps) hmade
  · rw [List.set_append_right _ _ (Nat.le_refl _), Nat.sub_self, List.set_cons_zero]
    exact .placed hpage (by simpa using hfits)

/-! ## Roots -/

/-- Levels of nodes above some references end with one root. -/
theorem growWithin_attains (levels : Nat) {children : List PageRef} (hne : children ≠ [])
    (hlevels : children.length ≤ levels) :
    Attains (growWithin version stem levels children) s fun grown s' =>
      ∃ root, grown = [root] ∧ Grown s' (reshaping s.settings version) children [root] := by
  induction levels generalizing s children with
  | zero => exact absurd (List.length_eq_zero_iff.1 (Nat.le_zero.1 hlevels)) hne
  | succ levels ih =>
      unfold growWithin
      refine .ite (fun hone => .pure ?_) fun hmany => .get ?_
      · obtain ⟨root, rfl⟩ : ∃ root, children = [root] :=
          List.length_eq_one_iff.1 (by have := List.length_pos_iff.2 hne; omega)
        exact ⟨root, rfl, .done _⟩
      · refine .bind (refsOf_attains _) fun refs s' _ hretains hmade => ?_
        have hfewer := length_splitWithin_le s.settings version children.length version stem
          children (by omega)
        have hlength := hmade.length_eq
        change (splitWithin s.settings version children.length _).length = _ at hlength
        have hrefs : refs ≠ [] := by
          rintro rfl
          exact splitWithin_ne_nil s.settings version children.length _
            (List.length_eq_zero_iff.1 hlength)
        -- each level has fewer references than the one below, so the levels suffice
        refine (ih hrefs (by omega)).mono fun grown s'' hretains' => ?_
        rw [hretains.settings]
        rintro ⟨root, rfl, hgrown⟩
        have hlevel : Grown s'' (reshaping s.settings version)
            (⟨version, stem, .qtreeNode children⟩ : LivePage).children [root] :=
          .level rfl (Parts.keep (c := reshaping s.settings version) hretains'.keeps hmade) hgrown
        exact ⟨root, rfl, hlevel⟩

theorem raised_attains {r : PageRef} (hallocated : r.id < s.cells.size) :
    Attains (raised r version) s fun root s' =>
      Raised s' (reshaping s.settings version) r root := by
  unfold raised
  refine .bind (PageRef.page_attains r) fun page s' _ hretains hpage => .get ?_
  replace hpage := hpage hallocated
  rw [hretains.settings]
  refine .ite (fun hoversized => ?_) fun hfits => .pure (.fits hpage (by simpa using hfits))
  refine .bind (refsOf_attains _) fun refs s'' _ hretains' hmade => ?_
  have hrefs : refs ≠ [] := by
    rintro rfl
    exact splitWithin_ne_nil s.settings version page.arity page
      (List.length_eq_zero_iff.1 hmade.length_eq)
  refine .bind (growWithin_attains refs.length hrefs (Nat.le_refl _)) ?_
  rintro grown s₃ - hretains'' ⟨root, rfl, hgrown⟩
  rw [hretains'.settings, hretains.settings] at hgrown
  have hkeeps := hretains'.keeps.trans hretains''.keeps
  exact .pure (.cut (hpage.keep hkeeps)
    (Parts.keep (c := reshaping s.settings version) hretains''.keeps hmade) hgrown)

/-- Nodes of a single child give way to it. -/
theorem collapseWithin_attains {R : Store → PageRef → Prop} (hwalk : Walkable R) (depth : Nat)
    {r : PageRef} (hr : R s r) :
    Attains (collapseWithin version depth r) s fun r' s' => Collapsed s' .qtree version r r' := by
  induction depth generalizing s r with
  | zero => exact .throw _
  | succ depth ih =>
      unfold collapseWithin
      refine .bind (PageRef.page_attains r) fun page s' hread hretains hpage => ?_
      replace hpage := hpage (hwalk.allocated s r hr)
      split
      · next child hbody =>
          have honly : page.children = [child] := by rw [Page.children_eq, hbody]; rfl
          have hchild := hwalk.child s r page s' hr hread child (by simp [honly])
          refine (ih hchild).mono fun r' s'' hretains' hcollapsed => ?_
          exact .through (hpage.keep hretains'.keeps) honly hcollapsed
      · next hbody =>
          refine (PageRef.ofPage_attains _).mono fun r' s'' hretains' hmade => ?_
          refine .emptied (hpage.keep hretains'.keeps) ?_ ?_ hmade
          · rw [Page.children_eq, hbody]; rfl
          · rw [Page.isNode, Page.kind, hbody]; rfl
      · exact .pure (.stays r)

end QTree
end PageTree
