import PageTree.Proofs.Balance.BTree
import PageTree.Proofs.Balance.QTree
import PageTree.Proofs.BTree.Shape
import PageTree.Proofs.QTree.Shape
import PageTree.Proofs.Text.Pages

/-!
# Changes leave compact pages

A change rebuilds the pages on the way to what it changes, and each of them is balanced when its
parent takes it back, or as the root.  So the invariant of a change under way is that beneath the
page that it has just rebuilt all pages are compact (`Store.Loose`); a row of siblings that takes
it back is compact throughout, and so is a balanced root (`Store.Packed`).
-/

namespace PageTree

open StoreM

variable {kind : TreeKind} {settings : Settings} {c : Reshaping kind settings} {s s' : Store}
  {r r' child : PageRef} {p : LivePage} {as bs row parts : List PageRef} {version : Nat}

/-- Memory holds all pages of a subtree, and they are compact. -/
inductive Store.Packed (s : Store) (kind : TreeKind) (settings : Settings) : PageRef → Prop where
  | intro {r : PageRef} {p : LivePage} (pins : s.Pins r p) (isKind : p.treeKind = kind)
      (size : r.pageSize = p.stored.size) (compact : p.Compact settings)
      (beneath : ∀ m ∈ p.children, Packed s kind settings m) : Packed s kind settings r

/-- Memory holds all pages of a subtree, and beneath its own page they are compact. -/
def Store.Loose (s : Store) (kind : TreeKind) (settings : Settings) (r : PageRef) : Prop :=
  ∃ p, s.Pins r p ∧ p.treeKind = kind ∧ r.pageSize = p.stored.size ∧
    ∀ m ∈ p.children, s.Packed kind settings m

namespace Store.Packed

/-- A compact page that is made over compact ones. -/
theorem of_made (hmade : s.Made p r) (hkind : p.treeKind = kind) (hcompact : p.Compact settings)
    (hbeneath : ∀ m ∈ p.children, s.Packed kind settings m) : s.Packed kind settings r :=
  .intro hmade.pins hkind (congrArg Header.size hmade.header) hcompact hbeneath

theorem keep (hkeeps : s.Keeps s') (hpacked : s.Packed kind settings r) :
    s'.Packed kind settings r := by
  induction hpacked with
  | intro pins isKind size compact _ ih => exact .intro (pins.keep hkeeps) isKind size compact ih

theorem loose (hpacked : s.Packed kind settings r) : s.Loose kind settings r := by
  obtain ⟨hp, hkind, hsize, -, hbeneath⟩ := hpacked
  exact ⟨_, hp, hkind, hsize, hbeneath⟩

theorem children (hpacked : s.Packed kind settings r) (hp : s.Pins r p) :
    ∀ m ∈ p.children, s.Packed kind settings m := by
  obtain ⟨hq, -, -, -, hbeneath⟩ := hpacked
  obtain rfl := hp.unique hq
  exact hbeneath

theorem beneath {m : PageRef} (hpacked : s.Packed kind settings r) (hbeneath : s.Beneath r m) :
    s.Packed kind settings m := by
  induction hbeneath with
  | root => exact hpacked
  | child _ hp hk ih => exact ih.children hp _ hk

end Store.Packed

namespace Store.Loose

theorem keep (hkeeps : s.Keeps s') (hloose : s.Loose kind settings r) :
    s'.Loose kind settings r := by
  obtain ⟨p, hp, hkind, hsize, hbeneath⟩ := hloose
  exact ⟨p, hp.keep hkeeps, hkind, hsize, fun m hm => (hbeneath m hm).keep hkeeps⟩

theorem allocated (hloose : s.Loose kind settings r) : r.id < s.cells.size := by
  obtain ⟨p, hp, -⟩ := hloose
  exact hp.allocated

theorem children (hloose : s.Loose kind settings r) (hp : s.Has r p) :
    p.treeKind = kind ∧ r.pageSize = p.stored.size ∧
      ∀ m ∈ p.children, s.Packed kind settings m := by
  obtain ⟨q, hq, hkind, hsize, hbeneath⟩ := hloose
  obtain rfl := hp.unique hq.has
  exact ⟨hkind, hsize, hbeneath⟩

/-- A page that is made over compact ones is loose. -/
theorem of_made (hmade : s.Made p r) (hkind : p.treeKind = kind)
    (hbeneath : ∀ m ∈ p.children, s.Packed kind settings m) : s.Loose kind settings r :=
  ⟨p, hmade.pins, hkind, congrArg Header.size hmade.header, hbeneath⟩

/-- If its page is not too large, all is compact. -/
theorem packed (hloose : s.Loose kind settings r) (hp : s.Has r p)
    (hfits : p.isOversized settings r.pageSize = false) : s.Packed kind settings r := by
  obtain ⟨q, hq, hkind, hsize, hbeneath⟩ := hloose
  obtain rfl := hp.unique hq.has
  exact .intro hq hkind hsize (Page.compact_of_fits hsize hfits) hbeneath

/-- A reference that is the same as another has the page of the other. -/
theorem packed_of_same (hloose : s.Loose kind settings r) (hpacked : s.Packed kind settings r')
    (hsame : r.same r' = true) : s.Packed kind settings r := by
  obtain ⟨p, hp, hkind, hsize, hbeneath⟩ := hloose
  obtain ⟨hq, -, -, hcompact, -⟩ := hpacked
  have hid : s.hold r = s.hold r' := (s.hold_eq_of_id (beq_iff_eq.1 hsame).symm).symm
  rw [Store.Pins, ← hid] at hq
  obtain rfl := hp.unique hq
  exact .intro hp hkind hsize hcompact hbeneath

end Store.Loose

theorem walkable_packed (kind : TreeKind) (settings : Settings) :
    Walkable fun s r => s.Packed kind settings r where
  allocated s r hpacked := hpacked.loose.allocated
  child s r page s' hpacked hread m hm := by
    obtain ⟨p, hp, -⟩ := hpacked.loose
    obtain ⟨hretains, rfl, -⟩ := PageRef.page_attains_of_pins hp page s' hread
    exact (hpacked.children hp m hm).keep hretains.keeps

/-! ## Balancing packs -/

theorem Parts.packed (hparts : Parts s c p parts) (hkind : p.treeKind = kind)
    (hbeneath : ∀ m ∈ p.children, s.Packed kind settings m) :
    ∀ part ∈ parts, s.Packed kind settings part := by
  intro part hpart
  obtain ⟨q, hq, hmade⟩ := exists_of_forall₂_right hparts hpart
  refine .of_made hmade (c.cut_kind p hkind q hq) (c.cut_compact p hkind q hq) fun m hm => ?_
  exact hbeneath m ((c.cut_alike p).perm.subset (List.mem_flatMap_of_mem hq hm))

/-- A row that takes back a rebuilt child is compact throughout. -/
theorem Rebalanced.packed (hrow : Rebalanced s c as child bs row)
    (hsiblings : ∀ m ∈ as ++ bs, s.Packed kind settings m)
    (hchild : s.Loose kind settings child) : ∀ m ∈ row, s.Packed kind settings m := by
  -- a page that siblings join to has their children, and is cut again if it is too large
  have hjoined : ∀ isLast {p q : LivePage} {m m' : PageRef} {parts : List PageRef},
      s.Has m p → s.Has m' q → s.Loose kind settings m → s.Loose kind settings m' →
      Parts s c (c.join isLast p q) parts → ∀ part ∈ parts, s.Packed kind settings part := by
    intro isLast p q m m' parts hp hq hm hm' hparts
    obtain ⟨hkind, -, hbeneath⟩ := hm.children hp
    obtain ⟨hkind', -, hbeneath'⟩ := hm'.children hq
    refine hparts.packed (c.join_kind isLast p q hkind hkind') fun k hk => ?_
    exact (List.mem_append.1 (c.join_subset isLast p q hk)).elim (hbeneath k) (hbeneath' k)
  rw [List.forall_mem_append] at hsiblings
  obtain ⟨has, hbs⟩ := hsiblings
  cases hrow with
  | erased empty => exact List.forall_mem_append.2 ⟨has, hbs⟩
  | placed hp fits =>
      refine List.forall_mem_append.2 ⟨has, List.forall_mem_cons.2 ⟨hchild.packed hp fits, hbs⟩⟩
  | cut hp made =>
      obtain ⟨hkind, -, hbeneath⟩ := hchild.children hp
      exact List.forall_mem_append.2
        ⟨List.forall_mem_append.2 ⟨has, made.packed hkind hbeneath⟩, hbs⟩
  | joined behind hp hq made =>
      subst behind
      rw [List.forall_mem_cons] at hbs
      have hparts := hjoined false hp hq hchild hbs.1.loose made
      exact List.forall_mem_append.2 ⟨List.forall_mem_append.2 ⟨has, hparts⟩, hbs.2⟩
  | joinedLast before behind hp hq made =>
      subst before
      rw [List.forall_mem_append, List.forall_mem_singleton] at has
      exact List.forall_mem_append.2 ⟨has.1, hjoined true hq hp has.2.loose hchild made⟩

theorem Grown.packed {top : List PageRef} (hgrown : Grown s c row top)
    (hrow : ∀ m ∈ row, s.Packed kind settings m) : ∀ m ∈ top, s.Packed kind settings m := by
  induction hgrown with
  | done row => exact hrow
  | level isNode made _ ih => exact ih (made.packed isNode hrow)

/-- A root is compact once it has grown. -/
theorem Raised.packed (hraised : Raised s c r r') (hroot : s.Loose kind settings r) :
    s.Packed kind settings r' := by
  cases hraised with
  | fits hp fits => exact hroot.packed hp fits
  | cut hp made grown =>
      obtain ⟨hkind, -, hbeneath⟩ := hroot.children hp
      exact grown.packed (made.packed hkind hbeneath) r' (List.mem_singleton_self r')

theorem packed_empty {stem : Nat} (hmade : s.Made (.empty kind stem version) r) :
    s.Packed kind settings r := by
  have hchildren : (Page.empty kind stem version : LivePage).children = [] := by
    cases kind <;> rfl
  have hfew : (Page.empty kind stem version : LivePage).arity ≤ 0 := by
    cases kind <;> exact Nat.le_refl 0
  refine .of_made hmade ?_ (Or.inr (Nat.le_trans hfew (Nat.zero_le _))) ?_
  · cases kind <;> rfl
  · rw [hchildren]
    exact fun m hm => absurd hm List.not_mem_nil

theorem Collapsed.packed (hcollapsed : Collapsed s kind version r r')
    (hroot : s.Packed kind settings r) : s.Packed kind settings r' := by
  induction hcollapsed with
  | stays r => exact hroot
  | through hp only _ ih =>
      obtain ⟨-, -, hbeneath⟩ := hroot.loose.children hp
      exact ih (hbeneath _ (by rw [only]; exact List.mem_singleton_self _))
  | emptied _ _ _ made => exact packed_empty made

/-! ## Whole trees -/

/-- A balanced root takes the place of the root of a tree. -/
theorem Tree.withRoot_attains {t : Tree} (ht : s.Packed kind settings t.root)
    (hr : s.Packed kind settings r) (version : Nat) :
    Attains (do return t.withRoot (← r.evacuated 0 version)) s fun t' s' =>
      s'.Packed kind settings t'.root := by
  refine .bind (PageRef.evacuated_zero_attains r version) ?_
  rintro _ s' - hretains rfl
  refine .pure ?_
  unfold Tree.withRoot
  split
  · exact ht.keep hretains.keeps
  · exact hr.keep hretains.keeps

theorem Tree.cleared_attains {t : Tree} (ht : s.Packed t.kind settings t.root) (version : Nat) :
    Attains (t.cleared version) s fun t' s' => s'.Packed t.kind settings t'.root := by
  have hlook : Attains t.root.softPage? s fun _ s' => s' = s :=
    .of_exec rfl (.refl s) fun _ _ => rfl
  unfold Tree.cleared
  refine .bind hlook ?_
  rintro found _ - - rfl
  refine .ite (fun _ => .pure ht) fun _ => ?_
  refine .bind (PageRef.ofPage_attains _) fun r s' _ hretains hmade => .pure ?_
  unfold Tree.withRoot
  split
  · exact ht.keep hretains.keeps
  · exact packed_empty hmade

/-! ## B-trees -/

theorem Bisection.narrowWithin_le {α : Type} (isPast : α → Bool) (halvings : Nat)
    (items : List α) : narrowWithin isPast halvings items ≤ items.length - 1 := by
  induction halvings generalizing items with
  | zero => exact Nat.zero_le _
  | succ halvings ih =>
      unfold narrowWithin
      dsimp only
      split
      · exact Nat.zero_le _
      · split
        · have hle := ih (items.take (items.length - items.length / 2))
          rw [List.length_take] at hle
          omega
        · have hle := ih (items.drop (items.length / 2))
          rw [List.length_drop] at hle
          omega

/-- An item of a list, between those before and those behind it. -/
theorem exists_append_of_lt {α : Type} {items : List α} {index : Nat}
    (hlt : index < items.length) (default : α) :
    ∃ as bs, items = as ++ items.getD index default :: bs ∧ index = as.length := by
  refine ⟨items.take index, items.drop (index + 1), ?_, ?_⟩
  · rw [List.getD_eq_getElem?_getD, List.getElem?_eq_getElem hlt, Option.getD_some,
      List.cons_getElem_drop_succ, List.take_append_drop]
  · rw [List.length_take, Nat.min_eq_left (Nat.le_of_lt hlt)]

namespace BTree

/-- A key always leads to some child. -/
theorem childIndex_lt {children : List (Value × PageRef)} (hne : children ≠ []) (key : Value) :
    childIndex children key < children.length := by
  have hpos := List.length_pos_iff.2 hne
  have hle := Bisection.narrowWithin_le (fun item : Value × PageRef =>
    !(Value.compare item.1 key != .gt)) children.length children
  unfold childIndex Entries.upTo Bisection.boundary Bisection.narrow
  dsimp only
  split <;> omega

variable {stem depth : Nat} {key value : Value}

theorem newLeaf_attains (settings : Settings) (version stem : Nat) (slots : List Entry) :
    Attains (newLeaf version stem slots) s fun r s' => s'.Loose .btree settings r :=
  (PageRef.ofPage_attains _).mono fun _ _ _ hmade =>
    .of_made hmade rfl fun _ hm => absurd hm List.not_mem_nil

theorem newNode_attains (version stem : Nat) {children : List (Value × PageRef)}
    (hrow : ∀ m ∈ children.map Prod.snd, s.Packed .btree settings m) :
    Attains (newNode version stem children) s fun r s' => s'.Loose .btree settings r :=
  (PageRef.ofPage_attains _).mono fun _ _ hretains hmade =>
    .of_made hmade rfl fun m hm => (hrow m hm).keep hretains.keeps

/-- A node takes back a rebuilt child. -/
theorem rebuiltNode_attains (hsettings : s.settings = settings) {as bs : List (Value × PageRef)}
    {old : Value × PageRef}
    (hsiblings : ∀ sibling ∈ as ++ bs, s.Packed .btree settings sibling.2)
    (hchild : s.Loose .btree settings child) :
    Attains (do newNode version stem (← rebalanceChild (as ++ old :: bs) as.length child version)) s
      fun r s' => s'.Loose .btree settings r := by
  subst hsettings
  refine .bind (rebalanceChild_attains hchild.allocated fun sibling hsibling =>
    (hsiblings sibling hsibling).loose.allocated) fun row s' _ hretains hrow => ?_
  refine newNode_attains version stem (hrow.packed ?_ (hchild.keep hretains.keeps))
  rw [← List.map_append]
  exact List.forall_mem_map.2 fun sibling hsibling =>
    (hsiblings sibling hsibling).keep hretains.keeps

/-- The same of the first child. -/
theorem rebuiltFirst_attains (hsettings : s.settings = settings) {bs : List (Value × PageRef)}
    {old : Value × PageRef} (hsiblings : ∀ sibling ∈ bs, s.Packed .btree settings sibling.2)
    (hchild : s.Loose .btree settings child) :
    Attains (do newNode version stem (← rebalanceChild (old :: bs) 0 child version)) s
      fun r s' => s'.Loose .btree settings r := by
  have hothers : ∀ sibling ∈ [] ++ bs, s.Packed .btree settings sibling.2 := hsiblings
  have hnode : Attains (do
      newNode version stem (← rebalanceChild ([] ++ old :: bs) ([] : List (Value × PageRef)).length
        child version)) s fun r s' => s'.Loose .btree settings r :=
    rebuiltNode_attains hsettings hothers hchild
  exact hnode

/-- The children of a packed node are packed. -/
theorem packed_children {children : List (Value × PageRef)} (hr : s.Packed .btree settings r)
    (hp : s.Pins r p) (hbody : p.body = .btreeNode children) :
    ∀ child ∈ children, s.Packed .btree settings child.2 := by
  intro child hchild
  refine hr.children hp child.2 ?_
  rw [Page.children_eq, hbody]
  exact List.mem_map_of_mem hchild

/-- Beneath the root that an update gives, all is compact. -/
theorem updatedWithin_attains (hsettings : s.settings = settings)
    (hr : s.Packed .btree settings r) :
    Attains (updatedWithin key value version depth r) s fun r' s' =>
      s'.Loose .btree settings r' := by
  induction depth generalizing s r with
  | zero => exact .throw _
  | succ depth ih =>
      obtain ⟨p, hp, -⟩ := hr.loose
      unfold updatedWithin
      refine .bind (PageRef.page_attains_of_pins hp) ?_
      rintro _ s' - hretains ⟨rfl, hp'⟩
      replace hr := hr.keep hretains.keeps
      replace hsettings := hretains.settings.trans hsettings
      split
      · exact .ite (fun _ => .pure hr.loose) fun _ => newLeaf_attains _ _ _ _
      · next first rest hbody =>
          have hmem := packed_children hr hp' hbody
          obtain ⟨as, bs, hchildren, hlength⟩ :=
            exists_append_of_lt (childIndex_lt (List.cons_ne_nil first rest) key) first
          dsimp only
          generalize (first :: rest).getD (childIndex (first :: rest) key) first = old at *
          rw [hlength, hchildren]
          rw [hchildren] at hmem
          refine .bind (ih hsettings (hmem old (by simp))) fun rebuilt s'' _ hretains' hloose => ?_
          refine .ite (fun _ => .pure (hr.keep hretains'.keeps).loose) fun _ => ?_
          refine rebuiltNode_attains (hretains'.settings.trans hsettings)
            (fun sibling hsibling => (hmem sibling ?_).keep hretains'.keeps) hloose
          simp only [List.mem_append, List.mem_cons] at hsibling ⊢
          exact hsibling.imp_right .inr
      · exact .ite (fun _ => newLeaf_attains _ _ _ _) fun _ => .pure hr.loose

theorem ofPage_empty_attains (settings : Settings) (version stem : Nat) :
    Attains (PageRef.ofPage (.empty .btree stem version) .absent) s fun r s' =>
      s'.Loose .btree settings r :=
  (PageRef.ofPage_attains _).mono fun _ _ _ hmade => (packed_empty hmade).loose

theorem droppedWithin_attains (lower : Nat) (hsettings : s.settings = settings)
    (hr : s.Packed .btree settings r) :
    Attains (droppedWithin version depth r lower) s fun r' s' => s'.Loose .btree settings r' := by
  induction depth generalizing s r lower with
  | zero => exact .throw _
  | succ depth ih =>
      obtain ⟨p, hp, -⟩ := hr.loose
      unfold droppedWithin
      refine .ite (fun _ => .pure hr.loose) fun _ => .ite (fun _ => ?_) fun _ => ?_
      · exact ofPage_empty_attains _ _ _
      refine .bind (PageRef.page_attains_of_pins hp) ?_
      rintro _ s' - hretains ⟨rfl, hp'⟩
      replace hr := hr.keep hretains.keeps
      replace hsettings := hretains.settings.trans hsettings
      split
      · exact newLeaf_attains _ _ _ _
      · next children hbody =>
          have hmem := packed_children hr hp' hbody
          rw [← cut_append children lower] at hmem
          generalize cut children lower = parts at *
          obtain ⟨before, rest, remaining⟩ := parts
          dsimp only at hmem ⊢
          have hrest := (List.forall_mem_append.1 hmem).2
          split
          · next child rest =>
              refine .ite (fun _ => ?_) fun _ => ?_
              · exact newNode_attains _ _ (List.forall_mem_map.2 hrest)
              · refine .bind (ih remaining hsettings (hrest _ List.mem_cons_self))
                  fun rebuilt s'' _ hretains' hloose => ?_
                refine rebuiltFirst_attains (hretains'.settings.trans hsettings)
                  (fun sibling hsibling => ?_) hloose
                exact (hrest sibling (List.mem_cons_of_mem _ hsibling)).keep hretains'.keeps
          · exact newNode_attains _ _ fun _ hm => absurd hm List.not_mem_nil
      · exact .pure hr.loose

theorem takenWithin_attains (upper : Nat) (hsettings : s.settings = settings)
    (hr : s.Packed .btree settings r) :
    Attains (takenWithin version depth r upper) s fun r' s' => s'.Loose .btree settings r' := by
  induction depth generalizing s r upper with
  | zero => exact .throw _
  | succ depth ih =>
      obtain ⟨p, hp, -⟩ := hr.loose
      unfold takenWithin
      refine .ite (fun _ => .pure hr.loose) fun _ => .ite (fun _ => ?_) fun _ => ?_
      · exact ofPage_empty_attains _ _ _
      refine .bind (PageRef.page_attains_of_pins hp) ?_
      rintro _ s' - hretains ⟨rfl, hp'⟩
      replace hr := hr.keep hretains.keeps
      replace hsettings := hretains.settings.trans hsettings
      split
      · exact newLeaf_attains _ _ _ _
      · next children hbody =>
          have hmem := packed_children hr hp' hbody
          rw [← cut_append children upper] at hmem
          generalize cut children upper = parts at *
          obtain ⟨kept, rest, remaining⟩ := parts
          dsimp only at hmem ⊢
          obtain ⟨hkept, hrest⟩ := List.forall_mem_append.1 hmem
          split
          · next child rest =>
              refine .ite (fun _ => ?_) fun _ => ?_
              · exact newNode_attains _ _ (List.forall_mem_map.2 hkept)
              · refine .bind (ih remaining hsettings (hrest _ List.mem_cons_self))
                  fun rebuilt s'' _ hretains' hloose => ?_
                refine rebuiltNode_attains (hretains'.settings.trans hsettings)
                  (fun sibling hsibling => ?_) hloose
                rw [List.append_nil] at hsibling
                exact (hkept sibling hsibling).keep hretains'.keeps
          · exact newNode_attains _ _ (List.forall_mem_map.2 hkept)
      · exact .pure hr.loose

/-- A balanced root is compact. -/
theorem balanced_attains (hsettings : s.settings = settings) (hr : s.Loose .btree settings r) :
    Attains (balanced r version) s fun r' s' => s'.Packed .btree settings r' := by
  subst hsettings
  rw [balanced_eq]
  refine .bind (raised_attains hr.allocated) fun root s' _ hretains hraised => .get ?_
  have hroot := hraised.packed (hr.keep hretains.keeps)
  refine (collapseWithin_attains (walkable_packed _ _) _ hroot).mono ?_
  exact fun r' s'' hretains' hcollapsed => hcollapsed.packed (hroot.keep hretains'.keeps)

theorem rebalanced_attains {t : Tree} (hsettings : s.settings = settings)
    (ht : s.Packed .btree settings t.root) (hr : s.Loose .btree settings r) :
    Attains (rebalanced t r version 0) s fun t' s' => s'.Packed .btree settings t'.root := by
  unfold rebalanced
  refine .ite (fun _ => .pure ht) fun _ => ?_
  refine .bind (balanced_attains hsettings hr) fun root s' _ hretains hroot => ?_
  exact Tree.withRoot_attains (ht.keep hretains.keeps) hroot version

/-- A change leaves compact pages. -/
theorem Change.apply_attains {t : Tree} (hkind : t.kind = .btree)
    (hsettings : s.settings = settings) (ht : s.Packed .btree settings t.root) (change : Change)
    (version : Nat) :
    Attains (change.apply t version 0) s fun t' s' => s'.Packed .btree settings t'.root := by
  have hrebalanced : ∀ {act : StoreM PageRef},
      Attains act s (fun r s' => s'.Loose .btree settings r) →
      Attains (do rebalanced t (← act) version 0) s fun t' s' =>
        s'.Packed .btree settings t'.root :=
    fun hact => .bind hact fun r s' _ hretains hr =>
      rebalanced_attains (hretains.settings.trans hsettings) (ht.keep hretains.keeps) hr
  cases change with
  | update key value => exact hrebalanced (.get (updatedWithin_attains hsettings ht))
  | remove key => exact hrebalanced (.get (updatedWithin_attains hsettings ht))
  | drop lower => exact hrebalanced (.get (droppedWithin_attains lower hsettings ht))
  | take upper => exact hrebalanced (.get (takenWithin_attains upper hsettings ht))
  | clear =>
      rw [← hkind] at ht ⊢
      exact Tree.cleared_attains ht version

end BTree

/-! ## Q-trees -/

namespace QTree

variable {stem depth : Nat} {key value : Value} {point : Point}

theorem newLeaf_attains (settings : Settings) (version stem : Nat) (slots : List Slot) :
    Attains (newLeaf version stem slots) s fun r s' => s'.Loose .qtree settings r :=
  (PageRef.ofPage_attains _).mono fun _ _ _ hmade =>
    .of_made hmade rfl fun _ hm => absurd hm List.not_mem_nil

/-- A node takes back a rebuilt child. -/
theorem rebuiltNode_attains (hsettings : s.settings = settings) {as bs : List PageRef}
    {old : PageRef} (hsiblings : ∀ sibling ∈ as ++ bs, s.Packed .qtree settings sibling)
    (hchild : s.Loose .qtree settings child) :
    Attains (do newNode version stem (← rebalanceChild (as ++ old :: bs) as.length child version)) s
      fun r s' => s'.Loose .qtree settings r := by
  subst hsettings
  refine .bind (rebalanceChild_attains hchild.allocated fun sibling hsibling =>
    (hsiblings sibling hsibling).loose.allocated) fun row s' _ hretains hrow => ?_
  have hpacked := hrow.packed (fun m hm => (hsiblings m hm).keep hretains.keeps)
    (hchild.keep hretains.keeps)
  exact (PageRef.ofPage_attains _).mono fun _ _ hretains' hmade =>
    .of_made hmade rfl fun m hm => (hpacked m hm).keep hretains'.keeps

/-- Beneath the root that an update gives, all is compact. -/
theorem updatedWithin_attains (hsettings : s.settings = settings)
    (hr : s.Packed .qtree settings r) :
    Attains (updatedWithin key point value version depth r) s fun r' s' =>
      s'.Loose .qtree settings r' := by
  induction depth generalizing s r with
  | zero => exact .throw _
  | succ depth ih =>
      obtain ⟨p, hp, -⟩ := hr.loose
      unfold updatedWithin
      refine .bind (PageRef.page_attains_of_pins hp) ?_
      rintro _ s' - hretains ⟨rfl, hp'⟩
      replace hr := hr.keep hretains.keeps
      replace hsettings := hretains.settings.trans hsettings
      split
      · split
        · exact newLeaf_attains _ _ _ _
        · exact .pure hr.loose
      · next first rest hbody =>
          refine .bind (targetChild_attains (List.cons_ne_nil first rest) _) ?_
          rintro found s'' - hretains' hlt
          replace hr := hr.keep hretains'.keeps
          replace hsettings := hretains'.settings.trans hsettings
          have hmem := hr.children (hp'.keep hretains'.keeps)
          rw [Page.children_eq, hbody, PageBody.children] at hmem
          split
          · exact .pure hr.loose
          · next index =>
              obtain ⟨as, bs, hchildren, hlength⟩ := exists_append_of_lt (hlt index rfl) first
              dsimp only
              generalize (first :: rest).getD index first = old at *
              rw [hlength, hchildren]
              rw [hchildren] at hmem
              refine .bind (ih hsettings (hmem old (by simp))) ?_
              intro rebuilt s₃ _ hretains'' hloose
              refine .ite (fun _ => .pure (hr.keep hretains''.keeps).loose) fun _ => ?_
              refine rebuiltNode_attains (hretains''.settings.trans hsettings)
                (fun sibling hsibling => (hmem sibling ?_).keep hretains''.keeps) hloose
              simp only [List.mem_append, List.mem_cons] at hsibling ⊢
              exact hsibling.imp_right .inr
      · exact .ite (fun _ => newLeaf_attains _ _ _ _) fun _ => .pure hr.loose

theorem updated_attains (hsettings : s.settings = settings) (hr : s.Packed .qtree settings r) :
    Attains (updated r key point value version) s fun r' s' => s'.Loose .qtree settings r' :=
  .get (updatedWithin_attains hsettings hr)

/-- A balanced root is compact. -/
theorem balanced_attains (hsettings : s.settings = settings) (hr : s.Loose .qtree settings r) :
    Attains (balanced r version) s fun r' s' => s'.Packed .qtree settings r' := by
  subst hsettings
  rw [balanced_eq]
  refine .bind (raised_attains hr.allocated) fun root s' _ hretains hraised => .get ?_
  have hroot := hraised.packed (hr.keep hretains.keeps)
  refine (collapseWithin_attains (walkable_packed _ _) _ hroot).mono ?_
  exact fun r' s'' hretains' hcollapsed => hcollapsed.packed (hroot.keep hretains'.keeps)

theorem pointAt_attains (x y : Nat) : Attains (pointAt x y) s fun _ _ => True := by
  unfold pointAt
  split
  · exact .pure trivial
  · exact .throw _

section Trees

variable {t : Tree} (hsettings : s.settings = settings) (ht : s.Packed .qtree settings t.root)
include hsettings ht

theorem rebalanced_attains (hr : s.Loose .qtree settings r) :
    Attains (rebalanced t r version 0) s fun t' s' => s'.Packed .qtree settings t'.root := by
  unfold rebalanced
  refine .ite (fun _ => .pure ht) fun _ => ?_
  refine .bind (balanced_attains hsettings hr) fun root s' _ hretains hroot => ?_
  exact Tree.withRoot_attains (ht.keep hretains.keeps) hroot version

theorem rebalanced_updated_attains (key : Value) (point : Point) (value : Value) (version : Nat) :
    Attains (do rebalanced t (← updated t.root key point value version) version 0) s fun t' s' =>
      s'.Packed .qtree settings t'.root :=
  .bind (updated_attains hsettings ht) fun _ _ _ hretains hr =>
    rebalanced_attains (hretains.settings.trans hsettings) (ht.keep hretains.keeps) hr

/-- What is taken away at the old point is balanced before the new point is changed. -/
theorem relocate_attains (key : Value) (old new : Point) (value : Value) (version : Nat) :
    Attains (relocate t key old new value version 0) s fun t' s' =>
      s'.Packed .qtree settings t'.root := by
  unfold relocate
  refine .bind (updated_attains hsettings ht) fun removed s' _ hretains hremoved => ?_
  replace ht := ht.keep hretains.keeps
  replace hsettings := hretains.settings.trans hsettings
  have hput : ∀ {removed : PageRef} {s'' : Store}, s'.Retains s'' →
      s''.Packed .qtree settings removed →
      Attains (do rebalanced t (← updated removed key new value version) version 0) s''
        fun t' s' => s'.Packed .qtree settings t'.root := by
    intro removed s'' hretains' hremoved
    have hsettings' := hretains'.settings.trans hsettings
    exact .bind (updated_attains hsettings' hremoved) fun r s₃ _ hretains'' hr =>
      rebalanced_attains (hretains''.settings.trans hsettings')
        (ht.keep (hretains'.keeps.trans hretains''.keeps)) hr
  refine .ite (fun hsame => ?_) fun _ => ?_
  · rw [pure_bind]
    exact hput (.refl s') (hremoved.packed_of_same ht hsame)
  · exact .bind (balanced_attains hsettings hremoved) fun removed s'' _ hretains' hpacked =>
      hput hretains' hpacked

theorem update_attains (key : Value) (x y : Nat) (value : Value) (version : Nat) :
    Attains (update t key x y value version 0) s fun t' s' =>
      s'.Packed .qtree settings t'.root := by
  unfold update
  refine .bind (pointAt_attains x y) fun point s' _ hretains _ => ?_
  replace ht := ht.keep hretains.keeps
  replace hsettings := hretains.settings.trans hsettings
  have hput : ∀ {s'' : Store}, s'.Retains s'' →
      Attains (do rebalanced t (← updated t.root key point value version) version 0) s''
        fun t' s' => s'.Packed .qtree settings t'.root :=
    fun hretains' => rebalanced_updated_attains (hretains'.settings.trans hsettings)
      (ht.keep hretains'.keeps) _ _ _ _
  refine .ite (fun _ => ?_) fun _ => ?_
  · refine .bind (find_attains t.root) fun found s'' _ hretains' _ => ?_
    split
    · rw [pure_bind]
      exact hput hretains'
    · refine .bind (locate_attains t.root) fun elsewhere s₃ _ hretains'' _ => ?_
      have hsince := hretains'.trans hretains''
      cases elsewhere with
      | some slot =>
          exact relocate_attains (hsince.settings.trans hsettings) (ht.keep hsince.keeps) _ _ _ _ _
      | none => exact hput hsince
  · rw [pure_bind]
    exact hput (.refl s')

theorem move_attains (key : Value) (oldX oldY newX newY : Nat) (value : Value) (version : Nat) :
    Attains (move t key oldX oldY newX newY value version 0) s fun t' s' =>
      s'.Packed .qtree settings t'.root := by
  unfold move
  refine .bind (pointAt_attains oldX oldY) fun old s' _ hretains _ => ?_
  refine .bind (pointAt_attains newX newY) fun new s'' _ hretains' _ => ?_
  replace hretains := hretains.trans hretains'
  have hput : ∀ {s₃ : Store} (isThere : Bool), s.Retains s₃ →
      Attains (if isThere then relocate t key old new value version 0
        else update t key newX newY value version 0) s₃
        fun t' s' => s'.Packed .qtree settings t'.root := by
    intro s₃ isThere hretains
    have hsettings' := hretains.settings.trans hsettings
    exact .ite (fun _ => relocate_attains hsettings' (ht.keep hretains.keeps) _ _ _ _ _) fun _ =>
      update_attains hsettings' (ht.keep hretains.keeps) _ _ _ _ _
  refine .ite (fun _ => ?_) fun _ => ?_
  · rw [pure_bind]
    exact hput false hretains
  · refine .bind (find_attains t.root) fun found s₃ _ hretains'' _ => ?_
    rw [pure_bind]
    exact hput _ (hretains.trans hretains'')

end Trees

/-- A change leaves compact pages. -/
theorem Change.apply_attains {t : Tree} (hkind : t.kind = .qtree)
    (hsettings : s.settings = settings) (ht : s.Packed .qtree settings t.root) (change : Change)
    (version : Nat) :
    Attains (change.apply t version 0) s fun t' s' => s'.Packed .qtree settings t'.root := by
  cases change with
  | update key x y value => exact update_attains hsettings ht key x y value version
  | remove key x y =>
      refine .bind (pointAt_attains x y) fun point s' _ hretains _ => ?_
      exact rebalanced_updated_attains (hretains.settings.trans hsettings)
        (ht.keep hretains.keeps) key point .absent version
  | move key oldX oldY newX newY value =>
      exact move_attains hsettings ht key oldX oldY newX newY value version
  | clear =>
      rw [← hkind] at ht ⊢
      exact Tree.cleared_attains ht version

end QTree

/-! ## Runs of changes -/

/-- Memory holds all pages of a tree, and each of them encodes to no more bytes than pages may have,
unless it is a leaf of a single slot or a node of no more than three children. -/
def Tree.Compact (settings : Settings) (s : Store) (t : Tree) : Prop :=
  ∀ m, s.Beneath t.root m → ∃ p, s.Pins m p ∧
    (p.stored.toText.utf8ByteSize ≤ settings.pageSplitSize ∨ p.arity ≤ if p.isNode then 3 else 1)

theorem Store.Packed.compact {t : Tree} (hpacked : s.Packed kind settings t.root) :
    t.Compact settings s := by
  intro m hbeneath
  obtain ⟨hp, -, -, hcompact, -⟩ := hpacked.beneath hbeneath
  refine ⟨_, hp, ?_⟩
  rw [Page.toText, Text.utf8ByteSize_ofList]
  exact hcompact

theorem Tree.empty_attains (settings : Settings) (seed : Seed) :
    Attains (Tree.empty seed) s fun t s' => s'.Packed seed.kind settings t.root :=
  .bind (PageRef.ofPage_attains _) fun _ _ _ _ hmade => .pure (packed_empty hmade)

theorem BTree.applyAll_compact {t : Tree} {es : List Entry} (hsettings : s.settings = settings)
    (hsettled : BTree.Settled s t es) (ht : s.Packed .btree settings t.root)
    (changes : List (Nat × BTree.Change)) :
    ∃ t' s', exec (BTree.applyAll t changes) s = (.ok t', s') ∧ t'.Compact settings s' := by
  induction changes generalizing s t es with
  | nil => exact ⟨t, s, rfl, ht.compact⟩
  | cons change changes ih =>
      obtain ⟨t', s', hexec, -, hsettled'⟩ := hsettled.change_succeeds change.2 change.1 0
      obtain ⟨hretains, ht'⟩ :=
        BTree.Change.apply_attains hsettled.kind hsettings ht change.2 change.1 t' s' hexec
      obtain ⟨t'', s'', hexec', hcompact⟩ := ih (hretains.settings.trans hsettings) hsettled' ht'
      refine ⟨t'', s'', ?_, hcompact⟩
      rw [BTree.applyAll, List.foldlM_cons, exec_bind, hexec]
      exact hexec'

theorem QTree.applyAll_compact {t : Tree} {f : Plane} (hsettings : s.settings = settings)
    (hsettled : QTree.Settled s t f) (ht : s.Packed .qtree settings t.root)
    (changes : List (Nat × QTree.Change)) (hfits : ∀ change ∈ changes, change.2.Fits) :
    ∃ t' s', exec (QTree.applyAll t changes) s = (.ok t', s') ∧ t'.Compact settings s' := by
  induction changes generalizing s t f with
  | nil => exact ⟨t, s, rfl, ht.compact⟩
  | cons change changes ih =>
      rw [List.forall_mem_cons] at hfits
      obtain ⟨t', s', hexec, -, hsettled'⟩ :=
        hsettled.change_succeeds change.2 hfits.1 change.1 0
      obtain ⟨hretains, ht'⟩ :=
        QTree.Change.apply_attains hsettled.kind hsettings ht change.2 change.1 t' s' hexec
      obtain ⟨t'', s'', hexec', hcompact⟩ :=
        ih (hretains.settings.trans hsettings) hsettled' ht' hfits.2
      refine ⟨t'', s'', ?_, hcompact⟩
      rw [QTree.applyAll, List.foldlM_cons, exec_bind, hexec]
      exact hexec'

/-- Whatever changes are made of an empty B-tree or Q-tree, at any versions, all pages of the tree
are compact in the end.  Changes at points that tiles cannot hold, which are refused, are passed
over. -/
theorem changes_leave_compact (s : Store) (stem : Nat) (created updated : Timestamp) :
    (∀ changes : List (Nat × BTree.Change), ∃ t s',
      exec (do BTree.applyAll (← Tree.empty ⟨.btree, stem, created, updated⟩) changes) s =
        (.ok t, s') ∧ t.Compact s.settings s') ∧
    ∀ changes : List (Nat × QTree.Change), ∃ t s',
      exec (do
        let t ← Tree.empty ⟨.qtree, stem, created, updated⟩
        QTree.applyAll t (changes.filter fun change => change.2.Fits)) s = (.ok t, s') ∧
      t.Compact s.settings s' := by
  refine ⟨fun changes => ?_, fun changes => ?_⟩
  · obtain ⟨t, s', hexec, -, hsettled⟩ :=
      BTree.empty_settled s ⟨.btree, stem, created, updated⟩ rfl
    obtain ⟨hretains, ht⟩ := Tree.empty_attains s.settings _ t s' hexec
    rw [exec_bind, hexec]
    exact BTree.applyAll_compact hretains.settings hsettled ht changes
  · obtain ⟨t, s', hexec, -, hsettled⟩ :=
      QTree.empty_settled s ⟨.qtree, stem, created, updated⟩ rfl
    obtain ⟨hretains, ht⟩ := Tree.empty_attains s.settings _ t s' hexec
    rw [exec_bind, hexec]
    refine QTree.applyAll_compact hretains.settings hsettled ht _ fun change hchange => ?_
    simpa using (List.mem_filter.1 hchange).2

end PageTree
