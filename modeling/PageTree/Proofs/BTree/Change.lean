import PageTree.Proofs.BTree.Balance

/-!
# Changing entries of a B-tree

Each operation descends to the leaves that it changes and rebuilds the pages on the way.  The
separator keys lead a change of a key to the only child whose entries it can concern
(`UpdateCut`), and the spans lead a cut at an index to the child that holds it (`cut_row`),
so that the entries of the rebuilt node are those of the old one with the change made among
them.
-/

namespace PageTree
namespace BTree

open StoreM Entries

variable {W : Type} [Realm W] {s s' : Store} {w w' : W} {height stem version : Nat}
  {es es' : List Entry} {r r' : PageRef} {key value : Value}

/-! ## Finding the child -/

/-- A key cuts children in the order of their keys. -/
theorem keys_cut {γ : Type} {children : List (Value × γ)}
    (hkeys : children.Pairwise fun a b => Value.compare a.1 b.1 = .lt) (key : Value) :
    ∃ front back, children = front ++ back ∧ (∀ a ∈ front, Value.compare a.1 key ≠ .gt) ∧
      ∀ b ∈ back, Value.compare b.1 key = .gt := by
  obtain ⟨as, mid, cs, rfl, has, hcs, hmid⟩ := Value.cut_of_pairwise Prod.fst hkeys key
  refine ⟨as ++ mid, cs, rfl, ?_, hcs⟩
  intro a ha
  rcases List.mem_append.1 ha with ha | ha
  · simp [has a ha]
  · rcases hmid with rfl | ⟨b, rfl, rfl⟩
    · cases ha
    · obtain rfl := List.mem_singleton.1 ha
      simp

/-- Children with greater keys hold entries with greater keys. -/
theorem allAbove_of_keys {γ : Type} {P : γ → List Entry → Prop} {children : List (Value × γ)}
    {parts : List (List Entry)} (hkeyed : Keyed P children parts) (hsorted : Sorted parts.flatten)
    (hkeys : ∀ child ∈ children, Value.compare child.1 key = .gt) :
    AllAbove key parts.flatten := by
  induction hkeyed with
  | nil => simp [AllAbove]
  | @cons child part children parts hchild hrest ih =>
      rw [List.flatten_cons, sorted_append] at hsorted
      intro e he
      rcases List.mem_append.1 he with he | he
      · have hhead := head_key_le hsorted.1 hchild.1 e he
        have hkey := Value.compare_gt_iff.1 (hkeys child List.mem_cons_self)
        exact Value.compare_gt_iff.2 (Value.compare_lt_of_lt_of_ne_gt hkey hhead)
      · exact ih hsorted.2.1 (fun b hb => hkeys b (List.mem_cons_of_mem _ hb)) e he

/-- Entries before a part are less than every key that is not less than the part's first. -/
theorem allBelow_of_head {as part : List Entry} {first : Value}
    (hsorted : Sorted (as ++ part)) (hhead : part.head?.map Prod.fst = some first)
    (hle : Value.compare first key ≠ .gt) : AllBelow key as := by
  obtain ⟨e, he, rfl⟩ := Option.map_eq_some_iff.1 hhead
  intro a ha
  exact Value.compare_lt_of_lt_of_ne_gt
    ((sorted_append.1 hsorted).2.2 a ha e (List.mem_of_mem_head? he)) hle

/-- A key leads to the only child whose entries it can be among. -/
theorem childIndex_cut {P : PageRef → List Entry → Prop} {children : List (Value × PageRef)}
    {parts : List (List Entry)} (hkeyed : Keyed P children parts) (hsorted : Sorted parts.flatten)
    (hne : children ≠ []) (key : Value) :
    ∃ as child bs ps part rs, children = as ++ child :: bs ∧ parts = ps ++ part :: rs ∧
      Keyed P as ps ∧ (part.head?.map Prod.fst = some child.1 ∧ P child.2 part) ∧
      Keyed P bs rs ∧ childIndex children key = as.length ∧ AllBelow key ps.flatten ∧
      AllAbove key rs.flatten := by
  obtain ⟨front, back, rfl, hfront, hback⟩ := keys_cut (hkeyed.keys_lt hsorted) key
  have hupTo : upTo (front ++ back) key = front.length :=
    Bisection.boundary_append front back (fun a ha => by simpa using hfront a ha)
      (fun b hb => by simpa using hback b hb)
  obtain ⟨ps, rs, rfl, hps, hrs⟩ := Keyed.of_append hkeyed
  rw [List.flatten_append] at hsorted
  rcases List.eq_nil_or_concat front with rfl | ⟨as, child, rfl⟩
  · -- every child has a greater key, and the first one is taken
    cases hps
    cases back with
    | nil => exact absurd rfl hne
    | cons child bs =>
        obtain ⟨part, rs, hchild, hbs, rfl⟩ := List.forall₂_cons_left_iff.1 hrs
        rw [List.flatten_nil, List.nil_append, List.flatten_cons, sorted_append] at hsorted
        refine ⟨[], child, bs, [], part, rs, rfl, rfl, List.Forall₂.nil, hchild, hbs, ?_,
          by simp [AllBelow], ?_⟩
        · rw [childIndex, hupTo]
          rfl
        · exact allAbove_of_keys hbs hsorted.2.1 fun b hb => hback b (List.mem_cons_of_mem _ hb)
  · rw [List.concat_eq_append] at hps hupTo hfront
    obtain ⟨ps, qs, rfl, has, hqs⟩ := Keyed.of_append hps
    obtain ⟨part, rest, hchild, hnil, rfl⟩ := List.forall₂_cons_left_iff.1 hqs
    cases hnil
    obtain ⟨hfirst, hlast, -⟩ := sorted_append.1 hsorted
    refine ⟨as, child, back, ps, part, rs, by simp, by simp, has, hchild, hrs, ?_, ?_, ?_⟩
    · rw [childIndex, List.concat_eq_append, hupTo]
      simp
    · rw [List.flatten_append] at hfirst
      exact allBelow_of_head hfirst (by simpa using hchild.1) (hfront child (by simp))
    · exact allAbove_of_keys hrs hlast hback

/-- An index leads to the child that holds the entry there. -/
theorem cut_row (hrep : Realm.Represents s w) {children : List (Value × PageRef)}
    {parts : List (List Entry)} (hrow : Row w height stem version children parts) (index : Nat) :
    ∃ before rest remaining ps qs, cut children index = (before, rest, remaining) ∧
      children = before ++ rest ∧ parts = ps ++ qs ∧ Row w height stem version before ps ∧
      Row w height stem version rest qs ∧ index = ps.flatten.length + remaining ∧
      ∀ part ∈ qs.head?, remaining < part.length := by
  induction children generalizing parts index with
  | nil =>
      cases hrow
      exact ⟨[], [], index, [], [], rfl, rfl, rfl, List.Forall₂.nil, List.Forall₂.nil, by simp,
        by simp⟩
  | cons child children ih =>
      obtain ⟨part, parts, hchild, hrest, rfl⟩ := List.forall₂_cons_left_iff.1 hrow
      have hspan := Realm.span hrep hchild.2
      unfold cut
      -- children are passed over as long as the index lies behind them
      split
      · next hle =>
          obtain ⟨before, rest, remaining, ps, qs, hcut, rfl, rfl, hps, hqs, hindex, hhead⟩ :=
            ih hrest (index - child.2.span)
          refine ⟨child :: before, rest, remaining, part :: ps, qs, by simp [hcut], rfl, rfl,
            List.Forall₂.cons hchild hps, hqs, ?_, hhead⟩
          rw [List.flatten_cons, List.length_append]
          omega
      · next hlt =>
          refine ⟨[], child :: children, index, [], part :: parts, rfl, rfl, rfl,
            List.Forall₂.nil, List.Forall₂.cons hchild hrest, by simp, ?_⟩
          intro part' hpart'
          cases hpart'
          omega

/-- A row of children and their entries, cut at the child that a key leads to.  The update of all
the entries under the key is the update of those beneath the child. -/
structure UpdateCut (P : PageRef → List Entry → Prop) (key value : Value)
    (children : List (Value × PageRef)) (es : List Entry) (as : List (Value × PageRef))
    (child : Value × PageRef) (bs : List (Value × PageRef)) (ps : List (List Entry))
    (part : List Entry) (rs : List (List Entry)) : Prop where
  children_eq : children = as ++ child :: bs
  entries_eq : es = ps.flatten ++ part ++ rs.flatten
  before : Keyed P as ps
  ne_nil : part ≠ []
  subtree : P child.2 part
  behind : Keyed P bs rs
  index_eq : childIndex children key = as.length
  update_eq : Listing.update key value es =
    ps.flatten ++ Listing.update key value part ++ rs.flatten

theorem Keyed.updateCut {P : PageRef → List Entry → Prop} {children : List (Value × PageRef)}
    {parts : List (List Entry)} (hkeyed : Keyed P children parts) (hsorted : Sorted parts.flatten)
    (hne : children ≠ []) (key value : Value) :
    ∃ as child bs ps part rs,
      UpdateCut P key value children parts.flatten as child bs ps part rs := by
  obtain ⟨as, child, bs, ps, part, rs, hchildren, rfl, has, ⟨hkey, hchild⟩, hbs, hindex, hbelow,
    habove⟩ := childIndex_cut hkeyed hsorted hne key
  have hflatten : (ps ++ part :: rs).flatten = ps.flatten ++ part ++ rs.flatten := by simp
  exact ⟨as, child, bs, ps, part, rs, {
    children_eq := hchildren
    entries_eq := hflatten
    before := has
    ne_nil := by
      rintro rfl
      cases hkey
    subtree := hchild
    behind := hbs
    index_eq := hindex
    update_eq := by rw [hflatten, update_between hbelow habove] }⟩

namespace UpdateCut

variable {P : PageRef → List Entry → Prop} {children as bs : List (Value × PageRef)}
  {child : Value × PageRef} {ps rs : List (List Entry)} {part : List Entry}

theorem getD (hcut : UpdateCut P key value children es as child bs ps part rs)
    (default : Value × PageRef) : children.getD as.length default = child := by
  simp [hcut.children_eq]

theorem child_mem (hcut : UpdateCut P key value children es as child bs ps part rs) :
    child.2 ∈ children.map Prod.snd := by
  simp [hcut.children_eq]

theorem sorted_after (hcut : UpdateCut P key value children es as child bs ps part rs)
    (hsorted : Sorted es) :
    Sorted (ps.flatten ++ Listing.update key value part ++ rs.flatten) :=
  hcut.update_eq ▸ hsorted.update

end UpdateCut

theorem UpdateCut.grows {children as bs : List (Value × PageRef)} {child : Value × PageRef}
    {ps rs : List (List Entry)} {part : List Entry} (hgrows : Realm.Grows s w s' w')
    (hcut : UpdateCut (Realm.Subtree w height stem version) key value children es as child bs ps
      part rs) :
    UpdateCut (Realm.Subtree w' height stem version) key value children es as child bs ps part
      rs := {
  hcut with
  before := Row.grows hgrows hcut.before
  subtree := Realm.subtree_grows hgrows hcut.subtree
  behind := Row.grows hgrows hcut.behind }

/-! ## Outcomes -/

/-- What a change makes of a subtree.  The height only changes where all entries come or go, and
those are changes of a whole tree. -/
def Becomes (w : W) (height stem version : Nat) (es : List Entry) (r' : PageRef)
    (es' : List Entry) : Prop :=
  ∃ height', Realm.Subtree w height' stem version r' es' ∧ (es ≠ [] → es' ≠ [] → height' = height)

theorem Becomes.root (hbecomes : Becomes w height stem version es r' es') :
    Root w stem version r' es' := by
  obtain ⟨height', hsub, -⟩ := hbecomes
  exact ⟨height', hsub⟩

theorem Becomes.span (hrep : Realm.Represents s w)
    (hbecomes : Becomes w height stem version es r' es') :
    r'.span = es'.length := by
  obtain ⟨height', hsub, -⟩ := hbecomes
  exact Realm.span hrep hsub

theorem Becomes.subtree (hbecomes : Becomes w height stem version es r' es') (hne : es ≠ [])
    (hne' : es' ≠ []) : Realm.Subtree w height stem version r' es' := by
  obtain ⟨height', hsub, hheight⟩ := hbecomes
  exact hheight hne hne' ▸ hsub

theorem becomes_self (hsub : Realm.Subtree w height stem version r es) :
    Becomes w height stem version es r es :=
  ⟨height, hsub, fun _ _ => rfl⟩

/-- A new leaf. -/
theorem newLeaf_runs (hrep : Realm.Represents s w) (stem version : Nat) (hsorted : Sorted es) :
    Realm.Runs (newLeaf version stem es) s w fun r' _ w' => Realm.Subtree w' 0 stem version r' es :=
  have hholds : PageHolds (Realm.Subtree w) 0 ⟨version, stem, .btreeLeaf es⟩ es := rfl
  Realm.mono (Realm.ofPage_runs hrep hsorted hholds) fun _ _ _ _ hpost => hpost.1

/-- A new node over a row. -/
theorem newNode_runs (hrep : Realm.Represents s w) {children : List (Value × PageRef)}
    {parts : List (List Entry)} (hrow : Row w height stem version children parts)
    (hsorted : Sorted parts.flatten) :
    Realm.Runs (newNode version stem children) s w
      fun r' _ w' => Realm.Subtree w' (height + 1) stem version r' parts.flatten :=
  have hholds : PageHolds (Realm.Subtree w) (height + 1) ⟨version, stem, .btreeNode children⟩
      parts.flatten :=
    ⟨children, parts, rfl, hrow, rfl⟩
  Realm.mono (Realm.ofPage_runs hrep hsorted hholds) fun _ _ _ _ hpost => hpost.1

/-- A node whose child has been rebuilt. -/
theorem rebuiltNode_runs (hrep : Realm.Represents s w) {as bs : List (Value × PageRef)}
    (old : Value × PageRef) {ps rs : List (List Entry)} {before : List Entry}
    (has : Row w height stem version as ps) (hbs : Row w height stem version bs rs)
    (hbefore : before ≠ []) (hbecomes : Becomes w height stem version before r' es)
    (hsorted : Sorted (ps.flatten ++ es ++ rs.flatten)) :
    Realm.Runs (do newNode version stem (← rebalanceChild (as ++ old :: bs) as.length r' version))
      s w
      fun r'' _ w' => Realm.Subtree w' (height + 1) stem version r''
        (ps.flatten ++ es ++ rs.flatten) := by
  refine Realm.bind (rebalanceChild_runs hrep has hbs (hbecomes.span hrep)
    (hbecomes.subtree hbefore) hsorted) ?_
  rintro children s' w' hgrows ⟨parts, hrow, hparts⟩
  rw [← hparts] at hsorted ⊢
  exact newNode_runs (Realm.represents hgrows) hrow hsorted

/-! ## Changing a key -/

/-- What a leaf finds under a key tells whether a change would leave it as it is. -/
theorem unchanged_iff (hsorted : Sorted es) :
    (match Entries.find? es key with
      | some stored => value.isDefined && decide (stored = value)
      | none => !value.isDefined) = true ↔ Listing.update key value es = es := by
  rw [update_eq_self_iff hsorted, find?_eq hsorted]
  cases hlookup : Listing.lookup key es <;> cases hdefined : value.isDefined <;> simp

/-- A leaf stays if a change leaves its entries as they are, and is made again otherwise. -/
theorem updatedLeaf_runs (hrep : Realm.Represents s w)
    (hsub : Realm.Subtree w 0 stem version r es) :
    Realm.Runs (if (match Entries.find? es key with
          | some stored => value.isDefined && decide (stored = value)
          | none => !value.isDefined) = true then
        pure r
      else newLeaf version stem (Entries.update key value es)) s w fun r' _ w' =>
      Becomes w' 0 stem version es r' (Listing.update key value es) ∧
        (Listing.update key value es = es → r' = r) := by
  have hsorted := Realm.sorted hsub
  refine Realm.ite ?_ ?_
  · intro hunchanged
    rw [(unchanged_iff hsorted).1 hunchanged]
    exact Realm.pure hrep ⟨becomes_self hsub, fun _ => rfl⟩
  · intro hchanged
    rw [update_eq hsorted]
    refine Realm.mono (newLeaf_runs hrep stem version hsorted.update) ?_
    intro r' s' w' _ hleaf
    refine ⟨⟨0, hleaf, fun _ _ => rfl⟩, ?_⟩
    exact fun hsame => absurd ((unchanged_iff hsorted).2 hsame) hchanged

/-- A root without children gets a leaf for its first entry. -/
theorem updatedEmpty_runs (hrep : Realm.Represents s w)
    (hsub : Realm.Subtree w height stem version r []) :
    Realm.Runs (if value.isDefined = true then newLeaf version stem [(key, value)] else pure r) s w
      fun r' _ w' => Becomes w' height stem version [] r' (Listing.update key value []) ∧
        (Listing.update key value [] = [] → r' = r) := by
  refine Realm.ite ?_ ?_
  · intro hdefined
    have hput : Listing.update key value [] = [(key, value)] := by
      simp [Listing.update, hdefined, Listing.put, Listing.lesser, Listing.greater]
    rw [hput]
    refine Realm.mono (newLeaf_runs hrep stem version (List.pairwise_singleton _ _)) ?_
    intro r' s' w' _ hleaf
    exact ⟨⟨0, hleaf, fun hne => absurd rfl hne⟩, fun hsame => by cases hsame⟩
  · intro habsent
    have herase : Listing.update key value [] = [] := by
      simp [Listing.update, habsent, Listing.erase, Listing.lesser, Listing.greater]
    rw [herase]
    exact Realm.pure hrep ⟨becomes_self hsub, fun _ => rfl⟩

/-- A node stays if the child that the key leads to has stayed, and is made again with what has
become of that child otherwise. -/
theorem updatedNode_runs (hrep : Realm.Represents s w)
    {children as bs : List (Value × PageRef)} {child : Value × PageRef} {ps rs : List (List Entry)}
    {part : List Entry} (hsub : Realm.Subtree w (height + 1) stem version r es)
    (hcut : UpdateCut (Realm.Subtree w height stem version) key value children es as child bs ps
      part rs)
    (hbecomes : Becomes w height stem version part r' (Listing.update key value part))
    (hsame : Listing.update key value part = part → r' = child.2) :
    Realm.Runs (if r'.same child.2 = true then pure r
      else do newNode version stem (← rebalanceChild children as.length r' version)) s w
      fun r'' _ w' => Becomes w' (height + 1) stem version es r'' (Listing.update key value es) ∧
        (Listing.update key value es = es → r'' = r) := by
  refine Realm.ite ?_ ?_
  · intro hstays
    obtain ⟨height', hsub', -⟩ := hbecomes
    rw [hcut.update_eq, Realm.same hrep hsub' hcut.subtree hstays, ← hcut.entries_eq]
    exact Realm.pure hrep ⟨becomes_self hsub, fun _ => rfl⟩
  · intro hmoved
    rw [hcut.children_eq]
    refine Realm.mono (rebuiltNode_runs hrep child hcut.before hcut.behind hcut.ne_nil hbecomes
      (hcut.sorted_after (Realm.sorted hsub))) ?_
    intro r'' s' w' _ hnode
    rw [← hcut.update_eq] at hnode
    refine ⟨⟨height + 1, hnode, fun _ _ => rfl⟩, ?_⟩
    -- if the entries were the same, so would those beneath the child be, and it has moved
    intro heq
    rw [hcut.update_eq, hcut.entries_eq, List.append_cancel_right_eq,
      List.append_cancel_left_eq] at heq
    rw [hsame heq] at hmoved
    exact absurd (by simp [PageRef.same]) hmoved

/-- A value is put at a key, or the key is taken out; the reference stays if that changes
nothing. -/
theorem updatedWithin_runs (hrep : Realm.Represents s w) (depth : Nat) (hdepth : r.treeSize < depth)
    (hsub : Realm.Subtree w height stem version r es) :
    Realm.Runs (updatedWithin key value version depth r) s w fun r' _ w' =>
      Becomes w' height stem version es r' (Listing.update key value es) ∧
        (Listing.update key value es = es → r' = r) := by
  -- each step goes down to the child of the key, whose tree is smaller
  induction depth generalizing s w height r es with
  | zero => exact absurd hdepth (Nat.not_lt_zero _)
  | succ depth ih =>
      have hsorted := Realm.sorted hsub
      unfold updatedWithin
      refine Realm.bind (Realm.page_runs hrep hsub) ?_
      rintro page s' w' hgrows ⟨hpage, rfl, hversion, hholds⟩
      have hrep' := Realm.represents hgrows
      have hsub' := Realm.subtree_grows hgrows hsub
      cases height with
      | zero =>
          simp only [show page.body = .btreeLeaf es from hholds]
          exact updatedLeaf_runs hrep' hsub'
      | succ height =>
          obtain ⟨children, parts, hbody, hrow, rfl⟩ := hholds
          simp only [hbody]
          cases children with
          | nil =>
              cases hrow
              exact updatedEmpty_runs hrep' hsub'
          | cons first rest =>
              obtain ⟨as, child, bs, ps, part, rs, hcut⟩ :=
                Keyed.updateCut (Row.raise hrow hversion) hsorted (List.cons_ne_nil _ _) key value
              have hmem : child.2 ∈ page.children := by
                rw [Page.children_eq, hbody]
                exact hcut.child_mem
              have hlt := Realm.treeSize_lt hrep' hsub' hpage hmem
              simp only [hcut.index_eq, hcut.getD]
              refine Realm.bind (ih hrep' (by omega) hcut.subtree) ?_
              rintro rebuilt s'' w'' hgrows' ⟨hbecomes, hsame⟩
              exact updatedNode_runs (Realm.represents hgrows')
                (Realm.subtree_grows hgrows' hsub') (hcut.grows hgrows') hbecomes hsame

/-! ## Cuts at an index -/

/-- A node is made again without the children in front of a cut and with what is left of the child
that the cut goes through. -/
theorem droppedNode_runs (hrep : Realm.Represents s w) {children : List (Value × PageRef)}
    {parts : List (List Entry)} (hrow : Row w height stem version children parts)
    (hsorted : Sorted parts.flatten) {depth lower : Nat} (hlower : lower < parts.flatten.length)
    (hbeneath : ∀ child ∈ children, ∀ part remaining,
      Realm.Subtree w height stem version child.2 part →
      Realm.Runs (droppedWithin version depth child.2 remaining) s w fun r' _ w' =>
        Becomes w' height stem version part r' (part.drop remaining)) :
    Realm.Runs (match cut children lower with
      | (_, rest, remaining) =>
        match rest with
        | (_, child) :: _ =>
          if remaining = 0 then newNode version stem rest
          else do
            let rebuilt ← droppedWithin version depth child remaining
            newNode version stem (← rebalanceChild rest 0 rebuilt version)
        | [] => newNode version stem []) s w fun r' _ w' =>
      Becomes w' (height + 1) stem version parts.flatten r' (parts.flatten.drop lower) := by
  have hdrop : Sorted (parts.flatten.drop lower) := hsorted.sublist (List.drop_sublist _ _)
  obtain ⟨before, rest, remaining, ps, qs, hcut, rfl, rfl, hps, hqs, rfl, hhead⟩ :=
    cut_row hrep hrow lower
  have hlist : (ps ++ qs).flatten.drop (ps.flatten.length + remaining) =
      qs.flatten.drop remaining := by
    rw [List.flatten_append, List.drop_append, List.drop_of_length_le (by omega)]
    simp
  rw [hlist] at hdrop ⊢
  simp only [hcut]
  cases rest with
  | nil =>
      -- there are entries behind the cut, so that there is a child that has them
      cases hqs
      rw [List.append_nil] at hlower
      omega
  | cons child rest =>
      obtain ⟨part, rs, ⟨hkey, hchild⟩, hrs, rfl⟩ := List.forall₂_cons_left_iff.1 hqs
      have hlt : remaining < part.length := hhead part rfl
      refine Realm.ite ?_ ?_
      · rintro rfl
        rw [List.drop_zero] at hdrop ⊢
        refine Realm.mono (newNode_runs hrep hqs hdrop) ?_
        exact fun r' _ w' _ hnode => ⟨height + 1, hnode, fun _ _ => rfl⟩
      · intro hremaining
        have hdropped : (part :: rs).flatten.drop remaining =
            [].flatten ++ part.drop remaining ++ rs.flatten := by
          rw [List.flatten_cons, List.drop_append_of_le_length (Nat.le_of_lt hlt)]
          simp
        rw [hdropped] at hdrop ⊢
        refine Realm.bind (hbeneath child (by simp) part remaining hchild) ?_
        intro rebuilt s' w' hgrows hbecomes
        have hrebuilt := rebuiltNode_runs (Realm.represents hgrows) child Row.nil
          (Row.grows hgrows hrs) (List.length_pos_iff.1 (by omega)) hbecomes hdrop
        refine Realm.mono hrebuilt ?_
        exact fun r' _ w' _ hnode => ⟨height + 1, hnode, fun _ _ => rfl⟩

/-- The first entries are dropped. -/
theorem droppedWithin_runs (hrep : Realm.Represents s w) (depth lower : Nat)
    (hdepth : r.treeSize < depth) (hsub : Realm.Subtree w height stem version r es) :
    Realm.Runs (droppedWithin version depth r lower) s w fun r' _ w' =>
      Becomes w' height stem version es r' (es.drop lower) := by
  induction depth generalizing s w height r es lower with
  | zero => exact absurd hdepth (Nat.not_lt_zero _)
  | succ depth ih =>
      have hsorted := Realm.sorted hsub
      have hspan := Realm.span hrep hsub
      unfold droppedWithin
      -- to drop nothing or everything needs no look at the page
      refine Realm.ite ?_ ?_
      · rintro rfl
        exact Realm.pure hrep (by simpa using becomes_self hsub)
      intro hpos
      refine Realm.ite ?_ ?_
      · intro hall
        rw [List.drop_of_length_le (by omega), Realm.stem hrep hsub]
        refine Realm.mono (ofPage_empty_runs hrep stem version) ?_
        rintro r' s' w' - ⟨⟨height', hempty⟩, -⟩
        exact ⟨height', hempty, fun _ hne => absurd rfl hne⟩
      intro hsome
      refine Realm.bind (Realm.page_runs hrep hsub) ?_
      rintro page s' w' hgrows ⟨hpage, rfl, hversion, hholds⟩
      have hrep' := Realm.represents hgrows
      have hsub' := Realm.subtree_grows hgrows hsub
      cases height with
      | zero =>
          simp only [show page.body = .btreeLeaf es from hholds]
          refine Realm.mono (newLeaf_runs hrep' page.stem version
            (hsorted.sublist (List.drop_sublist lower es))) ?_
          exact fun r' _ w' _ hleaf => ⟨0, hleaf, fun _ _ => rfl⟩
      | succ height =>
          obtain ⟨children, parts, hbody, hrow, rfl⟩ := hholds
          simp only [hbody]
          refine droppedNode_runs hrep' (Row.raise hrow hversion) hsorted (by omega) ?_
          intro child hchild part remaining hbeneath
          have hmem : child.2 ∈ page.children := by
            rw [Page.children_eq, hbody]
            exact List.mem_map_of_mem hchild
          have hlt := Realm.treeSize_lt hrep' hsub' hpage hmem
          exact ih hrep' remaining (by omega) hbeneath

/-- A node is made again with the children in front of a cut and with what is left of the child
that the cut goes through. -/
theorem takenNode_runs (hrep : Realm.Represents s w) {children : List (Value × PageRef)}
    {parts : List (List Entry)} (hrow : Row w height stem version children parts)
    (hsorted : Sorted parts.flatten) {depth upper : Nat} (hupper : upper < parts.flatten.length)
    (hbeneath : ∀ child ∈ children, ∀ part remaining,
      Realm.Subtree w height stem version child.2 part →
      Realm.Runs (takenWithin version depth child.2 remaining) s w fun r' _ w' =>
        Becomes w' height stem version part r' (part.take remaining)) :
    Realm.Runs (match cut children upper with
      | (kept, rest, remaining) =>
        match rest with
        | child :: _ =>
          if remaining = 0 then newNode version stem kept
          else do
            let rebuilt ← takenWithin version depth child.2 remaining
            newNode version stem
              (← rebalanceChild (kept ++ [child]) kept.length rebuilt version)
        | [] => newNode version stem kept) s w fun r' _ w' =>
      Becomes w' (height + 1) stem version parts.flatten r' (parts.flatten.take upper) := by
  have htake : Sorted (parts.flatten.take upper) := hsorted.sublist (List.take_sublist _ _)
  obtain ⟨before, rest, remaining, ps, qs, hcut, rfl, rfl, hps, hqs, rfl, hhead⟩ :=
    cut_row hrep hrow upper
  have hlist : (ps ++ qs).flatten.take (ps.flatten.length + remaining) =
      ps.flatten ++ qs.flatten.take remaining := by
    rw [List.flatten_append, List.take_append, List.take_of_length_le (by omega)]
    simp
  rw [hlist] at htake ⊢
  simp only [hcut]
  cases rest with
  | nil =>
      -- there are entries behind the cut, so that there is a child that has them
      cases hqs
      rw [List.append_nil] at hupper
      omega
  | cons child rest =>
      obtain ⟨part, rs, ⟨hkey, hchild⟩, hrs, rfl⟩ := List.forall₂_cons_left_iff.1 hqs
      have hlt : remaining < part.length := hhead part rfl
      refine Realm.ite ?_ ?_
      · rintro rfl
        rw [List.take_zero, List.append_nil] at htake ⊢
        refine Realm.mono (newNode_runs hrep hps htake) ?_
        exact fun r' _ w' _ hnode => ⟨height + 1, hnode, fun _ _ => rfl⟩
      · intro hremaining
        have htaken : ps.flatten ++ (part :: rs).flatten.take remaining =
            ps.flatten ++ part.take remaining ++ [].flatten := by
          rw [List.flatten_cons, List.take_append_of_le_length (Nat.le_of_lt hlt)]
          simp
        rw [htaken] at htake ⊢
        refine Realm.bind (hbeneath child (by simp) part remaining hchild) ?_
        intro rebuilt s' w' hgrows hbecomes
        refine Realm.mono (rebuiltNode_runs (Realm.represents hgrows) child
          (Row.grows hgrows hps) Row.nil (List.length_pos_iff.1 (by omega)) hbecomes htake) ?_
        exact fun r' _ w' _ hnode => ⟨height + 1, hnode, fun _ _ => rfl⟩

/-- Only the first entries are kept. -/
theorem takenWithin_runs (hrep : Realm.Represents s w) (depth upper : Nat)
    (hdepth : r.treeSize < depth) (hsub : Realm.Subtree w height stem version r es) :
    Realm.Runs (takenWithin version depth r upper) s w fun r' _ w' =>
      Becomes w' height stem version es r' (es.take upper) := by
  induction depth generalizing s w height r es upper with
  | zero => exact absurd hdepth (Nat.not_lt_zero _)
  | succ depth ih =>
      have hsorted := Realm.sorted hsub
      have hspan := Realm.span hrep hsub
      unfold takenWithin
      -- to keep everything or nothing needs no look at the page
      refine Realm.ite ?_ ?_
      · intro hall
        rw [List.take_of_length_le (by omega)]
        exact Realm.pure hrep (becomes_self hsub)
      intro hsome
      refine Realm.ite ?_ ?_
      · rintro rfl
        rw [List.take_zero, Realm.stem hrep hsub]
        refine Realm.mono (ofPage_empty_runs hrep stem version) ?_
        rintro r' s' w' - ⟨⟨height', hempty⟩, -⟩
        exact ⟨height', hempty, fun _ hne => absurd rfl hne⟩
      intro hpos
      refine Realm.bind (Realm.page_runs hrep hsub) ?_
      rintro page s' w' hgrows ⟨hpage, rfl, hversion, hholds⟩
      have hrep' := Realm.represents hgrows
      have hsub' := Realm.subtree_grows hgrows hsub
      cases height with
      | zero =>
          simp only [show page.body = .btreeLeaf es from hholds]
          refine Realm.mono (newLeaf_runs hrep' page.stem version
            (hsorted.sublist (List.take_sublist upper es))) ?_
          exact fun r' _ w' _ hleaf => ⟨0, hleaf, fun _ _ => rfl⟩
      | succ height =>
          obtain ⟨children, parts, hbody, hrow, rfl⟩ := hholds
          simp only [hbody]
          refine takenNode_runs hrep' (Row.raise hrow hversion) hsorted (by omega) ?_
          intro child hchild part remaining hbeneath
          have hmem : child.2 ∈ page.children := by
            rw [Page.children_eq, hbody]
            exact List.mem_map_of_mem hchild
          have hlt := Realm.treeSize_lt hrep' hsub' hpage hmem
          exact ih hrep' remaining (by omega) hbeneath

/-! ## Whole trees -/

/-- What a change makes of the entries of a tree, within the bounds on its depth that the
operations take. -/
theorem updated_runs (hrep : Realm.Represents s w) (hroot : Root w stem version r es) :
    Realm.Runs (updated r key value version) s w fun r' _ w' =>
      Root w' stem version r' (Listing.update key value es) ∧
        (Listing.update key value es = es → r' = r) := by
  obtain ⟨height, hsub⟩ := hroot
  refine Realm.get (Realm.mono (updatedWithin_runs hrep _ ?_ hsub) ?_)
  · exact Store.treeSize_lt_depthBound _ _
  · exact fun r' _ w' _ hpost => ⟨hpost.1.root, hpost.2⟩

theorem indexedDepthBound_lt (s : Store) (r : PageRef) (index : Nat) :
    r.treeSize < s.indexedDepthBound r index := by
  unfold Store.indexedDepthBound
  calc r.treeSize < s.depthBound r := s.treeSize_lt_depthBound r
    _ ≤ (index + 1) * s.depthBound r := Nat.le_mul_of_pos_left _ (Nat.succ_pos index)

theorem dropped_runs (hrep : Realm.Represents s w) (lower : Nat)
    (hroot : Root w stem version r es) :
    Realm.Runs (dropped r lower version) s w fun r' _ w' =>
      Root w' stem version r' (es.drop lower) := by
  obtain ⟨height, hsub⟩ := hroot
  exact Realm.get (Realm.mono
    (droppedWithin_runs hrep _ lower (indexedDepthBound_lt s r lower) hsub)
    fun r' _ w' _ hpost => hpost.root)

theorem taken_runs (hrep : Realm.Represents s w) (upper : Nat) (hroot : Root w stem version r es) :
    Realm.Runs (taken r upper version) s w fun r' _ w' =>
      Root w' stem version r' (es.take upper) := by
  obtain ⟨height, hsub⟩ := hroot
  exact Realm.get (Realm.mono
    (takenWithin_runs hrep _ upper (indexedDepthBound_lt s r upper) hsub)
    fun r' _ w' _ hpost => hpost.root)

end BTree
end PageTree
