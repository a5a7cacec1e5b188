import PageTree.Proofs.BTree.Change

/-!
# Look-ups in a B-tree

A look-up in a B-tree finds what its entries have (`BTree.find_runs`).  The other reads also give
what the entries have: the position of a key and the entry at a position are found by the spans, the
ends lie in the first and the last child, and the neighbours of a key are looked for child by child,
away from where the key belongs.
-/

namespace PageTree

/-! ## Looking up a key -/

section Lookup

namespace BTree

open StoreM Entries

variable {W : Type} [Realm W] {s : Store} {w : W} {height stem version : Nat} {es : List Entry}
  {r : PageRef}

theorem findWithin_runs (hrep : Realm.Represents s w) (key : Value) (depth : Nat)
    (hdepth : r.treeSize < depth) (hsub : Realm.Subtree w height stem version r es) :
    Realm.Runs (findWithin key depth r) s w fun found _ _ => found = Listing.lookup key es := by
  induction depth generalizing s w height version r es with
  | zero => exact absurd hdepth (Nat.not_lt_zero _)
  | succ depth ih =>
      have hsorted := Realm.sorted hsub
      unfold findWithin
      refine Realm.bind (Realm.page_runs hrep hsub) ?_
      rintro page s' w' hgrows ⟨hpage, rfl, hversion, hholds⟩
      have hrep' := Realm.represents hgrows
      have hsub' := Realm.subtree_grows hgrows hsub
      cases height with
      | zero =>
          simp only [show page.body = .btreeLeaf es from hholds]
          exact Realm.pure hrep' (Entries.find?_eq hsorted key)
      | succ height =>
          obtain ⟨children, parts, hbody, hrow, rfl⟩ := hholds
          simp only [hbody]
          by_cases hnone : children = []
          · -- a root without children has no entries
            subst hnone
            cases hrow
            exact Realm.pure hrep' rfl
          · obtain ⟨as, child, bs, ps, part, rs, rfl, rfl, -, ⟨-, hchild⟩, -, hindex, hbelow,
              habove⟩ := childIndex_cut hrow hsorted hnone key
            have hfor : childFor? (as ++ child :: bs) key = some child.2 := by
              simp [childFor?, hindex]
            have hmem : child.2 ∈ page.children := by
              simp [Page.children, hbody]
            have hlt := Realm.treeSize_lt hrep' hsub' hpage hmem
            have hlookup : Listing.lookup key (ps ++ part :: rs).flatten =
                Listing.lookup key part := by
              rw [List.flatten_append, List.flatten_cons, ← List.append_assoc,
                lookup_between hbelow habove]
            simp only [hfor, hlookup]
            exact ih hrep' (by omega) hchild

/-- A look-up gives the value that the entries have at a key. -/
theorem find_runs (hrep : Realm.Represents s w) (key : Value) (hroot : Root w stem version r es) :
    Realm.Runs (BTree.find? r key) s w fun found _ _ => found = Listing.lookup key es := by
  obtain ⟨height, hsub⟩ := hroot
  refine Realm.get (findWithin_runs hrep key _ ?_ hsub)
  exact Store.treeSize_lt_depthBound _ _

end BTree

end Lookup

namespace BTree

open StoreM Entries

variable {W : Type} [Realm W] {s : Store} {w : W} {height stem version : Nat} {es : List Entry}
  {r : PageRef} {children : List (Value × PageRef)} {parts : List (List Entry)}

/-! ## Positions -/

/-- The spans of children count the entries beneath them. -/
theorem Row.spanOf (hrep : Realm.Represents s w)
    (hrow : Row w height stem version children parts) :
    spanOf children = parts.flatten.length := by
  induction hrow with
  | nil => rfl
  | cons hchild _ ih =>
      unfold BTree.spanOf at ih ⊢
      rw [List.map_cons, List.foldr_cons, ih, Realm.span hrep hchild.2, List.flatten_cons,
        List.length_append]

theorem indexWithin_runs (hrep : Realm.Represents s w) (key : Value) (depth offset : Nat)
    (hdepth : r.treeSize < depth) (hsub : Realm.Subtree w height stem version r es) :
    Realm.Runs (indexWithin key depth offset r) s w fun found _ _ =>
      found = (Listing.indexOf? key es).map (offset + ·) := by
  induction depth generalizing s w height version r es offset with
  | zero => exact absurd hdepth (Nat.not_lt_zero _)
  | succ depth ih =>
      have hsorted := Realm.sorted hsub
      unfold indexWithin
      refine Realm.bind (Realm.page_runs hrep hsub) ?_
      rintro page s' w' hgrows ⟨hpage, rfl, hversion, hholds⟩
      have hrep' := Realm.represents hgrows
      have hsub' := Realm.subtree_grows hgrows hsub
      cases height with
      | zero =>
          simp only [show page.body = .btreeLeaf es from hholds, indexOf?_eq hsorted]
          exact Realm.pure hrep' rfl
      | succ height =>
          obtain ⟨children, parts, hbody, hrow, rfl⟩ := hholds
          simp only [hbody]
          by_cases hnone : children = []
          · subst hnone
            cases hrow
            exact Realm.pure hrep' rfl
          · obtain ⟨as, child, bs, ps, part, rs, rfl, rfl, has, ⟨-, hchild⟩, -, hindex, hbelow,
              habove⟩ := childIndex_cut hrow hsorted hnone key
            have hfor : childFor? (as ++ child :: bs) key = some child.2 := by
              simp [childFor?, hindex]
            have hmem : child.2 ∈ page.children := by
              simp [Page.children, hbody]
            have hlt := Realm.treeSize_lt hrep' hsub' hpage hmem
            -- the entries of the children in front come before those of the child
            have hbefore : BTree.spanOf ((as ++ child :: bs).take as.length) =
                ps.flatten.length := by
              rw [List.take_left' rfl]
              exact Row.spanOf hrep' has
            have hposition : Listing.indexOf? key (ps ++ part :: rs).flatten =
                (Listing.indexOf? key part).map (ps.flatten.length + ·) := by
              rw [List.flatten_append, List.flatten_cons, ← List.append_assoc,
                indexOf_between hbelow habove]
            simp only [hfor, hindex, hbefore, hposition, Option.map_map]
            refine Realm.mono (ih hrep' (offset + ps.flatten.length) (by omega) hchild) ?_
            rintro found s'' w'' - rfl
            simp [Function.comp_def, Nat.add_assoc]

/-- An index leads to the child that holds the entry there, if there is one. -/
theorem childAt_row (hrep : Realm.Represents s w)
    (hrow : Row w height stem version children parts) (index : Nat) :
    (childAt? (children.map Prod.snd) index = none ∧ parts.flatten[index]? = none) ∨
      ∃ child part rest, childAt? (children.map Prod.snd) index = some (child, rest) ∧
        child ∈ children.map Prod.snd ∧ Realm.Subtree w height stem version child part ∧
        parts.flatten[index]? = part[rest]? := by
  induction hrow generalizing index with
  | nil => exact Or.inl ⟨rfl, rfl⟩
  | @cons child part children parts hchild _ ih =>
      have hspan := Realm.span hrep hchild.2
      rw [List.map_cons, childAt?, List.flatten_cons]
      split
      · next hlt =>
          refine Or.inr ⟨child.2, part, index, rfl, List.mem_cons_self, hchild.2, ?_⟩
          exact List.getElem?_append_left (by omega)
      · next hge =>
          rw [List.getElem?_append_right (by omega), ← hspan]
          rcases ih (index - child.2.span) with hnone | ⟨child', part', rest, hat, hmem, hrest⟩
          · exact Or.inl hnone
          · exact Or.inr ⟨child', part', rest, hat, List.mem_cons_of_mem _ hmem, hrest⟩

theorem entryWithin_runs (hrep : Realm.Represents s w) (depth index : Nat)
    (hdepth : r.treeSize < depth) (hsub : Realm.Subtree w height stem version r es) :
    Realm.Runs (entryWithin depth r index) s w fun found _ _ => found = es[index]? := by
  induction depth generalizing s w height version r es index with
  | zero => exact absurd hdepth (Nat.not_lt_zero _)
  | succ depth ih =>
      unfold entryWithin
      refine Realm.bind (Realm.page_runs hrep hsub) ?_
      rintro page s' w' hgrows ⟨hpage, rfl, hversion, hholds⟩
      have hrep' := Realm.represents hgrows
      have hsub' := Realm.subtree_grows hgrows hsub
      cases height with
      | zero =>
          simp only [show page.body = .btreeLeaf es from hholds]
          exact Realm.pure hrep' rfl
      | succ height =>
          obtain ⟨children, parts, hbody, hrow, rfl⟩ := hholds
          simp only [hbody]
          rcases childAt_row hrep' hrow index with
            ⟨hat, hnone⟩ | ⟨child, part, rest, hat, hmem, hchild, hentry⟩
          · simp only [hat, hnone]
            exact Realm.pure hrep' rfl
          · have hbeneath : child ∈ page.children := by
              rwa [Page.children, hbody]
            have hlt := Realm.treeSize_lt hrep' hsub' hpage hbeneath
            simp only [hat, hentry]
            exact ih hrep' rest (by omega) hchild

/-! ## Ends -/

theorem firstWithin_runs (hrep : Realm.Represents s w) (depth : Nat)
    (hdepth : r.treeSize < depth) (hsub : Realm.Subtree w height stem version r es) :
    Realm.Runs (firstWithin depth r) s w fun found _ _ => found = es.head? := by
  induction depth generalizing s w height version r es with
  | zero => exact absurd hdepth (Nat.not_lt_zero _)
  | succ depth ih =>
      unfold firstWithin
      refine Realm.bind (Realm.page_runs hrep hsub) ?_
      rintro page s' w' hgrows ⟨hpage, rfl, hversion, hholds⟩
      have hrep' := Realm.represents hgrows
      have hsub' := Realm.subtree_grows hgrows hsub
      cases height with
      | zero =>
          simp only [show page.body = .btreeLeaf es from hholds]
          exact Realm.pure hrep' rfl
      | succ height =>
          obtain ⟨children, parts, hbody, hrow, rfl⟩ := hholds
          simp only [hbody]
          cases children with
          | nil =>
              cases hrow
              exact Realm.pure hrep' rfl
          | cons child children =>
              have hne := hrow.ne_nil
              obtain ⟨part, rs, hchild, -, rfl⟩ := List.forall₂_cons_left_iff.1 hrow
              have hmem : child.2 ∈ page.children := by
                simp [Page.children, hbody]
              have hlt := Realm.treeSize_lt hrep' hsub' hpage hmem
              -- the first part is not empty
              have hhead : (part :: rs).flatten.head? = part.head? := by
                cases part with
                | nil => exact absurd rfl (hne [] List.mem_cons_self)
                | cons e part => rfl
              rw [hhead]
              exact ih hrep' (by omega) hchild.2

theorem lastWithin_runs (hrep : Realm.Represents s w) (depth : Nat)
    (hdepth : r.treeSize < depth) (hsub : Realm.Subtree w height stem version r es) :
    Realm.Runs (lastWithin depth r) s w fun found _ _ => found = es.getLast? := by
  induction depth generalizing s w height version r es with
  | zero => exact absurd hdepth (Nat.not_lt_zero _)
  | succ depth ih =>
      unfold lastWithin
      refine Realm.bind (Realm.page_runs hrep hsub) ?_
      rintro page s' w' hgrows ⟨hpage, rfl, hversion, hholds⟩
      have hrep' := Realm.represents hgrows
      have hsub' := Realm.subtree_grows hgrows hsub
      cases height with
      | zero =>
          simp only [show page.body = .btreeLeaf es from hholds]
          exact Realm.pure hrep' rfl
      | succ height =>
          obtain ⟨children, parts, hbody, hrow, rfl⟩ := hholds
          simp only [hbody]
          rcases List.eq_nil_or_concat children with rfl | ⟨children, child, rfl⟩
          · cases hrow
            exact Realm.pure hrep' rfl
          · rw [List.concat_eq_append] at hrow hbody
            have hne := hrow.ne_nil
            obtain ⟨ps, qs, rfl, -, hqs⟩ := Keyed.of_append hrow
            obtain ⟨part, rest, hchild, hnil, rfl⟩ := List.forall₂_cons_left_iff.1 hqs
            cases hnil
            have hmem : child.2 ∈ page.children := by
              simp [Page.children, hbody]
            have hlt := Realm.treeSize_lt hrep' hsub' hpage hmem
            -- the last part is not empty
            have hpart : part ≠ [] := hne part (by simp)
            have hlast : (ps ++ [part]).flatten.getLast? = part.getLast? := by
              rw [List.flatten_append, List.flatten_singleton,
                List.getLast?_append_of_ne_nil _ hpart]
            rw [hlast]
            simp only [List.concat_eq_append, List.getLast?_concat]
            exact ih hrep' (by omega) hchild.2

/-! ## Neighbours -/

/-- A search goes on until an item gives something. -/
theorem findSomeM_runs {α β : Type} {f : α → StoreM (Option β)} {as : List α}
    {results : List (Option β)} (hrep : Realm.Represents s w)
    (hall : List.Forall₂ (fun a result => ∀ s' w', Realm.Grows s w s' w' →
      Realm.Runs (f a) s' w' fun found _ _ => found = result) as results) :
    Realm.Runs (as.findSomeM? f) s w fun found _ _ => found = results.findSome? id := by
  induction as generalizing s w results with
  | nil =>
      cases hall
      exact Realm.pure hrep rfl
  | cons a as ih =>
      obtain ⟨result, results, ha, hrest, rfl⟩ := List.forall₂_cons_left_iff.1 hall
      rw [List.findSomeM?_cons]
      refine Realm.bind (ha s w (Realm.grows_refl hrep)) ?_
      rintro found s' w' hgrows rfl
      cases found with
      | some b => exact Realm.pure (Realm.represents hgrows) rfl
      | none =>
          show Realm.Runs _ s' w' fun found _ _ => found = results.findSome? id
          refine ih (Realm.represents hgrows) (hrest.imp fun _ _ hruns s'' w'' hgrows' => ?_)
          exact hruns s'' w'' (Realm.grows_trans hgrows hgrows')

/-- A search among children finds what a search among their parts does. -/
theorem Row.findSomeM_runs (hrep : Realm.Represents s w) {f : PageRef → StoreM (Option Entry)}
    {g : List Entry → Option Entry} (hrow : Row w height stem version children parts)
    (hf : ∀ child ∈ children, ∀ part s' w', Realm.Grows s w s' w' →
      Realm.Subtree w height stem version child.2 part →
      Realm.Runs (f child.2) s' w' fun found _ _ => found = g part) :
    Realm.Runs (children.findSomeM? fun child => f child.2) s w
      fun found _ _ => found = parts.findSome? g := by
  have hall := hrow.imp_mem (Q := fun child part => ∀ s' w', Realm.Grows s w s' w' →
    Realm.Runs (f child) s' w' fun found _ _ => found = g part)
    fun child hmem part hsub s' w' hgrows => hf child hmem part s' w' hgrows hsub
  have hresults : parts.findSome? g = (parts.map g).findSome? id := by
    rw [List.findSome?_map]
    rfl
  rw [hresults]
  exact BTree.findSomeM_runs hrep
    (List.forall₂_map_right_iff.2 (List.Forall₂.imp (fun _ _ h => h.2) hall))

theorem nextWithin_runs (hrep : Realm.Represents s w) (key : Value) (depth : Nat)
    (hdepth : r.treeSize < depth) (hsub : Realm.Subtree w height stem version r es) :
    Realm.Runs (nextWithin key depth r) s w fun found _ _ => found = Listing.next? key es := by
  induction depth generalizing s w height version r es with
  | zero => exact absurd hdepth (Nat.not_lt_zero _)
  | succ depth ih =>
      have hsorted := Realm.sorted hsub
      unfold nextWithin
      refine Realm.bind (Realm.page_runs hrep hsub) ?_
      rintro page s' w' hgrows ⟨hpage, rfl, hversion, hholds⟩
      have hrep' := Realm.represents hgrows
      have hsub' := Realm.subtree_grows hgrows hsub
      cases height with
      | zero =>
          simp only [show page.body = .btreeLeaf es from hholds, next?_eq hsorted]
          exact Realm.pure hrep' rfl
      | succ height =>
          obtain ⟨children, parts, hbody, hrow, rfl⟩ := hholds
          simp only [hbody]
          by_cases hnone : children = []
          · subst hnone
            cases hrow
            exact Realm.pure hrep' rfl
          · obtain ⟨as, child, bs, ps, part, rs, rfl, rfl, -, hchild, hbs, hindex, hbelow, -⟩ :=
              childIndex_cut hrow hsorted hnone key
            -- no child in front of the one where the key belongs has a greater key
            have hnext : Listing.next? key (ps ++ part :: rs).flatten =
                (part :: rs).findSome? (Listing.next? key) := by
              rw [List.flatten_append, next_append hbelow, next_flatten]
            rw [hindex, List.drop_left' rfl, hnext]
            refine Row.findSomeM_runs hrep' (List.Forall₂.cons hchild hbs) ?_
            intro m hm part' s'' w'' hgrows' hm'
            have hmem : m.2 ∈ page.children := by
              rw [Page.children, hbody]
              exact List.mem_map_of_mem (List.mem_append_right _ hm)
            have hlt := Realm.treeSize_lt hrep' hsub' hpage hmem
            exact ih (Realm.represents hgrows') (by omega) (Realm.subtree_grows hgrows' hm')

/-- A key cuts children where their keys are no longer less. -/
theorem below_cut {P : PageRef → List Entry → Prop} (hkeyed : Keyed P children parts)
    (hsorted : Sorted parts.flatten) (key : Value) :
    ∃ front back ps qs, children = front ++ back ∧ parts = ps ++ qs ∧ Keyed P front ps ∧
      below children key = front.length ∧ ∀ e ∈ qs.flatten, Value.compare e.1 key ≠ .lt := by
  obtain ⟨front, mid, rest, rfl, hfront, hrest, hmid⟩ :=
    Value.cut_of_pairwise Prod.fst (hkeyed.keys_lt hsorted) key
  have hback : ∀ b ∈ mid ++ rest, Value.compare b.1 key ≠ .lt := by
    intro b hb
    rcases List.mem_append.1 hb with hb | hb
    · rcases hmid with rfl | ⟨m, rfl, rfl⟩
      · cases hb
      · simp [List.mem_singleton.1 hb]
    · simp [hrest b hb]
  rw [List.append_assoc] at hkeyed ⊢
  obtain ⟨ps, qs, rfl, hps, hqs⟩ := Keyed.of_append hkeyed
  refine ⟨front, mid ++ rest, ps, qs, rfl, rfl, hps, ?_, ?_⟩
  · apply Bisection.boundary_append
    · intro a ha
      simp [hfront a ha]
    · intro b hb
      simpa using hback b hb
  · -- an entry is not less than the key that its child has
    intro e he hlt
    obtain ⟨part, hpart, he⟩ := List.mem_flatten.1 he
    obtain ⟨child, hchild, hkey, -⟩ := exists_of_forall₂_right hqs hpart
    rw [List.flatten_append] at hsorted
    have hle := head_key_le (sorted_of_mem_flatten (sorted_append.1 hsorted).2.1 hpart) hkey e he
    exact hback child hchild (Value.compare_lt_of_ne_gt_of_lt hle hlt)

theorem previousWithin_runs (hrep : Realm.Represents s w) (key : Value) (depth : Nat)
    (hdepth : r.treeSize < depth) (hsub : Realm.Subtree w height stem version r es) :
    Realm.Runs (previousWithin key depth r) s w
      fun found _ _ => found = Listing.previous? key es := by
  induction depth generalizing s w height version r es with
  | zero => exact absurd hdepth (Nat.not_lt_zero _)
  | succ depth ih =>
      have hsorted := Realm.sorted hsub
      unfold previousWithin
      refine Realm.bind (Realm.page_runs hrep hsub) ?_
      rintro page s' w' hgrows ⟨hpage, rfl, hversion, hholds⟩
      have hrep' := Realm.represents hgrows
      have hsub' := Realm.subtree_grows hgrows hsub
      cases height with
      | zero =>
          simp only [show page.body = .btreeLeaf es from hholds, previous?_eq hsorted]
          exact Realm.pure hrep' rfl
      | succ height =>
          obtain ⟨children, parts, hbody, hrow, rfl⟩ := hholds
          obtain ⟨front, back, ps, qs, rfl, rfl, hfront, hbelow, hback⟩ :=
            below_cut hrow hsorted key
          simp only [hbody, hbelow, List.take_left' rfl]
          rw [List.flatten_append, previous_append hback, previous_flatten]
          -- the children in front are searched from the last one to the first
          have hreversed : Row w' height page.stem page.version front.reverse ps.reverse :=
            List.rel_reverse hfront
          refine Row.findSomeM_runs hrep' hreversed ?_
          intro m hm part' s'' w'' hgrows' hm'
          have hmem : m.2 ∈ page.children := by
            rw [Page.children, hbody]
            exact List.mem_map_of_mem (List.mem_append_left _ (List.mem_reverse.1 hm))
          have hlt := Realm.treeSize_lt hrep' hsub' hpage hmem
          exact ih (Realm.represents hgrows') (by omega) (Realm.subtree_grows hgrows' hm')

/-! ## Whole trees -/

theorem indexOf_runs (hrep : Realm.Represents s w) (key : Value)
    (hroot : Root w stem version r es) :
    Realm.Runs (BTree.indexOf? r key) s w fun found _ _ => found = Listing.indexOf? key es := by
  obtain ⟨height, hsub⟩ := hroot
  apply Realm.get
  apply Realm.mono (indexWithin_runs hrep key _ 0 (s.treeSize_lt_depthBound r) hsub)
  rintro found s' w' - rfl
  simp

theorem entry_runs (hrep : Realm.Represents s w) (index : Nat) (hroot : Root w stem version r es) :
    Realm.Runs (BTree.entry? r index) s w fun found _ _ => found = es[index]? := by
  obtain ⟨height, hsub⟩ := hroot
  unfold BTree.entry?
  apply Realm.ite
  · intro hend
    rw [Realm.span hrep hsub] at hend
    exact Realm.pure hrep (List.getElem?_eq_none hend).symm
  · intro _
    exact Realm.get (entryWithin_runs hrep _ index (indexedDepthBound_lt s r index) hsub)

theorem first_runs (hrep : Realm.Represents s w) (hroot : Root w stem version r es) :
    Realm.Runs (BTree.first? r) s w fun found _ _ => found = es.head? := by
  obtain ⟨height, hsub⟩ := hroot
  exact Realm.get (firstWithin_runs hrep _ (s.treeSize_lt_depthBound r) hsub)

theorem last_runs (hrep : Realm.Represents s w) (hroot : Root w stem version r es) :
    Realm.Runs (BTree.last? r) s w fun found _ _ => found = es.getLast? := by
  obtain ⟨height, hsub⟩ := hroot
  exact Realm.get (lastWithin_runs hrep _ (s.treeSize_lt_depthBound r) hsub)

theorem next_runs (hrep : Realm.Represents s w) (key : Value) (hroot : Root w stem version r es) :
    Realm.Runs (BTree.next? r key) s w fun found _ _ => found = Listing.next? key es := by
  obtain ⟨height, hsub⟩ := hroot
  exact Realm.get (nextWithin_runs hrep key _ (s.treeSize_lt_depthBound r) hsub)

theorem previous_runs (hrep : Realm.Represents s w) (key : Value)
    (hroot : Root w stem version r es) :
    Realm.Runs (BTree.previous? r key) s w
      fun found _ _ => found = Listing.previous? key es := by
  obtain ⟨height, hsub⟩ := hroot
  exact Realm.get (previousWithin_runs hrep key _ (s.treeSize_lt_depthBound r) hsub)

end BTree

end PageTree
