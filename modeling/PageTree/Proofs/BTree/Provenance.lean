import PageTree.Proofs.BTree.Refinement
import PageTree.Proofs.Throughout

/-!
# Where the pages of a changed B-tree come from

A change of a B-tree makes pages at its own version and takes over all others as they are.  So what
holds of all shapes at this version, and throughout the tree before, holds throughout the tree
afterwards (`Change.apply_vetted`), however pages are split, merged, put above the root or removed
from there.
-/

namespace PageTree
namespace BTree

open StoreM

variable {P : Nat → PageBody Unit → Prop} {s : Store} {c c' : Chart} {stem version depth : Nat}
  {r child : PageRef} {p q : LivePage} {children : List (Value × PageRef)}

/-- Children that can stand below a page of a stem and a version, each vetted. -/
def Lineage (P : Nat → PageBody Unit → Prop) (c : Chart) (stem version : Nat)
    (children : List (Value × PageRef)) : Prop :=
  ∀ child ∈ children, c.Vetted P .btree stem version child.2

theorem Lineage.mono (hle : c ≤ c') (hchildren : Lineage P c stem version children) :
    Lineage P c' stem version children :=
  fun child hmem => (hchildren child hmem).mono hle

theorem Lineage.sub {children' : List (Value × PageRef)}
    (hchildren : Lineage P c stem version children) (hsub : children' ⊆ children) :
    Lineage P c stem version children' :=
  fun child hmem => hchildren child (hsub hmem)

/-- The children of a vetted node. -/
theorem Lineage.of_page (hvetted : Page.Vetted P c .btree stem version p)
    (hbody : p.body = .btreeNode children) : Lineage P c stem version children := by
  intro child hmem
  refine hvetted.child ?_
  rw [Page.children_eq, hbody]
  exact List.mem_map_of_mem hmem

/-- A node over vetted children. -/
theorem Lineage.node (hP : ∀ shape, P version shape)
    (hchildren : Lineage P c stem version children) :
    Page.Vetted P c .btree stem version ⟨version, stem, .btreeNode children⟩ := by
  refine .of_children hP rfl fun m hm => ?_
  obtain ⟨child, hmem, rfl⟩ := List.mem_map.1 hm
  exact hchildren child hmem

/-- A new leaf. -/
theorem vetted_leaf (hP : ∀ shape, P version shape) (slots : List Entry) :
    Page.Vetted P c .btree stem version ⟨version, stem, .btreeLeaf slots⟩ :=
  .of_children hP rfl fun _ hm => absurd hm List.not_mem_nil

/-! ## Splitting and merging -/

/-- The halves of a page are of its kind, over its children. -/
theorem children_of_halves {body left right : PageBody PageRef} (v st : Nat)
    (hhalves : halves? body = some (left, right)) :
    ((⟨v, st, left⟩ : LivePage).treeKind = .btree ∧ left.children ⊆ body.children) ∧
      (⟨v, st, right⟩ : LivePage).treeKind = .btree ∧ right.children ⊆ body.children := by
  cases body with
  | btreeLeaf slots =>
      cases hhalves
      exact ⟨⟨rfl, List.Subset.refl _⟩, rfl, List.Subset.refl _⟩
  | btreeNode children =>
      obtain ⟨-, rfl, rfl⟩ := halves_node hhalves
      exact ⟨⟨rfl, List.map_subset _ (List.take_subset _ _)⟩, rfl,
        List.map_subset _ (List.drop_subset _ _)⟩
  | utreeLeaf | qtreeLeaf | qtreeNode => cases hhalves

theorem splitWithin_vetted (hP : ∀ shape, P version shape) (settings : Settings) (cuts : Nat)
    (hvetted : Page.Vetted P c .btree stem version p) :
    ∀ q ∈ splitWithin settings version cuts p, Page.Vetted P c .btree stem version q := by
  induction cuts generalizing p with
  | zero => exact fun q hq => List.mem_singleton.1 hq ▸ hvetted
  | succ cuts ih =>
      unfold splitWithin
      split
      · split
        · next left right hhalves =>
            have hbody : ∀ m ∈ p.body.children, c.Vetted P .btree stem version m := fun m hm =>
              hvetted.child (by rwa [Page.children_eq])
            obtain ⟨⟨hkind, hsub⟩, hkind', hsub'⟩ := children_of_halves version p.stem hhalves
            rw [hvetted.stem_eq] at hkind hkind' ⊢
            rw [List.forall_mem_append]
            exact ⟨ih (.of_children hP hkind fun m hm => hbody m (hsub hm)),
              ih (.of_children hP hkind' fun m hm => hbody m (hsub' hm))⟩
        · exact fun q hq => List.mem_singleton.1 hq ▸ hvetted
      · exact fun q hq => List.mem_singleton.1 hq ▸ hvetted

theorem split_vetted (hP : ∀ shape, P version shape) (settings : Settings)
    (hvetted : Page.Vetted P c .btree stem version p) :
    ∀ q ∈ split settings version p, Page.Vetted P c .btree stem version q :=
  splitWithin_vetted hP settings p.arity hvetted

/-- Two pages in one are over the children of both. -/
theorem mem_mergePages (version : Nat) {m : PageRef}
    (hm : m ∈ (mergePages p q version).body.children) : m ∈ p.children ∨ m ∈ q.children := by
  obtain ⟨v, st, body⟩ := p
  obtain ⟨v', st', body'⟩ := q
  cases body with
  | btreeNode as =>
      cases body' with
      | btreeNode bs =>
          have hm' : m ∈ (as ++ bs).map Prod.snd := hm
          rwa [List.map_append, List.mem_append] at hm'
      | _ => exact Or.inl hm
  | btreeLeaf => cases body' <;> cases hm
  | _ => exact Or.inl hm

theorem treeKind_mergePages : (mergePages p q version).treeKind = p.treeKind := by
  obtain ⟨v, st, body⟩ := p
  obtain ⟨v', st', body'⟩ := q
  cases body <;> cases body' <;> rfl

theorem mergePages_vetted (hP : ∀ shape, P version shape)
    (hp : Page.Vetted P c .btree stem version p) (hq : Page.Vetted P c .btree stem version q) :
    Page.Vetted P c .btree stem version (mergePages p q version) := by
  obtain rfl := hp.stem_eq
  refine .of_children hP (treeKind_mergePages.trans hp.treeKind_eq) fun m hm => ?_
  exact (mem_mergePages version hm).elim hp.child hq.child

/-- References to vetted pages. -/
theorem refsOf_vetted (hrep : Represents s c) {pages : List LivePage}
    (hpages : ∀ p ∈ pages, Page.Vetted P c .btree stem version p) :
    Runs (refsOf pages) s c fun refs _ c' => Lineage P c' stem version refs := by
  unfold refsOf
  refine (Runs.listMapM (R := fun _ child _ c' => c'.Vetted P .btree stem version child.2) hrep
    pages ?_ ?_).mono ?_
  · exact fun _ _ _ _ _ _ hgrows hchild => hchild.mono hgrows.le
  · intro p hp s' c' hgrows
    refine Runs.bind (PageRef.ofPage_vetted hgrows.represents ((hpages p hp).mono hgrows.le)) ?_
    exact fun r s'' c'' hgrows' hr => Runs.pure hgrows'.represents hr
  · intro refs s' c' _ hall child hmem
    obtain ⟨_, -, hchild⟩ := exists_of_forall₂_right hall hmem
    exact hchild

/-! ## Balancing -/

theorem splice_subset {α : Type} {items parts : List α} {lo hi : Nat} {a : α}
    (hmem : a ∈ splice items lo hi parts) : a ∈ items ∨ a ∈ parts := by
  simp only [splice, List.mem_append] at hmem
  rcases hmem with (hfront | hparts) | hback
  · exact Or.inl (List.take_subset _ _ hfront)
  · exact Or.inr hparts
  · exact Or.inl (List.drop_subset _ _ hback)

/-- The parts of a page take the place of some children. -/
theorem replace_vetted (hP : ∀ shape, P version shape) (hrep : Represents s c)
    (settings : Settings) (lo hi : Nat) (hchildren : Lineage P c stem version children)
    (hp : Page.Vetted P c .btree stem version p) :
    Runs (do return splice children lo hi (← refsOf (split settings version p))) s c
      fun children' _ c' => Lineage P c' stem version children' := by
  refine Runs.bind (refsOf_vetted hrep (split_vetted hP settings hp)) ?_
  intro refs s' c' hgrows hrefs
  refine Runs.pure hgrows.represents fun child hmem => ?_
  exact (splice_subset hmem).elim (hchildren.mono hgrows.le child) (hrefs child)

theorem rebalanceChild_vetted (hP : ∀ shape, P version shape) (hrep : Represents s c) (index : Nat)
    (hchildren : Lineage P c stem version children)
    (hchild : c.Vetted P .btree stem version child) :
    Runs (rebalanceChild children index child version) s c fun children' _ c' =>
      Lineage P c' stem version children' := by
  -- whatever is made here is of the version, so only the references that stay need to be vetted
  unfold rebalanceChild
  refine Runs.ite ?_ ?_
  · intro _
    exact Runs.pure hrep (hchildren.sub fun _ => List.mem_of_mem_eraseIdx)
  · intro _
    refine Runs.bind (PageRef.page_vetted hrep hchild) ?_
    rintro page s' c' hgrows ⟨-, hpage⟩
    have hrep' := hgrows.represents
    have hchildren' := hchildren.mono hgrows.le
    refine Runs.get ?_
    dsimp only
    refine Runs.ite ?_ ?_
    · intro _
      split
      · next key sibling hsibling =>
          have hmem := List.mem_of_getElem? hsibling
          refine Runs.bind (PageRef.page_vetted hrep' (hchildren' _ hmem)) ?_
          rintro page' s'' c'' hgrows' ⟨-, hpage'⟩
          refine replace_vetted hP hgrows'.represents _ _ _ (hchildren'.mono hgrows'.le) ?_
          split
          · exact mergePages_vetted hP hpage' (hpage.mono hgrows'.le)
          · exact mergePages_vetted hP (hpage.mono hgrows'.le) hpage'
      · exact Runs.pure hrep' hchildren'
    · intro _
      refine Runs.ite ?_ ?_
      · intro _
        exact replace_vetted hP hrep' _ index index hchildren' hpage
      · intro _
        refine Runs.pure hrep' fun child' hmem => ?_
        rcases List.mem_or_eq_of_mem_set hmem with hold | rfl
        · exact hchildren' child' hold
        · exact hchild.mono hgrows.le

theorem growWithin_vetted (hP : ∀ shape, P version shape) (hrep : Represents s c) (levels : Nat)
    (hchildren : Lineage P c stem version children) :
    Runs (growWithin version stem levels children) s c fun grown _ c' =>
      Lineage P c' stem version grown := by
  induction levels generalizing s c children with
  | zero => exact Runs.pure hrep hchildren
  | succ levels ih =>
      unfold growWithin
      refine Runs.ite ?_ ?_
      · intro _
        exact Runs.pure hrep hchildren
      · intro _
        refine Runs.get (Runs.bind (refsOf_vetted hrep (split_vetted hP _ (hchildren.node hP))) ?_)
        exact fun refs s' c' hgrows hrefs => ih hgrows.represents hrefs

/-- An empty page in place of all entries. -/
theorem ofPage_empty_vetted (hP : ∀ shape, P version shape) (hrep : Represents s c) :
    Runs (PageRef.ofPage (.empty .btree stem version) .absent) s c fun r _ c' =>
      c'.Vetted P .btree stem version r :=
  PageRef.ofPage_vetted hrep (vetted_leaf hP [])

theorem collapseWithin_vetted (hP : ∀ shape, P version shape) (hrep : Represents s c)
    (hdepth : r.treeSize < depth) (hr : c.Vetted P .btree stem version r) :
    Runs (collapseWithin version depth r) s c fun r' _ c' =>
      c'.Vetted P .btree stem version r' := by
  induction depth generalizing s c r with
  | zero => exact absurd hdepth (Nat.not_lt_zero _)
  | succ depth ih =>
      unfold collapseWithin
      refine Runs.bind (PageRef.page_vetted hrep hr) ?_
      rintro page s' c' hgrows ⟨hat, hpage⟩
      have hrep' := hgrows.represents
      have hr' := hr.mono hgrows.le
      split
      · next key child hbody =>
          have hmem : child ∈ page.children := by simp [Page.children, hbody]
          have hlt := hrep'.treeSize_lt hr'.fit.refs hat hmem
          exact ih hrep' (by omega) (hpage.child hmem)
      · rw [hrep'.stem_eq hr'.fit]
        exact ofPage_empty_vetted hP hrep'
      · exact Runs.pure hrep' hr'

theorem balanced_vetted (hP : ∀ shape, P version shape) (hrep : Represents s c)
    (hr : c.Vetted P .btree stem version r) :
    Runs (balanced r version) s c fun r' _ c' => c'.Vetted P .btree stem version r' := by
  unfold balanced
  refine Runs.bind (PageRef.page_vetted hrep hr) ?_
  rintro page s' c' hgrows ⟨-, hpage⟩
  have hr' := hr.mono hgrows.le
  refine Runs.get ?_
  dsimp only
  have htail : ∀ r' s'' c'', Represents s'' c'' → c''.Vetted P .btree stem version r' →
      Runs (do collapseWithin version ((← get).depthBound r') r') s'' c''
        fun r'' _ c₃ => c₃.Vetted P .btree stem version r'' := fun r' s'' c'' hrep'' hr'' =>
    Runs.get (collapseWithin_vetted hP hrep'' (Store.treeSize_lt_depthBound _ _) hr'')
  split
  · refine Runs.bind (refsOf_vetted hgrows.represents (split_vetted hP _ hpage)) ?_
    intro refs s'' c'' hgrows' hrefs
    rw [hgrows.represents.stem_eq hr'.fit]
    refine Runs.bind (growWithin_vetted hP hgrows'.represents _ hrefs) ?_
    intro grown s₃ c₃ hgrows'' hgrown
    refine htail _ s₃ c₃ hgrows''.represents ?_
    -- growing leaves a root, and if it did not the old one would stay
    cases hlast : grown.getLast? with
    | none => exact (hr'.mono hgrows'.le).mono hgrows''.le
    | some last => exact hgrown last (List.mem_of_getLast? hlast)
  · exact htail r s' c' hgrows.represents hr'

/-! ## Changing entries -/

theorem newLeaf_vetted (hP : ∀ shape, P version shape) (hrep : Represents s c)
    (slots : List Entry) :
    Runs (newLeaf version stem slots) s c fun r _ c' => c'.Vetted P .btree stem version r :=
  PageRef.ofPage_vetted hrep (vetted_leaf hP slots)

theorem newNode_vetted (hP : ∀ shape, P version shape) (hrep : Represents s c)
    (hchildren : Lineage P c stem version children) :
    Runs (newNode version stem children) s c fun r _ c' => c'.Vetted P .btree stem version r :=
  PageRef.ofPage_vetted hrep (hchildren.node hP)

/-- A node one of whose children has been rebuilt. -/
theorem rebuiltNode_vetted (hP : ∀ shape, P version shape) (hrep : Represents s c) (index : Nat)
    (hchildren : Lineage P c stem version children)
    (hchild : c.Vetted P .btree stem version child) :
    Runs (do newNode version stem (← rebalanceChild children index child version)) s c
      fun r _ c' => c'.Vetted P .btree stem version r := by
  refine Runs.bind (rebalanceChild_vetted hP hrep index hchildren hchild) ?_
  exact fun children' s' c' hgrows hchildren' => newNode_vetted hP hgrows.represents hchildren'

theorem updatedWithin_vetted (hP : ∀ shape, P version shape) (key value : Value)
    (hrep : Represents s c) (hdepth : r.treeSize < depth)
    (hr : c.Vetted P .btree stem version r) :
    Runs (updatedWithin key value version depth r) s c fun r' _ c' =>
      c'.Vetted P .btree stem version r' := by
  induction depth generalizing s c r with
  | zero => exact absurd hdepth (Nat.not_lt_zero _)
  | succ depth ih =>
      unfold updatedWithin
      refine Runs.bind (PageRef.page_vetted hrep hr) ?_
      rintro page s' c' hgrows ⟨hat, hpage⟩
      have hrep' := hgrows.represents
      have hr' := hr.mono hgrows.le
      rw [hpage.stem_eq]
      split
      · refine Runs.ite (fun _ => Runs.pure hrep' hr') fun _ => ?_
        exact newLeaf_vetted hP hrep' _
      · next first rest hbody =>
          have hlineage := Lineage.of_page hpage hbody
          have hmem := getD_mem_cons first rest (childIndex (first :: rest) key)
          have hbelow : ((first :: rest).getD (childIndex (first :: rest) key) first).2 ∈
              page.children := by
            rw [Page.children_eq, hbody]
            exact List.mem_map_of_mem hmem
          have hlt := hrep'.treeSize_lt hr'.fit.refs hat hbelow
          refine Runs.bind (ih hrep' (by omega) (hlineage _ hmem)) ?_
          intro rebuilt s'' c'' hgrows' hrebuilt
          refine Runs.ite (fun _ => Runs.pure hgrows'.represents (hr'.mono hgrows'.le)) fun _ => ?_
          exact rebuiltNode_vetted hP hgrows'.represents _ (hlineage.mono hgrows'.le) hrebuilt
      · exact Runs.ite (fun _ => newLeaf_vetted hP hrep' _) fun _ => Runs.pure hrep' hr'

/-- A cut at an index leaves the children in two stretches. -/
theorem cut_append (children : List (Value × PageRef)) (index : Nat) :
    (cut children index).1 ++ (cut children index).2.1 = children := by
  induction children generalizing index with
  | nil => rfl
  | cons child children ih =>
      unfold cut
      split
      · exact congrArg (child :: ·) (ih _)
      · rfl

theorem droppedWithin_vetted (hP : ∀ shape, P version shape) (lower : Nat)
    (hrep : Represents s c) (hdepth : r.treeSize < depth)
    (hr : c.Vetted P .btree stem version r) :
    Runs (droppedWithin version depth r lower) s c fun r' _ c' =>
      c'.Vetted P .btree stem version r' := by
  induction depth generalizing s c r lower with
  | zero => exact absurd hdepth (Nat.not_lt_zero _)
  | succ depth ih =>
      unfold droppedWithin
      refine Runs.ite (fun _ => Runs.pure hrep hr) fun _ => ?_
      refine Runs.ite ?_ fun _ => ?_
      · intro _
        rw [hrep.stem_eq hr.fit]
        exact (ofPage_empty_vetted hP hrep).mono fun _ _ _ _ hpost => hpost
      · refine Runs.bind (PageRef.page_vetted hrep hr) ?_
        rintro page s' c' hgrows ⟨hat, hpage⟩
        have hrep' := hgrows.represents
        have hr' := hr.mono hgrows.le
        rw [hpage.stem_eq]
        split
        · exact newLeaf_vetted hP hrep' _
        · next children hbody =>
            have happend := cut_append children lower
            generalize cut children lower = parts at happend ⊢
            obtain ⟨before, rest, remaining⟩ := parts
            dsimp only at happend ⊢
            -- the children that are cut off are gone, so the others are all there is to vet
            have hlineage : Lineage P c' stem version rest := by
              refine (Lineage.of_page hpage hbody).sub ?_
              rw [← happend]
              exact List.subset_append_right _ _
            split
            · next key child rest' =>
                refine Runs.ite (fun _ => newNode_vetted hP hrep' hlineage) fun _ => ?_
                have hbelow : child ∈ page.children := by
                  simp [Page.children, hbody, ← happend]
                have hlt := hrep'.treeSize_lt hr'.fit.refs hat hbelow
                refine Runs.bind (ih remaining hrep' (by omega) (hpage.child hbelow)) ?_
                intro rebuilt s'' c'' hgrows' hrebuilt
                exact rebuiltNode_vetted hP hgrows'.represents 0 (hlineage.mono hgrows'.le) hrebuilt
            · exact newNode_vetted hP hrep' hlineage
        · exact Runs.pure hrep' hr'

theorem takenWithin_vetted (hP : ∀ shape, P version shape) (upper : Nat)
    (hrep : Represents s c) (hdepth : r.treeSize < depth)
    (hr : c.Vetted P .btree stem version r) :
    Runs (takenWithin version depth r upper) s c fun r' _ c' =>
      c'.Vetted P .btree stem version r' := by
  induction depth generalizing s c r upper with
  | zero => exact absurd hdepth (Nat.not_lt_zero _)
  | succ depth ih =>
      unfold takenWithin
      refine Runs.ite (fun _ => Runs.pure hrep hr) fun _ => ?_
      refine Runs.ite ?_ fun _ => ?_
      · intro _
        rw [hrep.stem_eq hr.fit]
        exact (ofPage_empty_vetted hP hrep).mono fun _ _ _ _ hpost => hpost
      · refine Runs.bind (PageRef.page_vetted hrep hr) ?_
        rintro page s' c' hgrows ⟨hat, hpage⟩
        have hrep' := hgrows.represents
        have hr' := hr.mono hgrows.le
        rw [hpage.stem_eq]
        split
        · exact newLeaf_vetted hP hrep' _
        · next children hbody =>
            have happend := cut_append children upper
            generalize cut children upper = parts at happend ⊢
            obtain ⟨kept, rest, remaining⟩ := parts
            dsimp only at happend ⊢
            have hlineage := Lineage.of_page hpage hbody
            rw [← happend] at hlineage
            have hkept := hlineage.sub (List.subset_append_left _ _)
            split
            · next child rest' =>
                refine Runs.ite (fun _ => newNode_vetted hP hrep' hkept) fun _ => ?_
                have hbelow : child.2 ∈ page.children := by
                  simp [Page.children, hbody, ← happend]
                have hlt := hrep'.treeSize_lt hr'.fit.refs hat hbelow
                refine Runs.bind (ih remaining hrep' (by omega) (hpage.child hbelow)) ?_
                intro rebuilt s'' c'' hgrows' hrebuilt
                refine rebuiltNode_vetted hP hgrows'.represents kept.length ?_ hrebuilt
                refine (hlineage.mono hgrows'.le).sub ?_
                rw [List.append_cons kept child rest']
                exact List.subset_append_left _ _
            · exact newNode_vetted hP hrep' hkept
        · exact Runs.pure hrep' hr'

/-! ## Trees -/

/-- A B-tree none of whose pages is newer than a version, with a property of all its pages. -/
structure Vetted (P : Nat → PageBody Unit → Prop) (c : Chart) (version : Nat) (t : Tree) :
    Prop where
  kind : t.seed.kind = .btree
  root : c.Vetted P .btree t.seed.stem version t.root

variable {t t' : Tree} {version' : Nat}

theorem Vetted.mono (hle : c ≤ c') (ht : Vetted P c version t) : Vetted P c' version t :=
  ⟨ht.kind, ht.root.mono hle⟩

theorem Vetted.raise (ht : Vetted P c version t) (hle : version ≤ version') :
    Vetted P c version' t :=
  ⟨ht.kind, ht.root.raise hle⟩

theorem Vetted.withRoot (ht : Vetted P c version t)
    (hr : c.Vetted P .btree t.seed.stem version r) : Vetted P c version (t.withRoot r) := by
  unfold Tree.withRoot
  split
  · exact ht
  · exact ⟨ht.kind, hr⟩

/-- A new root is put in place of the old one. -/
theorem Vetted.withRoot_runs {m : StoreM PageRef} (ht : Vetted P c version t)
    (hm : Runs m s c fun r _ c' => c'.Vetted P .btree t.seed.stem version r) :
    Runs (do return t.withRoot (← m)) s c fun t' _ c' => Vetted P c' version t' := by
  refine Runs.bind hm ?_
  intro r s' c' hgrows hr
  exact Runs.pure hgrows.represents ((ht.mono hgrows.le).withRoot hr)

theorem evacuated_vetted (hP : ∀ shape, P version shape) (hrep : Represents s c) (post : Nat)
    (hr : c.Vetted P .btree stem version r) :
    Runs (r.evacuated post version) s c fun r' _ c' => c'.Vetted P .btree stem version r' :=
  (PageRef.evacuated_keeps (Chart.Throughout.inherited hP) hrep post hr.fit hr.throughout).mono
    fun _ _ _ _ hpost => ⟨hpost.1.fit, hpost.2⟩

/-- Folding values keeps what holds throughout. -/
theorem Vetted.reduced_runs (hP : ∀ shape, P version shape) (hrep : Represents s c)
    (ht : Vetted P c version t) {f : PageRef.Folding} (hf : c.foldings f) :
    Runs (t.reduced f version) s c fun t' _ c' => Vetted P c' version t' :=
  ht.withRoot_runs ((PageRef.reduced_keeps (Chart.Throughout.inherited hP) hrep hf ht.root.fit
    ht.root.throughout).mono fun _ _ _ _ hpost => ⟨hpost.1.1.fit, hpost.2⟩)

/-- Moving pages out of old zones keeps what holds throughout. -/
theorem Vetted.evacuated_runs (hP : ∀ shape, P version shape) (hrep : Represents s c) (post : Nat)
    (ht : Vetted P c version t) :
    Runs (t.evacuated post version) s c fun t' _ c' => Vetted P c' version t' :=
  ht.withRoot_runs (evacuated_vetted hP hrep post ht.root)

theorem Vetted.rebalanced_runs (hP : ∀ shape, P version shape) (hrep : Represents s c)
    (post : Nat) (ht : Vetted P c version t) (hr : c.Vetted P .btree t.seed.stem version r) :
    Runs (rebalanced t r version post) s c fun t' _ c' => Vetted P c' version t' := by
  unfold rebalanced
  refine Runs.ite (fun _ => Runs.pure hrep ht) fun _ => ?_
  refine Runs.bind (balanced_vetted hP hrep hr) ?_
  intro r' s' c' hgrows hr'
  exact (ht.mono hgrows.le).withRoot_runs (evacuated_vetted hP hgrows.represents post hr')

theorem Vetted.cleared_runs (hP : ∀ shape, P version shape) (hrep : Represents s c)
    (ht : Vetted P c version t) :
    Runs (t.cleared version) s c fun t' _ c' => Vetted P c' version t' := by
  refine (Tree.cleared_cases hrep ht.root.fit.refs version).mono ?_
  rintro t' s' c' hgrows (⟨rfl, -⟩ | ⟨r, rfl, hmade⟩)
  · exact ht.mono hgrows.le
  · rw [Tree.kind, ht.kind] at hmade
    exact ⟨ht.kind, hmade.fit, .of_made hP hmade rfl fun m hm => absurd hm List.not_mem_nil⟩

/-- A change of a tree keeps what holds throughout, if it holds of all shapes at its version. -/
theorem Change.apply_vetted (hP : ∀ shape, P version shape) (hrep : Represents s c)
    (ht : Vetted P c version t) (post : Nat) (change : Change) :
    Runs (change.apply t version post) s c fun t' _ c' => Vetted P c' version t' := by
  have htail : ∀ (m : StoreM PageRef),
      (Runs m s c fun r _ c' => c'.Vetted P .btree t.seed.stem version r) →
      Runs (do rebalanced t (← m) version post) s c fun t' _ c' => Vetted P c' version t' :=
    fun m hm => Runs.bind hm fun r s' c' hgrows hr =>
      (ht.mono hgrows.le).rebalanced_runs hP hgrows.represents post hr
  have hupdated : ∀ key value, Runs (updated t.root key value version) s c fun r _ c' =>
      c'.Vetted P .btree t.seed.stem version r := fun key value =>
    Runs.get (updatedWithin_vetted hP key value hrep (Store.treeSize_lt_depthBound _ _) ht.root)
  cases change with
  | update key value => exact htail _ (hupdated key value)
  | remove key => exact htail _ (hupdated key .absent)
  | drop lower =>
      exact htail _ (Runs.get
        (droppedWithin_vetted hP lower hrep (indexedDepthBound_lt s t.root lower) ht.root))
  | take upper =>
      exact htail _ (Runs.get
        (takenWithin_vetted hP upper hrep (indexedDepthBound_lt s t.root upper) ht.root))
  | clear => exact ht.cleared_runs hP hrep

end BTree
end PageTree
