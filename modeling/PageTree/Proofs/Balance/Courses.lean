import PageTree.Proofs.Balance.BTree
import PageTree.Proofs.Balance.QTree
import PageTree.Proofs.Balance.Sharing

/-!
# Cutting and growing come to an end

A page that is too large is cut, and so is each of its parts in turn; above a row of pages there is
put one level after another until a single page is left.  `Page.CutInto` and `Growing` are the
courses that this takes where nothing bounds the number of cuts or of levels.  Both come to an end
from whatever page or row they start with, at any split size, and what the bounded operations give
is just what is reached there (`pages_cut_and_rows_grow`).
-/

namespace PageTree

open StoreM
open Succeeding (Succeeds)

/-! ## Items in groups -/

/-- The items of a page, dealt out to groups: in order, or in a Q-tree so that each group keeps the
order.  Where there are items, no group is left without any. -/
structure TreeKind.Deals {α : Type} (kind : TreeKind) (items : List α) (groups : List (List α)) :
    Prop where
  alike : kind.Alike groups.flatten items
  sublist : ∀ group ∈ groups, group.Sublist items
  full : items ≠ [] → ∀ group ∈ groups, group ≠ []

theorem TreeKind.Alike.append {α : Type} {kind : TreeKind} {as bs as' bs' : List α}
    (halike : kind.Alike as bs) (halike' : kind.Alike as' bs') :
    kind.Alike (as ++ as') (bs ++ bs') := by
  cases kind
  · exact congrArg₂ (· ++ ·) halike halike'
  · exact congrArg₂ (· ++ ·) halike halike'
  · exact List.Perm.append halike halike'

namespace TreeKind.Deals

variable {α : Type} {kind : TreeKind} {items : List α} {groups : List (List α)}
  {nested : List (List (List α))}

theorem whole (items : List α) : kind.Deals items [items] where
  alike := .of_eq (by simp)
  sublist group hgroup := by
    obtain rfl := List.mem_singleton.1 hgroup
    exact List.Sublist.refl group
  full hne group hgroup := by
    obtain rfl := List.mem_singleton.1 hgroup
    exact hne

/-- Groups that are dealt out again. -/
theorem flatten (hdeals : kind.Deals items groups)
    (hnested : List.Forall₂ kind.Deals groups nested) : kind.Deals items nested.flatten where
  alike := by
    refine TreeKind.Alike.trans ?_ hdeals.alike
    clear hdeals
    induction hnested with
    | nil => exact .refl _
    | cons hgroup _ ih =>
        rw [List.flatten_cons, List.flatten_append, List.flatten_cons]
        exact hgroup.alike.append ih
  sublist part hpart := by
    obtain ⟨parts, hparts, hmem⟩ := List.mem_flatten.1 hpart
    obtain ⟨group, hgroup, hdealt⟩ := exists_of_forall₂_right hnested hparts
    exact (hdealt.sublist part hmem).trans (hdeals.sublist group hgroup)
  full hne part hpart := by
    obtain ⟨parts, hparts, hmem⟩ := List.mem_flatten.1 hpart
    obtain ⟨group, hgroup, hdealt⟩ := exists_of_forall₂_right hnested hparts
    exact hdealt.full (hdeals.full hne group hgroup) part hmem

/-- Two halves of several items. -/
theorem halves (hmany : 1 < items.length) :
    kind.Deals items [items.take (items.length / 2), items.drop (items.length / 2)] where
  alike := .of_eq (by simp)
  sublist group hgroup := (QTree.halves_distributes hmany).sublist group hgroup
  full _ group hgroup := (QTree.halves_distributes hmany).full group hgroup

theorem of_distributes (hdistributes : QTree.Distributes items groups) :
    TreeKind.qtree.Deals items groups :=
  ⟨hdistributes.perm, hdistributes.sublist, fun _ => hdistributes.full⟩

end TreeKind.Deals

/-! ## The course of cutting -/

section Cutting

variable {settings : Settings} {cut? : LivePage → Option (List LivePage)} {p : LivePage}
  {parts parts' : List LivePage}

/-- A page is cut, if it is too large and may be cut, and each of its pieces in turn. -/
inductive Page.CutInto (settings : Settings) (cut? : LivePage → Option (List LivePage)) :
    LivePage → List LivePage → Prop where
  | fits {p : LivePage} (fits : p.isOversized settings p.stored.size = false) :
      CutInto settings cut? p [p]
  | uncut {p : LivePage} (uncut : cut? p = none) : CutInto settings cut? p [p]
  | cut {p : LivePage} {pieces : List LivePage} {parts : List (List LivePage)}
      (oversized : p.isOversized settings p.stored.size = true) (split : cut? p = some pieces)
      (length : pieces.length = parts.length)
      (each : ∀ i h h', CutInto settings cut? (pieces.get ⟨i, h⟩) (parts.get ⟨i, h'⟩)) :
      CutInto settings cut? p parts.flatten

/-- What the parts of a page hold, by what the page holds. -/
def Page.DealtInto (p : LivePage) (parts : List LivePage) : Prop :=
  match p.body with
  | .btreeLeaf slots =>
    ∃ groups, parts.map Page.body = groups.map .btreeLeaf ∧ p.treeKind.Deals slots groups
  | .btreeNode children =>
    ∃ groups, parts.map Page.body = groups.map .btreeNode ∧ p.treeKind.Deals children groups
  | .utreeLeaf value => parts.map Page.body = [.utreeLeaf value]
  | .qtreeLeaf slots =>
    ∃ groups, parts.map Page.body = groups.map .qtreeLeaf ∧ p.treeKind.Deals slots groups
  | .qtreeNode children =>
    ∃ groups, parts.map Page.body = groups.map .qtreeNode ∧ p.treeKind.Deals children groups

/-- Cutting a page comes to an end, with parts that hold its items between them and cannot be cut
any more; of a node there are at most half as many as it has children. -/
structure Page.Sectioned (settings : Settings) (cut? : LivePage → Option (List LivePage))
    (p : LivePage) (parts : List LivePage) : Prop where
  course : ∀ parts', p.CutInto settings cut? parts' ↔ parts' = parts
  dealt : p.DealtInto parts
  compact : ∀ q ∈ parts, q.Compact settings
  few : p.isNode = true → 2 ≤ p.arity → parts.length ≤ p.arity / 2

namespace Page.CutInto

theorem of_forall₂ {pieces : List LivePage} {partss : List (List LivePage)}
    (hoversized : p.isOversized settings p.stored.size = true) (hpieces : cut? p = some pieces)
    (hall : List.Forall₂ (Page.CutInto settings cut?) pieces partss) :
    p.CutInto settings cut? partss.flatten := by
  obtain ⟨hlength, hget⟩ := List.forall₂_iff_get.1 hall
  exact .cut hoversized hpieces hlength hget

/-- All courses of cutting a page end with the same parts. -/
theorem unique (hcourse : p.CutInto settings cut? parts)
    (hcourse' : p.CutInto settings cut? parts') : parts' = parts := by
  induction hcourse generalizing parts' with
  | fits fits =>
      cases hcourse' with
      | fits | uncut => rfl
      | cut oversized => rw [fits] at oversized; cases oversized
  | uncut uncut =>
      cases hcourse' with
      | fits | uncut => rfl
      | cut _ split => rw [uncut] at split; cases split
  | cut oversized split length _ ih =>
      cases hcourse' with
      | fits fits => rw [fits] at oversized; cases oversized
      | uncut uncut => rw [uncut] at split; cases split
      | cut _ split' length' each' =>
          rw [split] at split'
          cases split'
          refine congrArg List.flatten (List.ext_get (length'.symm.trans length) fun i h h' => ?_)
          exact ih i (length ▸ h') h' (each' i (length ▸ h') h)

/-- If a cut deals out what a page of one sort holds, so does a course of cuts. -/
theorem deals {α : Type} {kind : TreeKind} {sort : List α → PageBody PageRef}
    (hcut : ∀ p items pieces, p.body = sort items → 1 < p.arity → cut? p = some pieces →
      ∃ groups, pieces.map Page.body = groups.map sort ∧ kind.Deals items groups)
    (hcourse : p.CutInto settings cut? parts) {items : List α} (hbody : p.body = sort items) :
    ∃ groups, parts.map Page.body = groups.map sort ∧ kind.Deals items groups := by
  induction hcourse generalizing items with
  | fits | uncut => exact ⟨[items], by simp [hbody], .whole items⟩
  | @cut p pieces parts oversized split length each ih =>
      obtain ⟨groups, hgroups, hdeals⟩ :=
        hcut p items pieces hbody (Page.one_lt_arity oversized) split
      have hall : List.Forall₂ (fun piece parts => ∀ items, Page.body piece = sort items →
          ∃ groups, parts.map Page.body = groups.map sort ∧ kind.Deals items groups)
          pieces parts :=
        List.forall₂_iff_get.2 ⟨length, fun i h h' _ hbody => ih i h h' hbody⟩
      clear length each ih split
      -- each piece holds a group, and its parts hold what that group is dealt out to
      suffices hnested : ∃ nested, parts.flatten.map Page.body = nested.flatten.map sort ∧
          List.Forall₂ kind.Deals groups nested by
        obtain ⟨nested, hbodies, hnested⟩ := hnested
        exact ⟨nested.flatten, hbodies, hdeals.flatten hnested⟩
      clear hdeals
      induction hall generalizing groups with
      | nil =>
          obtain rfl : groups = [] := by simpa using hgroups.symm
          exact ⟨[], rfl, .nil⟩
      | cons hpiece _ ihrest =>
          cases groups with
          | nil => cases hgroups
          | cons group groups =>
              rw [List.map_cons, List.map_cons, List.cons.injEq] at hgroups
              obtain ⟨first, hfirst, hdealt⟩ := hpiece group hgroups.1
              obtain ⟨nested, hrest, hnested⟩ := ihrest groups hgroups.2
              refine ⟨first :: nested, ?_, .cons hdealt hnested⟩
              rw [List.flatten_cons, List.map_append, hfirst, hrest, List.flatten_cons,
                List.map_append]

end Page.CutInto

end Cutting

/-! ## The course of growing -/

section Growth

variable {ρ : Type} {ref : ρ → PageRef} {level : List ρ → StoreM (List ρ)} {s s' s'' : Store}
  {row next top top' : List ρ}

/-- A level is put above a row for as long as there is more than one page in it. -/
inductive Growing (level : List ρ → StoreM (List ρ)) :
    Store → List ρ → Store → List ρ → Prop where
  | done {s : Store} {row : List ρ} (few : row.length ≤ 1) : Growing level s row s row
  | level {s s' s'' : Store} {row next top : List ρ} (many : 1 < row.length)
      (made : exec (level row) s = (.ok next, s')) (rest : Growing level s' next s'' top) :
      Growing level s row s'' top

/-- Growing above a row comes to an end with a single root, which leads back to the whole row, and
the bounded loop gives that root. -/
def GrowsUp (kind : TreeKind) (ref : ρ → PageRef) (level grow : List ρ → StoreM (List ρ))
    (s : Store) (row : List ρ) : Prop :=
  ∃ root s', exec (grow row) s = (.ok [root], s') ∧
    (∀ s'' top, Growing level s row s'' top ↔ s'' = s' ∧ top = [root]) ∧
    ∃ cut, s'.Unfolds [ref root] cut ∧ kind.Alike cut (row.map ref)

/-- All courses of growing end alike. -/
theorem Growing.unique {s₁ s₂ : Store} (hcourse : Growing level s row s₁ top)
    (hcourse' : Growing level s row s₂ top') : s₂ = s₁ ∧ top' = top := by
  induction hcourse generalizing s₂ top' with
  | done few =>
      cases hcourse' with
      | done => exact ⟨rfl, rfl⟩
      | level many => omega
  | level many made _ ih =>
      cases hcourse' with
      | done few => omega
      | level _ made' rest' =>
          rw [made] at made'
          cases made'
          exact ih rest'

/-- A level above several pages is made of new pages whose children they are, and it has fewer
pages. -/
structure Rises (kind : TreeKind) (ref : ρ → PageRef) (level : List ρ → StoreM (List ρ)) :
    Prop where
  made : ∀ row s, 1 < row.length → ∃ next s' pages, exec (level row) s = (.ok next, s') ∧
    next ≠ [] ∧ next.length < row.length ∧ List.Forall₂ s'.Made pages (next.map ref) ∧
    kind.Alike (pages.flatMap Page.children) (row.map ref) ∧ s.Keeps s'

/-- Growing ends within as many levels as there are pages, since each has fewer than the one
below. -/
theorem Rises.exists_growing {kind : TreeKind} (hrises : Rises kind ref level)
    {grow : Nat → List ρ → StoreM (List ρ)}
    (hgrow : ∀ levels row, grow (levels + 1) row =
      if row.length ≤ 1 then pure row else level row >>= grow levels)
    (levels : Nat) {cut : List PageRef} (hne : row ≠ []) (hlevels : row.length ≤ levels)
    (hunfolds : s.Unfolds (row.map ref) cut) :
    ∃ root s', exec (grow levels row) s = (.ok [root], s') ∧ Growing level s row s' [root] ∧
      ∃ cut', s'.Unfolds [ref root] cut' ∧ kind.Alike cut' cut := by
  induction levels generalizing s row cut with
  | zero => exact absurd (List.length_eq_zero_iff.1 (by omega)) hne
  | succ levels ih =>
      by_cases hfew : row.length ≤ 1
      · obtain ⟨root, rfl⟩ : ∃ root, row = [root] :=
          List.length_eq_one_iff.1 (by have := List.length_pos_iff.2 hne; omega)
        refine ⟨root, s, ?_, .done hfew, cut, by simpa using hunfolds, .refl cut⟩
        rw [hgrow, if_pos hfew, exec_pure]
      · obtain ⟨next, s', pages, hmade, hnext, hlt, hpages, halike, hkeeps⟩ :=
          hrises.made row s (by omega)
        -- what the row unfolds to is what the level above it unfolds to
        obtain ⟨cut', hcut', halike'⟩ := (hunfolds.keeps hkeeps).alike halike.symm
        obtain ⟨root, s'', hexec, hcourse, cut'', hcut'', halike''⟩ :=
          ih hnext (by omega) (.of_made hpages hcut')
        refine ⟨root, s'', ?_, .level (by omega) hmade hcourse, cut'', hcut'',
          halike''.trans halike'.symm⟩
        rw [hgrow, if_neg hfew, exec_bind, hmade]
        exact hexec

theorem Rises.growsUp {kind : TreeKind} (hrises : Rises kind ref level)
    {grow : Nat → List ρ → StoreM (List ρ)}
    (hgrow : ∀ levels row, grow (levels + 1) row =
      if row.length ≤ 1 then pure row else level row >>= grow levels)
    (s : Store) (hne : row ≠ []) :
    GrowsUp kind ref level (fun row => grow row.length row) s row := by
  obtain ⟨root, s', hexec, hcourse, hunfolds⟩ :=
    hrises.exists_growing hgrow row.length hne (Nat.le_refl _) (.refl (s := s) _)
  refine ⟨root, s', hexec, fun s'' top => ⟨hcourse.unique, ?_⟩, hunfolds⟩
  rintro ⟨rfl, rfl⟩
  exact hcourse

/-- A level rises if it is made of the parts of one node above the whole row. -/
theorem Rises.of_split {kind : TreeKind} {refsOf : List LivePage → StoreM (List ρ)}
    {split : Settings → List ρ → List LivePage}
    (hmakes : ∀ s pages, Succeeds (refsOf pages) s fun refs s' =>
      List.Forall₂ s'.Made pages (refs.map ref))
    (hsome : ∀ settings row, split settings row ≠ [])
    (hfew : ∀ settings row, 1 < row.length → (split settings row).length ≤ row.length / 2)
    (halike : ∀ settings row,
      kind.Alike ((split settings row).flatMap Page.children) (row.map ref)) :
    Rises kind ref fun row => do refsOf (split (← get).settings row) where
  made row s hmany := by
    obtain ⟨next, s', hexec, hkeeps, hmade⟩ := hmakes s (split s.settings row)
    have hlength : (split s.settings row).length = next.length := by
      rw [hmade.length_eq, List.length_map]
    refine ⟨next, s', _, by rw [exec_bind]; exact hexec, ?_, ?_, hmade, halike s.settings row,
      hkeeps⟩
    · rintro rfl
      exact hsome s.settings row (List.length_eq_zero_iff.1 hlength)
    · have := hfew s.settings row hmany
      omega

/-- Balancing a root cuts its page and lets the parts grow; what is left is to collapse the root
that they end with. -/
def Regrows (ref : ρ → PageRef) (level : List ρ → StoreM (List ρ))
    (refsOf : List LivePage → StoreM (List ρ)) (pages : List LivePage) (s : Store)
    (balanced : Except StoreError PageRef × Store) (collapse : PageRef → StoreM PageRef) : Prop :=
  ∃ parts s' root s'', exec (refsOf pages) s = (.ok parts, s') ∧
    Growing level s' parts s'' [root] ∧ balanced = exec (collapse (ref root)) s''

/-- The parts of an oversized root grow to a root that is then collapsed. -/
theorem Rises.regrows {kind : TreeKind} (hrises : Rises kind ref level)
    {grow : Nat → List ρ → StoreM (List ρ)}
    (hgrow : ∀ levels row, grow (levels + 1) row =
      if row.length ≤ 1 then pure row else level row >>= grow levels)
    {refsOf : List LivePage → StoreM (List ρ)} {pages : List LivePage}
    (hmakes : Succeeds (refsOf pages) s fun refs s' => List.Forall₂ s'.Made pages (refs.map ref))
    (hpages : pages ≠ []) {balanced : Except StoreError PageRef × Store}
    {collapse : PageRef → StoreM PageRef}
    (hbalanced : ∀ parts s' root s'', exec (refsOf pages) s = (.ok parts, s') →
      exec (grow parts.length parts) s' = (.ok [root], s'') →
        balanced = exec (collapse (ref root)) s'') :
    Regrows ref level refsOf pages s balanced collapse := by
  obtain ⟨parts, s', hexec, -, hmade⟩ := hmakes
  have hparts : parts ≠ [] := by
    rintro rfl
    exact hpages (List.length_eq_zero_iff.1 hmade.length_eq)
  obtain ⟨root, s'', hgrown, hcourse, -⟩ := hrises.growsUp hgrow s' hparts
  exact ⟨parts, s', root, s'', hexec, (hcourse _ _).2 ⟨rfl, rfl⟩, hbalanced _ _ _ _ hexec hgrown⟩

end Growth

/-- A new page is made, whatever memory holds. -/
theorem PageRef.ofPage_makes {s : Store} (p : LivePage) :
    Succeeds (ofPage p .absent) s fun r s' => s'.Made p r := by
  obtain ⟨hretains, hmade⟩ := ofPage_attains p _ _ (exec_ofPage p .absent s)
  exact ⟨_, _, exec_ofPage p .absent s, hretains.keeps, hmade⟩

variable {settings : Settings} {version stem : Nat} {p : LivePage} {s : Store}

/-! ## B-trees -/

namespace BTree

/-- The two halves of a page, if it may be cut. -/
def cut? (version : Nat) (p : LivePage) : Option (List LivePage) :=
  (halves? p.body).map fun (left, right) => [⟨version, p.stem, left⟩, ⟨version, p.stem, right⟩]

/-- The level above a row. -/
def level (version stem : Nat) (row : List (Value × PageRef)) :
    StoreM (List (Value × PageRef)) := do
  refsOf (split (← get).settings version ⟨version, stem, .btreeNode row⟩)

/-- As many cuts as there are slots or children are all that there is to do. -/
theorem splitWithin_cutInto (settings : Settings) (version cuts : Nat) (hcuts : p.arity ≤ cuts) :
    p.CutInto settings (cut? version) (splitWithin settings version cuts p) := by
  induction cuts generalizing p with
  | zero => exact .fits (by simp [Page.isOversized]; omega)
  | succ cuts ih =>
      unfold splitWithin
      split
      · next hoversized =>
          split
          · next left right hhalves =>
              obtain ⟨hleft, hright⟩ :=
                arity_halves_lt version p.stem hhalves (Page.one_lt_arity hoversized)
              -- either half has fewer items than the page, so fewer cuts are enough for it
              have hcourse : p.CutInto settings (cut? version) _ := .of_forall₂ hoversized
                (by rw [cut?, hhalves]; rfl)
                (.cons (ih (p := ⟨version, p.stem, left⟩) (by omega))
                  (.cons (ih (p := ⟨version, p.stem, right⟩) (by omega)) .nil))
              simpa using hcourse
          · next huncut => exact .uncut (by rw [cut?, huncut]; rfl)
      · next hfits => exact .fits (by simpa using hfits)

theorem cut_leaf {slots : List Entry} {pieces : List LivePage} (hbody : p.body = .btreeLeaf slots)
    (hmany : 1 < p.arity) (hcut : cut? version p = some pieces) :
    ∃ groups, pieces.map Page.body = groups.map .btreeLeaf ∧
      TreeKind.btree.Deals slots groups := by
  rw [cut?, hbody] at hcut
  cases hcut
  rw [Page.arity, hbody] at hmany
  exact ⟨_, rfl, .halves hmany⟩

theorem cut_node {children : List (Value × PageRef)} {pieces : List LivePage}
    (hbody : p.body = .btreeNode children) (hmany : 1 < p.arity)
    (hcut : cut? version p = some pieces) :
    ∃ groups, pieces.map Page.body = groups.map .btreeNode ∧
      TreeKind.btree.Deals children groups := by
  rw [cut?, hbody, Option.map_eq_some_iff] at hcut
  obtain ⟨⟨left, right⟩, hhalves, rfl⟩ := hcut
  obtain ⟨-, rfl, rfl⟩ := halves_node hhalves
  rw [Page.arity, hbody] at hmany
  exact ⟨_, rfl, .halves hmany⟩

/-- Any page of a B-tree is cut up. -/
theorem split_sectioned (settings : Settings) (version : Nat) (hkind : p.treeKind = .btree) :
    p.Sectioned settings (cut? version) (split settings version p) := by
  have hcourse := splitWithin_cutInto settings version p.arity (Nat.le_refl _)
  refine ⟨fun parts' => ⟨hcourse.unique, fun heq => heq ▸ hcourse⟩, ?_,
    splitWithin_compact settings version p.arity hkind (Nat.le_refl _), ?_⟩
  · unfold Page.DealtInto
    rw [hkind]
    split
    · next hbody => exact hcourse.deals (fun _ _ _ => cut_leaf) hbody
    · next hbody => exact hcourse.deals (fun _ _ _ => cut_node) hbody
    all_goals
      next hbody => rw [Page.treeKind, Page.kind, hbody] at hkind; cases hkind
  · intro hnode hmany
    obtain ⟨v, st, body⟩ := p
    cases body with
    | btreeNode children => exact length_splitWithin_le settings version _ v st children hmany
    | btreeLeaf => cases hnode
    | utreeLeaf | qtreeLeaf | qtreeNode => cases hkind

theorem refsOf_makes (pages : List LivePage) :
    Succeeds (refsOf pages) s fun refs s' => List.Forall₂ s'.Made pages (refs.map Prod.snd) := by
  have hall : Succeeds (refsOf pages) s fun refs s' =>
      List.Forall₂ (fun p child => s'.Made p child.2) pages refs := by
    refine Succeeding.listMapM pages (fun _ _ _ _ hkeeps hmade => hmade.keep hkeeps) ?_
    intro p _ s' _
    apply Succeeding.bind (PageRef.ofPage_makes p)
    exact fun r s'' _ hmade => Succeeding.pure hmade
  exact Succeeding.mono hall fun refs s' _ hmade => List.forall₂_map_right_iff.2 hmade

theorem rises (version stem : Nat) : Rises .btree Prod.snd (level version stem) :=
  .of_split (fun _ pages => refsOf_makes pages)
    (fun settings row => splitWithin_ne_nil settings version row.length _)
    (fun settings row => length_splitWithin_le settings version row.length version stem row)
    fun settings row => splitWithin_children settings version row.length _

theorem growWithin_succ (levels : Nat) (row : List (Value × PageRef)) :
    growWithin version stem (levels + 1) row =
      if row.length ≤ 1 then pure row
      else level version stem row >>= growWithin version stem levels := by
  rw [growWithin, level, bind_assoc]

/-- A root of a B-tree that is too large is cut, and grows until it is a single page again. -/
theorem balanced_regrows {r : PageRef} {page : LivePage} {s' : Store}
    (hpage : exec r.page s = (.ok page, s'))
    (hoversized : page.isOversized s'.settings r.pageSize = true) :
    Regrows Prod.snd (level version r.stem) refsOf (split s'.settings version page) s'
      (exec (balanced r version) s)
      (fun root => do collapseWithin version ((← get).depthBound root) root) := by
  refine (rises version r.stem).regrows growWithin_succ
    (refsOf_makes (split s'.settings version page))
    (splitWithin_ne_nil s'.settings version page.arity page) ?_
  intro parts s'' root s₃ hmade hgrown
  have hraised : exec (raised r version) s = (.ok root.2, s₃) := by
    rw [raised, exec_bind, hpage]
    change exec (if page.isOversized s'.settings r.pageSize = true then _ else _) s' = _
    rw [if_pos hoversized, exec_bind, hmade]
    change exec (growWithin version r.stem parts.length parts >>= _) s'' = _
    rw [exec_bind, hgrown]
    rfl
  rw [balanced_eq, exec_bind, hraised]

end BTree

/-! ## Q-trees -/

namespace QTree

/-- The parts of a page around its middle, or its halves, if it may be cut. -/
def cut? (version : Nat) (p : LivePage) : Option (List LivePage) :=
  (parts? (middle p) p.body).map fun bodies => bodies.map fun body => ⟨version, p.stem, body⟩

/-- The level above a row. -/
def level (version stem : Nat) (row : List PageRef) : StoreM (List PageRef) := do
  refsOf (split (← get).settings version ⟨version, stem, .qtreeNode row⟩)

/-- As many cuts as there are slots or children are all that there is to do. -/
theorem splitWithin_cutInto (settings : Settings) (version cuts : Nat) (hcuts : p.arity ≤ cuts) :
    p.CutInto settings (cut? version) (splitWithin settings version cuts p) := by
  induction cuts generalizing p with
  | zero => exact .fits (by simp [Page.isOversized]; omega)
  | succ cuts ih =>
      unfold splitWithin
      split
      · next hoversized =>
          split
          · next bodies hparts =>
              have hsmaller := part_smaller version hparts (Page.one_lt_arity hoversized)
              rw [List.flatMap_def]
              refine .of_forall₂ hoversized (by rw [cut?, hparts]; rfl) ?_
              rw [List.forall₂_map_left_iff, List.forall₂_map_right_iff, List.forall₂_same]
              intro body hbody
              -- a part may have as many items as the others together, but never all of them
              have hlt := (hsmaller body hbody).2
              exact ih (by omega)
          · next huncut => exact .uncut (by rw [cut?, huncut]; rfl)
      · next hfits => exact .fits (by simpa using hfits)

theorem cut_leaf {slots : List Slot} {pieces : List LivePage} (hbody : p.body = .qtreeLeaf slots)
    (hmany : 1 < p.arity) (hcut : cut? version p = some pieces) :
    ∃ groups, pieces.map Page.body = groups.map .qtreeLeaf ∧
      TreeKind.qtree.Deals slots groups := by
  rw [cut?, hbody, Option.map_eq_some_iff] at hcut
  obtain ⟨bodies, hparts, rfl⟩ := hcut
  rw [Page.arity, hbody] at hmany
  obtain ⟨groups, rfl, hdistributes⟩ := parts_leaf hparts hmany
  exact ⟨groups, by simp [Function.comp_def], .of_distributes hdistributes⟩

theorem cut_node {children : List PageRef} {pieces : List LivePage}
    (hbody : p.body = .qtreeNode children) (hcut : cut? version p = some pieces) :
    ∃ groups, pieces.map Page.body = groups.map .qtreeNode ∧
      TreeKind.qtree.Deals children groups := by
  rw [cut?, hbody, Option.map_eq_some_iff] at hcut
  obtain ⟨bodies, hparts, rfl⟩ := hcut
  obtain ⟨groups, rfl, hdistributes, -⟩ := parts_node hparts
  exact ⟨groups, by simp [Function.comp_def], .of_distributes hdistributes⟩

/-- Any page of a Q-tree is cut up. -/
theorem split_sectioned (settings : Settings) (version : Nat) (hkind : p.treeKind = .qtree) :
    p.Sectioned settings (cut? version) (split settings version p) := by
  have hcourse := splitWithin_cutInto settings version p.arity (Nat.le_refl _)
  refine ⟨fun parts' => ⟨hcourse.unique, fun heq => heq ▸ hcourse⟩, ?_,
    splitWithin_compact settings version p.arity hkind (Nat.le_refl _), ?_⟩
  · unfold Page.DealtInto
    rw [hkind]
    split
    · next hbody => rw [Page.treeKind, Page.kind, hbody] at hkind; cases hkind
    · next hbody => rw [Page.treeKind, Page.kind, hbody] at hkind; cases hkind
    · next hbody => rw [Page.treeKind, Page.kind, hbody] at hkind; cases hkind
    · next hbody => exact hcourse.deals (fun _ _ _ => cut_leaf) hbody
    · next hbody => exact hcourse.deals (fun _ _ _ hbody' _ => cut_node hbody') hbody
  · intro hnode hmany
    obtain ⟨v, st, body⟩ := p
    cases body with
    | qtreeNode children => exact length_splitWithin_le settings version _ v st children hmany
    | qtreeLeaf => cases hnode
    | utreeLeaf | btreeLeaf | btreeNode => cases hkind

theorem refsOf_makes (pages : List LivePage) :
    Succeeds (refsOf pages) s fun refs s' => List.Forall₂ s'.Made pages (refs.map id) := by
  simp only [List.map_id]
  exact Succeeding.listMapM pages (fun _ _ _ _ hkeeps hmade => hmade.keep hkeeps)
    fun p _ _ _ => PageRef.ofPage_makes p

theorem rises (version stem : Nat) : Rises .qtree id (level version stem) :=
  .of_split (fun _ pages => refsOf_makes pages)
    (fun settings row => splitWithin_ne_nil settings version row.length _)
    (fun settings row => length_splitWithin_le settings version row.length version stem row)
    fun settings row => by
      rw [List.map_id]
      exact splitWithin_children settings version row.length ⟨version, stem, .qtreeNode row⟩

theorem growWithin_succ (levels : Nat) (row : List PageRef) :
    growWithin version stem (levels + 1) row =
      if row.length ≤ 1 then pure row
      else level version stem row >>= growWithin version stem levels := by
  rw [growWithin, level, bind_assoc]

/-- A root of a Q-tree that is too large is cut, and grows until it is a single page again. -/
theorem balanced_regrows {r : PageRef} {page : LivePage} {s' : Store}
    (hpage : exec r.page s = (.ok page, s'))
    (hoversized : page.isOversized s'.settings r.pageSize = true) :
    Regrows id (level version r.stem) refsOf (split s'.settings version page) s'
      (exec (balanced r version) s)
      (fun root => do collapseWithin version ((← get).depthBound root) root) := by
  refine (rises version r.stem).regrows growWithin_succ
    (refsOf_makes (split s'.settings version page))
    (splitWithin_ne_nil s'.settings version page.arity page) ?_
  intro parts s'' root s₃ hmade hgrown
  have hraised : exec (raised r version) s = (.ok root, s₃) := by
    rw [raised, exec_bind, hpage]
    change exec (if page.isOversized s'.settings r.pageSize = true then _ else _) s' = _
    rw [if_pos hoversized, exec_bind, hmade]
    change exec (growWithin version r.stem parts.length parts >>= _) s'' = _
    rw [exec_bind, hgrown]
    rfl
  rw [balanced_eq, exec_bind, hraised]
  rfl

end QTree

/-! ## Any page, any row -/

/-- Whatever the split size, cutting a page of a B-tree or a Q-tree comes to an end with parts that
hold its items between them and that cannot be cut any more, and from a node of several children
come at most half as many.  So growing comes to an end too, above any row, with a single root over
all of it; and a root that is too large is balanced by cutting it, growing above its parts and
collapsing the root of that. -/
theorem pages_cut_and_rows_grow (settings : Settings) (version stem : Nat) :
    (∀ p : LivePage, p.treeKind = .btree →
      p.Sectioned settings (BTree.cut? version) (BTree.split settings version p)) ∧
    (∀ p : LivePage, p.treeKind = .qtree →
      p.Sectioned settings (QTree.cut? version) (QTree.split settings version p)) ∧
    (∀ s row, row ≠ [] → GrowsUp .btree Prod.snd (BTree.level version stem)
      (fun row => BTree.growWithin version stem row.length row) s row) ∧
    (∀ s row, row ≠ [] → GrowsUp .qtree id (QTree.level version stem)
      (fun row => QTree.growWithin version stem row.length row) s row) ∧
    ∀ r s page s', exec (PageRef.page r) s = (.ok page, s') →
      page.isOversized s'.settings r.pageSize = true →
      Regrows Prod.snd (BTree.level version r.stem) BTree.refsOf
        (BTree.split s'.settings version page) s' (exec (BTree.balanced r version) s)
        (fun root => do BTree.collapseWithin version ((← get).depthBound root) root) ∧
      Regrows id (QTree.level version r.stem) QTree.refsOf
        (QTree.split s'.settings version page) s' (exec (QTree.balanced r version) s)
        (fun root => do QTree.collapseWithin version ((← get).depthBound root) root) := by
  refine ⟨fun p hkind => BTree.split_sectioned settings version hkind,
    fun p hkind => QTree.split_sectioned settings version hkind, ?_, ?_, ?_⟩
  · exact fun s row hne => (BTree.rises version stem).growsUp BTree.growWithin_succ s hne
  · exact fun s row hne => (QTree.rises version stem).growsUp QTree.growWithin_succ s hne
  · exact fun r s page s' hpage hoversized =>
      ⟨BTree.balanced_regrows hpage hoversized, QTree.balanced_regrows hpage hoversized⟩

/-- A leaf of two entries, at a split size of 0, is cut into leaves of one entry. -/
theorem pages_cut_and_rows_grow_two :
    (⟨2, 1, .btreeLeaf [(.int 1, .int 10), (.int 2, .int 20)]⟩ : LivePage).Sectioned
      { Settings.standard with pageSplitSize := 0 } (BTree.cut? 3)
      [⟨3, 1, .btreeLeaf [(.int 1, .int 10)]⟩, ⟨3, 1, .btreeLeaf [(.int 2, .int 20)]⟩] :=
  (pages_cut_and_rows_grow { Settings.standard with pageSplitSize := 0 } 3 1).1 _ rfl

end PageTree
