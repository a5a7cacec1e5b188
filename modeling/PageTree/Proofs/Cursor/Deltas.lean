import Mathlib.Data.List.Flatten
import PageTree.Folding
import PageTree.Proofs.BTree.Derived
import PageTree.Proofs.Cursor.Mirrors
import PageTree.Proofs.Surveys

/-!
# What a delta cursor yields

A delta cursor yields what the leaves hold that have been written after a version
(`Cursor.delta_runs`).  It may pass over every subtree with an old root, because no page is newer
than the one above it.  What old leaves hold, the tree had before: whatever treatments lead from a
tree to another, a delta cursor since the version of the first tree yields every entry of the second
that the first does not have (`BTree.derived_delta`).
-/

namespace PageTree

open StoreM

variable {ι : Type} {P : Nat → PageBody Unit → Prop} {s : Store} {c : Chart} {n : Site}
  {since : Nat} {found : List (Site × Page Header)}

/-! ## All pages of a tree -/

namespace Chart.Lists

/-- A page comes before those beneath its children. -/
theorem of_page {p : Page Site} (hlists : c.Lists n found) (hpage : c.page n = some p) :
    ∃ parts, List.Forall₂ c.Lists p.children parts ∧
      found = (n, p.map Site.header) :: parts.flatten := by
  cases hlists with
  | intro hq length beneath =>
      rw [hpage] at hq
      cases hq
      exact ⟨_, List.forall₂_iff_get.2 ⟨length, beneath⟩, rfl⟩

/-- No page of a tree is newer than its root. -/
theorem version_le {p : Page Site} (hlists : c.Lists n found) (hsound : c.Sound n)
    (hpage : c.page n = some p) : ∀ e ∈ found, e.2.version ≤ p.version := by
  induction hsound generalizing found p with
  | intro hq _ _ _ covers _ ih =>
      rw [hpage] at hq
      cases hq
      obtain ⟨parts, hparts, rfl⟩ := hlists.of_page hpage
      intro e he
      rcases List.mem_cons.1 he with rfl | he
      · exact Nat.le_refl _
      · obtain ⟨part, hpart, he⟩ := List.mem_flatten.1 he
        obtain ⟨m, hm, hlists'⟩ := exists_of_forall₂_right hparts hpart
        obtain ⟨q, hq, hcovers⟩ := covers m hm
        exact Nat.le_trans (ih m hm hlists' hq e he) hcovers.version

/-- What holds throughout a tree holds of each of its pages. -/
theorem forall_of_throughout (hlists : c.Lists n found) (hall : c.Throughout P n) :
    ∀ e ∈ found, P e.2.version e.2.body.shape := by
  induction hall generalizing found with
  | intro hpage here _ ih =>
      obtain ⟨parts, hparts, rfl⟩ := hlists.of_page hpage
      intro e he
      rcases List.mem_cons.1 he with rfl | he
      · simpa using here
      · obtain ⟨part, hpart, he⟩ := List.mem_flatten.1 he
        obtain ⟨m, hm, hlists'⟩ := exists_of_forall₂_right hparts hpart
        exact ih m hm hlists' e he

/-- What holds of each page of a tree holds throughout. -/
theorem throughout (hlists : c.Lists n found)
    (hall : ∀ e ∈ found, P e.2.version e.2.body.shape) : c.Throughout P n := by
  induction hlists with
  | @intro n p parts hpage length _ ih =>
      refine .intro hpage (by simpa using hall _ List.mem_cons_self) fun m hm => ?_
      obtain ⟨⟨i, hi⟩, rfl⟩ := List.mem_iff_get.1 hm
      have hi' : i < parts.length := by omega
      exact ih i hi hi' fun e he =>
        hall e (List.mem_cons_of_mem _ (List.mem_flatten.2 ⟨_, List.get_mem _ _, he⟩))

end Chart.Lists

@[simp] theorem BTree.slotsOf_map {γ δ : Type} (f : γ → δ) (body : PageBody γ) :
    slotsOf (body.map f) = slotsOf body := by
  cases body <;> rfl

/-- The pages of a B-tree hold its entries in order. -/
theorem BTree.Holds.lists {height : Nat} {es : List Entry} (hholds : Holds c height n es)
    (hlists : c.Lists n found) : found.flatMap (fun e => slotsOf e.2.body) = es := by
  induction height generalizing n es found with
  | zero =>
      obtain ⟨-, ⟨version, stem, body⟩, hpage, rfl⟩ := hholds
      obtain ⟨parts, hparts, rfl⟩ := hlists.of_page hpage
      cases hparts
      exact List.append_nil es
  | succ height ih =>
      obtain ⟨-, ⟨version, stem, body⟩, children, parts, hpage, rfl, hkeyed, rfl⟩ := hholds
      obtain ⟨lists, hlists', rfl⟩ := hlists.of_page hpage
      have hsame : List.Forall₂ (fun list part => list.flatMap (fun e => slotsOf e.2.body) = part)
          lists parts :=
        forall₂_join hlists' hkeyed.beneath fun _ _ _ hlist hpart => ih hpart hlist
      rw [← List.forall₂_map_left_iff, List.forall₂_eq_eq_eq] at hsame
      rw [← hsame, List.flatMap_cons, List.flatMap_def (l := lists.flatten), List.map_flatten,
        List.flatten_flatten, List.map_map]
      rfl

/-! ## Deltas -/

/-- The leaves among some pages that have been written after a version. -/
def newerLeaves {γ δ : Type} (since : Nat) (found : List (γ × Page δ)) : List (Page δ) :=
  (found.map Prod.snd).filter fun p => !p.isNode && decide (since < p.version)

theorem newerLeaves_flatten {γ δ : Type} (since : Nat) (parts : List (List (γ × Page δ))) :
    newerLeaves since parts.flatten = (parts.map (newerLeaves since)).flatten := by
  induction parts with
  | nil => rfl
  | cons part parts ih =>
      rw [List.flatten_cons, newerLeaves, List.map_append, List.filter_append, List.map_cons,
        List.flatten_cons, ← ih]
      rfl

theorem newerLeaves_of_isNode {γ δ : Type} {p : Page δ} (hnode : p.isNode = true) (a : γ)
    (found : List (γ × Page δ)) :
    newerLeaves since ((a, p) :: found) = newerLeaves since found := by
  simp [newerLeaves, hnode]

theorem newerLeaves_eq_nil {γ δ : Type} {found : List (γ × Page δ)}
    (hold : ∀ e ∈ found, e.2.version ≤ since) : newerLeaves since found = [] := by
  rw [newerLeaves, List.filter_eq_nil_iff]
  intro p hp
  obtain ⟨e, he, rfl⟩ := List.mem_map.1 hp
  have hle := hold e he
  simp only [Bool.and_eq_true, decide_eq_true_eq, not_and]
  omega

section Visits

variable {itemsOf : PageBody Unit → List ι} {parent : Option (Page Site)} {index depth : Nat}

/-- A delta passes over old pages only. -/
theorem Scheme.old_of_skip
    (hvisit : ((Scheme.items itemsOf).delta since).visit c parent index n depth .skip) :
    ∃ p, c.page n = some p ∧ p.version ≤ since := by
  obtain ⟨p, hp, hdecision⟩ := hvisit
  refine ⟨p, hp, ?_⟩
  by_contra hnew
  rw [if_neg hnew] at hdecision
  cases hdecision

/-- A delta enters newer pages only. -/
theorem Scheme.new_of_descend {p : Page Site} (hpage : c.page n = some p)
    (hvisit : ((Scheme.items itemsOf).delta since).visit c parent index n depth .descend) :
    since < p.version := by
  obtain ⟨q, hq, hdecision⟩ := hvisit
  rw [hpage] at hq
  cases hq
  by_contra hold
  rw [if_pos (Nat.le_of_not_lt hold)] at hdecision
  cases hdecision

end Visits

/-- What the stretches of a delta yield is what the newer leaves hold. -/
theorem Chart.Tours.delta_items {policy : Policy ι} {kind : TreeKind}
    {itemsOf : PageBody Unit → List ι} (hall : policy.YieldsAll kind itemsOf)
    {parent : Option (Page Site)} {index depth : Nat} {l : List (Stretch ι)}
    (htours : c.Tours ((Scheme.items itemsOf).delta since) parent index depth n l)
    (hlists : c.Lists n found) (hsound : c.Sound n)
    (hkind : ∀ p, c.page n = some p → p.treeKind = kind) :
    l.filterMap Stretch.item? =
      (newerLeaves since found).flatMap fun p => itemsOf p.body.shape := by
  induction htours generalizing found with
  | skip visit =>
      -- no page beneath an old page is newer
      obtain ⟨p, hp, hold⟩ := Scheme.old_of_skip visit
      rw [newerLeaves_eq_nil fun e he => Nat.le_trans (hlists.version_le hsound hp e he) hold]
      rfl
  | emit visit =>
      obtain ⟨p, hp, hdecision⟩ := visit
      split at hdecision <;> cases hdecision
  | @leaf parent index depth n p visit page isLeaf =>
      have hnew : since < p.version := Scheme.new_of_descend page visit
      obtain ⟨parts, hparts, rfl⟩ := hlists.of_page page
      rw [Page.children_of_not_isNode isLeaf] at hparts
      cases hparts
      have hstretches := slotStretches_items (hall.length p (hkind p page) isLeaf)
      rw [show slotStretches ((Scheme.items itemsOf).delta since) p.body.shape p.arity =
        slotStretches (.items itemsOf) p.body.shape p.arity from rfl, hstretches]
      simp [newerLeaves, isLeaf, hnew, Stretch.single, List.filterMap_map, Function.comp_def]
  | @node parent index depth n p visit page isNode parts length children ih =>
      obtain ⟨lists, hlists', rfl⟩ := hlists.of_page page
      have hchildren : List.Forall₂ (fun m part => ∀ list, c.Lists m list →
          part.filterMap Stretch.item? =
            (newerLeaves since list).flatMap fun q => itemsOf q.body.shape) p.children parts := by
        refine List.forall₂_iff_get.2 ⟨length, fun i h h' list hlist => ?_⟩
        have hmem := List.get_mem p.children ⟨i, h⟩
        refine ih i h h' hlist (hsound.child page hmem) fun k hk => ?_
        obtain ⟨k', hk', hcovers⟩ := hsound.covers page hmem
        rw [hk] at hk'
        cases hk'
        exact hcovers.treeKind.trans (hkind p page)
      have hsame : parts.map (List.filterMap Stretch.item?) =
          lists.map fun list => (newerLeaves since list).flatMap fun q => itemsOf q.body.shape := by
        rw [← List.forall₂_eq_eq_eq, List.forall₂_map_left_iff, List.forall₂_map_right_iff]
        exact forall₂_join hchildren hlists' fun _ _ _ hpart hlist => hpart _ hlist
      rw [newerLeaves_of_isNode ((Page.map_isNode _ p).trans isNode), newerLeaves_flatten,
        List.filterMap_flatten, hsame, List.flatMap_def, List.map_flatten, List.flatten_flatten,
        List.map_map, List.map_map]
      rfl

/-- The newer leaves as they are stored. -/
theorem newerLeaves_placed (since : Nat) (found : List (PageRef × LivePage)) :
    newerLeaves since (found.map PageRef.placed) = (newerLeaves since found).map Page.stored := by
  simp only [newerLeaves, List.map_map, List.filter_map]
  congr 1
  refine List.filter_congr fun e _ => ?_
  exact congrArg (fun isNode => !isNode && decide (since < e.2.version)) (Page.map_isNode _ e.2)

/-- A delta cursor over a tree yields what the newer leaves hold. -/
theorem Cursor.delta_runs {policy : Policy ι} {kind : TreeKind}
    {itemsOf : PageBody Unit → List ι} (hall : policy.YieldsAll kind itemsOf) (since : Nat)
    {r : PageRef} {found : List (PageRef × LivePage)} (hrep : Represents s c) (hr : c.refs r)
    (hkind : ∀ p, c.page r.site = some p → p.treeKind = kind)
    (hlists : c.Lists r.site (found.map PageRef.placed)) :
    Runs ((start r (policy.delta since)).items .forward) s c fun items _ _ =>
      items = (newerLeaves since found).flatMap fun p => itemsOf p.body.shape := by
  have htotal : (Scheme.items itemsOf).Total := Scheme.total_enterAll _
  obtain ⟨l, htours⟩ := (hrep.sound r hr).exists_tours (Scheme.Total.delta htotal since) none 0 0
  have hstart := stands_start (hall.follows.delta since) hr htours
  refine (hstart.items_runs hrep .forward (hstart.length_rest_lt hrep .forward _)).mono ?_
  rintro items s' c' - rfl
  rw [Direction.rest, htours.delta_items hall hlists (hrep.sound r hr) hkind, newerLeaves_placed,
    List.flatMap_map]
  simp [Page.stored]

/-! ## Derived trees -/

namespace BTree

variable {t : Tree} {es : List Entry}

/-- Every entry that a tree has in a leaf up to a version is one of some entries. -/
def KnownUpTo (since : Nat) (es : List Entry) (version : Nat) (shape : PageBody Unit) : Prop :=
  version ≤ since → ∀ e ∈ slotsOf shape, e ∈ es

/-- A tree has no other entries than its own. -/
theorem Contains.vetted (hrep : Represents s c) (hcontains : Contains c since t es) :
    Vetted (KnownUpTo since es) c since t := by
  obtain ⟨height, hsub⟩ := hcontains.root
  obtain ⟨found, hlists, -⟩ := (hrep.sound t.root hsub.fit.refs).exists_lists
  refine ⟨hcontains.kind, hsub.fit, hlists.throughout fun e he _ a ha => ?_⟩
  rw [← hsub.holds.lists hlists]
  rw [slotsOf_shape] at ha
  exact List.mem_flatMap.2 ⟨e, he, ha⟩

/-- What newer leaves hold is a part of what all pages hold. -/
theorem newerLeaves_sublist {γ δ : Type} (since : Nat) (found : List (γ × Page δ)) :
    ((newerLeaves since found).flatMap fun p => slotsOf p.body).Sublist
      (found.flatMap fun e => slotsOf e.2.body) := by
  rw [← List.flatMap_map (f := Prod.snd) (g := fun p : Page δ => slotsOf p.body)]
  exact List.filter_sublist.flatMap _

/-- An entry of a page that is not one of the newer leaves is in a page up to the version. -/
theorem exists_known {γ δ : Type} {found : List (γ × Page δ)} {e : Entry}
    (hmem : e ∈ found.flatMap fun x => slotsOf x.2.body)
    (hnew : e ∉ (newerLeaves since found).flatMap fun p => slotsOf p.body) :
    ∃ x ∈ found, x.2.version ≤ since ∧ e ∈ slotsOf x.2.body := by
  obtain ⟨⟨a, p⟩, hx, he⟩ := List.mem_flatMap.1 hmem
  refine ⟨_, hx, ?_, he⟩
  by_contra hlt
  refine hnew (List.mem_flatMap.2 ⟨p, List.mem_filter.2 ⟨List.mem_map_of_mem hx, ?_⟩, he⟩)
  have hleaf : p.isNode = false := by
    obtain ⟨version, stem, body⟩ := p
    cases body with
    | btreeLeaf | utreeLeaf | qtreeLeaf => rfl
    | btreeNode | qtreeNode => cases he
  simp only [hleaf, Bool.not_false, Bool.true_and, decide_eq_true_eq]
  exact Nat.lt_of_not_le hlt

/-- Let a tree be derived by treatments that are all newer than the pages of the tree before.  A
delta cursor over the tree that is derived yields, in the order of their keys, just the entries in
leaves that are newer too, and every entry that the tree before does not have is among them. -/
theorem derived_delta (hrep : Represents s c) (hzones : s.zones.Sound)
    (hcontains : Contains c since t es) (steps : List (Nat × Treatment))
    (hversions : (steps.map Prod.fst).Pairwise (· ≤ ·))
    (hlater : ∀ step ∈ steps, since < step.1) :
    (Resident s c → s.zones.isClosed = false →
      ∃ t' s', exec (derive t steps) s = (.ok t', s')) ∧
    ∀ t' s', exec (derive t steps) s = (.ok t', s') → ∃ c' es',
      es' = (steps.map Prod.snd).foldl Treatment.onListing es ∧ Represents s' c' ∧
      Contains c' ((steps.map Prod.fst).getLastD since) t' es' ∧
      (Resident s c → Resident s' c') ∧
      (Serves s' c' → ∃ found items, (exec t'.root.survey s').1 = .ok found ∧
        es' = (found.flatMap fun x => slotsOf x.2.body) ∧
        (exec ((Cursor.start t'.root (Policy.delta since Policy.entries)).items .forward) s').1 =
          .ok items ∧
        items = ((newerLeaves since found).flatMap fun p => slotsOf p.body) ∧
        Entries.Sorted items ∧ ∀ e ∈ es', e ∉ es → e ∈ items) := by
  have hstart : ∀ step ∈ steps, since ≤ step.1 := fun step hmem =>
    Nat.le_of_lt (hlater step hmem)
  constructor
  · exact derive_succeeds hrep hzones hcontains steps hversions hstart
  · intro t' s' hexec
    obtain ⟨c', hproceeds, hcontains'⟩ :=
      derive_of_ok hrep hzones hcontains steps hversions hstart hexec
    have hrep' := hproceeds.represents
    refine ⟨c', _, rfl, hrep', hcontains', hproceeds.resident, fun hserves => ?_⟩
    obtain ⟨height, hsub⟩ := hcontains'.root
    have hr := hsub.fit.refs
    have hkind : ∀ p, c'.page t'.root.site = some p → p.treeKind = .btree :=
      fun _ => hsub.holds.treeKind
    -- what a survey reads is what the chart of the entries lists
    obtain ⟨found, s₂, c₂, hsurvey, hgrows, hlists⟩ :=
      (PageRef.survey_runs hrep' hr).succeeds hserves
    obtain ⟨listed, hlisted, -⟩ := (hrep'.sound t'.root hr).exists_lists
    obtain rfl := (hlisted.mono hgrows.le).unique hlists
    have hentries : (found.flatMap fun x => slotsOf x.2.body) =
        (steps.map Prod.snd).foldl Treatment.onListing es := by
      rw [← hsub.holds.lists hlisted, List.flatMap_map]
      simp [PageRef.placed, Page.stored]
    obtain ⟨items, s₃, c₃, hitems, -, hyields⟩ :=
      (Cursor.delta_runs Policy.entries_yieldsAll since hrep' hr hkind hlisted).succeeds hserves
    simp only [slotsOf_shape] at hyields
    refine ⟨found, items, by rw [hsurvey], hentries.symm, by rw [hitems], hyields, ?_, ?_⟩
    · rw [hyields]
      exact hcontains'.root.sorted.sublist (hentries ▸ newerLeaves_sublist since found)
    · intro e he hfresh
      by_contra hnone
      rw [← hentries] at he
      rw [hyields] at hnone
      obtain ⟨x, hx, hold, hslot⟩ := exists_known he hnone
      -- the pages that the survey has read are also those of a chart that tells where they are from
      obtain ⟨c₁, _, hrep₁, hvetted⟩ := derive_vetted hrep hzones (hcontains.vetted hrep) steps
        (fun step hmem _ hle => absurd hle (Nat.not_le_of_gt (hlater step hmem))) hversions
        hstart hexec
      obtain ⟨c₃, hgrows₃, hlists₃⟩ :=
        (PageRef.survey_runs hrep₁ hvetted.root.fit.refs).of_ok hsurvey
      have hknown := hlists₃.forall_of_throughout (hvetted.root.throughout.mono hgrows₃.le)
        (x.1.site, x.2.stored) (List.mem_map_of_mem hx)
      refine hfresh (hknown hold e ?_)
      simpa [slotsOf_shape, Page.stored] using hslot

/-- A change, a fold and a commit, and then a drop of the first entry. -/
def laterTreatments : List (Nat × Treatment) :=
  [(2, .change (.update (.int 2) (.int 21)) 0), (2, .reduce (NamedFolding.sum.folding (.int 0))),
    (3, .write .plain), (4, .change (.drop 1) 0)]

/-- Of the three entries that are left only the changed one is in a newer leaf. -/
theorem derived_delta_after_commit :
    ∃ t s c t' s', exec (do derive (← Tree.empty ⟨.btree, 1, ⟨0⟩, ⟨0⟩⟩) fourPuts)
        (.create { Settings.forTrials with pageSplitSize := 0 } false ⟨0⟩) = (.ok t, s) ∧
      Represents s c ∧ s.zones.Sound ∧ Resident s c ∧
      Contains c 1 t [(.int 1, .int 10), (.int 2, .int 20), (.int 3, .int 30), (.int 4, .int 40)] ∧
      exec (derive t laterTreatments) s = (.ok t', s') ∧
      (exec ((Cursor.start t'.root (Policy.delta 1 Policy.entries)).items .forward) s').1 =
        .ok [(.int 2, .int 21)] := by
  obtain ⟨t, s, c, hexec, hproceeds, hall, hcontains⟩ := exists_derived (s := .create
    { Settings.forTrials with pageSplitSize := 0 } false ⟨0⟩) Zones.sound_start rfl
    ⟨.btree, 1, ⟨0⟩, ⟨0⟩⟩ rfl fourPuts (by decide)
  obtain ⟨hsucceeds, hresult⟩ := derived_delta hproceeds.represents hproceeds.zones hcontains
    laterTreatments (by decide) (by decide)
  obtain ⟨t', s', hexec'⟩ := hsucceeds hall hproceeds.isClosed
  obtain ⟨c', es', -, -, -, hresident, hreads⟩ := hresult t' s' hexec'
  obtain ⟨found, items, -, -, hitems, -⟩ := hreads (Or.inl (hresident hall))
  have hread : (exec ((do derive (← Tree.empty ⟨.btree, 1, ⟨0⟩, ⟨0⟩⟩) fourPuts) >>= fun t =>
      derive t laterTreatments >>= fun t' =>
        (Cursor.start t'.root (Policy.delta 1 Policy.entries)).items .forward)
      (.create { Settings.forTrials with pageSplitSize := 0 } false ⟨0⟩)).1 =
        .ok [(.int 2, .int 21)] := by
    decide +kernel
  rw [exec_bind, hexec] at hread
  dsimp only at hread
  rw [exec_bind, hexec'] at hread
  exact ⟨t, s, c, t', s', hexec, hproceeds.represents, hproceeds.zones, hall, hcontains, hexec',
    hread⟩

end BTree
end PageTree
