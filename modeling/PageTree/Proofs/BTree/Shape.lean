import PageTree.Proofs.BTree.InMemory
import PageTree.Proofs.BTree.Neighbours

/-!
# The shape of B-trees

Every B-tree that is made from an empty one, by changes, folding, evacuation, commits to any place
and taking commits back, in any order and at any versions, is well shaped: the keys increase from
left to right, each node keys its children with the least keys beneath them, no child is empty,
all leaves lie at one depth, and the root is a leaf or has at least two children
(`steps_well_shaped`).  Siblings are then pages of one kind, and remain so while one of them is
being rebuilt, so that merging them keeps what both hold.

Trees are values: an older one may be changed again after others have been made of it.  A run of
steps therefore works on a shelf of trees.

The seven reads of a B-tree agree with its sorted entries (`reads_entries`), for trees in memory
as well as for trees of which any part is still to be loaded.
-/

namespace PageTree

/-- A reference of the tree of another, in memory. -/
inductive Store.Beneath (s : Store) (r : PageRef) : PageRef → Prop where
  | root : Beneath s r r
  | child {m k : PageRef} {p : LivePage} (above : Beneath s r m) (pins : s.Pins m p)
      (mem : k ∈ p.children) : Beneath s r k

namespace BTree

open StoreM

/-! ## Well-shaped trees -/

/-- A change on its way down to the leaves, as it rebuilds a child. -/
inductive Descent where
  | update (key value : Value)
  | drop (lower : Nat)
  | take (upper : Nat)
  deriving DecidableEq, Repr

/-- The child rebuilt, within a depth. -/
def Descent.within (version depth : Nat) (r : PageRef) : Descent → StoreM PageRef
  | update key value => updatedWithin key value version depth r
  | drop lower => droppedWithin version depth r lower
  | take upper => takenWithin version depth r upper

/-- Merging two pages, in either order, keeps what both hold. -/
def Mergeable (p q : LivePage) : Prop :=
  p.kind = q.kind ∧ ∀ version, (mergePages p q version).arity = p.arity + q.arity ∧
    (mergePages q p version).arity = q.arity + p.arity

/-- A B-tree in memory with entries is as the operations keep it. -/
structure WellShaped (s : Store) (r : PageRef) (es : List Entry) : Prop where
  /-- The keys strictly increase from left to right. -/
  sorted : Entries.Sorted es
  /-- All leaves lie at one height and hold the entries, and the key of every child is the first
  one beneath it. -/
  holds : ∃ height, Holds s.pinned height (.live r) es
  /-- No child is empty. -/
  span_pos : ∀ m p, s.Beneath r m → s.Pins m p → ∀ k ∈ p.children, 0 < k.span
  /-- Siblings can be merged. -/
  siblings : ∀ m p, s.Beneath r m → s.Pins m p → ∀ a ∈ p.children, ∀ b ∈ p.children,
    ∃ pa pb, s.Pins a pa ∧ s.Pins b pb ∧ Mergeable pa pb
  /-- So can a sibling and whatever a change leaves of a child. -/
  rebuilt : ∀ m p, s.Beneath r m → s.Pins m p → ∀ a ∈ p.children, ∀ b ∈ p.children,
    ∀ (descent : Descent) (version depth : Nat), a.treeSize < depth →
      ∃ a' s', exec (descent.within version depth a) s = (.ok a', s') ∧
        (a'.span ≠ 0 → ∃ pa pb, s'.Pins a' pa ∧ s'.Pins b pb ∧ Mergeable pa pb)
  /-- The root is a leaf or has at least two children. -/
  root : ∃ p, s.Pins r p ∧ (p.isNode = true → 2 ≤ p.arity)

section WellShaped

variable {s s' : Store} {height stem : Nat} {r m a b : PageRef} {es : List Entry} {p q : LivePage}

/-- Pages that hold entries at one height can be merged. -/
theorem PageHolds.mergeable {S S' : Judgment} {es es' : List Entry}
    (hp : PageHolds S height p es) (hq : PageHolds S' height q es') : Mergeable p q := by
  refine ⟨by rw [hp.kind, hq.kind], fun version => ?_⟩
  obtain ⟨v, st, body⟩ := p
  obtain ⟨v', st', body'⟩ := q
  cases height with
  | zero =>
      cases hp
      cases hq
      exact ⟨List.length_append, List.length_append⟩
  | succ height =>
      obtain ⟨as, -, rfl, -, -⟩ := hp
      obtain ⟨bs, -, rfl, -, -⟩ := hq
      exact ⟨List.length_append, List.length_append⟩

/-- The children of a page hold, at one height, entries of their own. -/
theorem Upholds.children (hup : Upholds s height stem m es) (hp : s.Pins m p) :
    ∃ below, ∀ k ∈ p.children, ∃ part, part ≠ [] ∧ Upholds s below stem k part := by
  have hholds := hup.pageHolds hp
  have hstem := (hup.upright.stems hp).2
  obtain ⟨version, pageStem, body⟩ := p
  cases height with
  | zero =>
      cases hholds
      exact ⟨0, fun k hk => by cases hk⟩
  | succ height =>
      obtain ⟨children, parts, rfl, hkeyed, -⟩ := hholds
      refine ⟨height, fun k hk => ?_⟩
      obtain ⟨child, hchild, rfl⟩ := List.mem_map.1 hk
      obtain ⟨part, hpart, -, hchild'⟩ :=
        exists_of_forall₂_right (List.Forall₂.flip hkeyed) hchild
      exact ⟨part, hkeyed.ne_nil part hpart, hstem ▸ hchild'⟩

/-- What lies beneath a B-tree are B-trees. -/
theorem Upholds.beneath (hup : Upholds s height stem r es) (hbeneath : s.Beneath r m) :
    ∃ height' part, Upholds s height' stem m part := by
  induction hbeneath with
  | root => exact ⟨height, es, hup⟩
  | child _ pins mem ih =>
      obtain ⟨height', part, hm⟩ := ih
      obtain ⟨below, hchildren⟩ := hm.children pins
      obtain ⟨part', -, hk⟩ := hchildren _ mem
      exact ⟨below, part', hk⟩

/-- What a change leaves of a subtree lies at the same height, unless it is empty. -/
theorem Upholds.descent (hup : Upholds s height stem a es) (hne : es ≠ []) (descent : Descent)
    (version depth : Nat) (hdepth : a.treeSize < depth) :
    Succeeds (descent.within version depth a) s fun a' s' =>
      a'.span ≠ 0 → ∃ es', Upholds s' height stem a' es' := by
  have hsub : Realm.Subtree s height stem version a es := hup
  -- each descent has been judged over every realm; memory is one
  have hbecomes : ∃ es', Succeeds (descent.within version depth a) s fun a' s' =>
      Becomes s' height stem version es a' es' := by
    cases descent with
    | update key value =>
        refine ⟨Listing.update key value es, ?_⟩
        apply Succeeding.mono (updatedWithin_runs rfl depth hdepth hsub).2
        exact fun a' s' _ hpost => hpost.1
    | drop lower => exact ⟨es.drop lower, (droppedWithin_runs rfl depth lower hdepth hsub).2⟩
    | take upper => exact ⟨es.take upper, (takenWithin_runs rfl depth upper hdepth hsub).2⟩
  obtain ⟨es', hruns⟩ := hbecomes
  apply Succeeding.mono hruns
  intro a' s' _ hbecomes hspan
  have hlength : a'.span = es'.length := hbecomes.span rfl
  have hne' : es' ≠ [] := by
    rintro rfl
    exact hspan hlength
  exact ⟨es', hbecomes.subtree hne hne'⟩

/-- A B-tree in memory is well shaped if its root is trim. -/
theorem Upholds.wellShaped (hup : Upholds s height stem r es) (htrim : Trim s r) :
    WellShaped s r es where
  sorted := hup.holds.sorted
  holds := ⟨height, hup.holds⟩
  span_pos := by
    intro m p hbeneath hp k hk
    obtain ⟨height', part, hm⟩ := hup.beneath hbeneath
    obtain ⟨below, hchildren⟩ := hm.children hp
    obtain ⟨part', hne, hk'⟩ := hchildren k hk
    rw [hk'.span]
    exact List.length_pos_iff.2 hne
  siblings := by
    intro m p hbeneath hp a ha b hb
    obtain ⟨height', part, hm⟩ := hup.beneath hbeneath
    obtain ⟨below, hchildren⟩ := hm.children hp
    obtain ⟨esa, -, ha'⟩ := hchildren a ha
    obtain ⟨esb, -, hb'⟩ := hchildren b hb
    obtain ⟨pa, hpa⟩ := ha'.upright.pins
    obtain ⟨pb, hpb⟩ := hb'.upright.pins
    -- siblings lie at one height, so either both are leaves or both are nodes
    exact ⟨pa, pb, hpa, hpb, (ha'.pageHolds hpa).mergeable (hb'.pageHolds hpb)⟩
  rebuilt := by
    intro m p hbeneath hp a ha b hb descent version depth hdepth
    obtain ⟨height', part, hm⟩ := hup.beneath hbeneath
    obtain ⟨below, hchildren⟩ := hm.children hp
    obtain ⟨esa, hne, ha'⟩ := hchildren a ha
    obtain ⟨esb, -, hb'⟩ := hchildren b hb
    obtain ⟨a', s', hexec, hkeeps, hpost⟩ := ha'.descent hne descent version depth hdepth
    refine ⟨a', s', hexec, fun hspan => ?_⟩
    obtain ⟨es', hrebuilt⟩ := hpost hspan
    obtain ⟨pa, hpa⟩ := hrebuilt.upright.pins
    obtain ⟨pb, hpb⟩ := (hb'.keep hkeeps).upright.pins
    exact ⟨pa, pb, hpa, hpb,
      (hrebuilt.pageHolds hpa).mergeable ((hb'.keep hkeeps).pageHolds hpb)⟩
  root := htrim

end WellShaped

/-! ## Steps -/

/-- What may be done with a B-tree in memory. -/
inductive Step where
  | change (c : Change) (version post : Nat)
  /-- Folds the values. -/
  | reduce (f : PageRef.Folding) (version : Nat)
  /-- Moves pages out of zones older than `post`. -/
  | evacuate (post version : Nat)
  /-- Gives pages their places, as if their diff were written to a zone from an offset on. -/
  | build (zone base version : Nat)
  /-- Takes pages back from being committed. -/
  | uncommit (version : Nat)

/-- Does a step. -/
def Step.apply (t : Tree) : Step → StoreM Tree
  | change c version post => c.apply t version post
  | reduce f version => t.reduced f version
  | evacuate post version => t.evacuated post version
  | build zone base version => t.committed zone base version
  | uncommit version => t.uncommitted version

/-- Does steps one after another, each with a tree of the shelf; the tree that it makes is put on
the shelf too. -/
def applySteps (trees : List Tree) (steps : List (Nat × Step)) : StoreM (List Tree) :=
  steps.foldlM (fun trees step => do
    match trees[step.1]? with
    | some t => return trees ++ [← step.2.apply t]
    | none => return trees) trees

/-- A B-tree all in memory, as the steps keep it. -/
structure Settled (s : Store) (t : Tree) (es : List Entry) : Prop where
  kind : t.seed.kind = .btree
  root : ∃ height, Upholds s height t.seed.stem t.root es
  trim : Trim s t.root

section Settled

variable {s s' : Store} {height : Nat} {t : Tree} {r : PageRef} {es es' : List Entry}
  {version : Nat}

theorem Trim.keep (hkeeps : s.Keeps s') (htrim : Trim s r) : Trim s' r := by
  obtain ⟨p, hp, harity⟩ := htrim
  exact ⟨p, hp.keep hkeeps, harity⟩

/-- A root alike is as trim. -/
theorem Trim.likeness {kind : TreeKind} {stem : Nat} {r' : PageRef}
    (hlike : s.Likeness kind stem r r') (htrim : Trim s r) : Trim s r' := by
  obtain ⟨p, hp, harity⟩ := htrim
  obtain ⟨p', hp'⟩ := hlike.upright.pins
  obtain ⟨q, hq, hshape, hchildren⟩ := hlike.alike.page_of hp.page
  rw [hp'.page] at hq
  cases hq
  refine ⟨p', hp', fun hnode => ?_⟩
  -- a node has as many children as the one it is like
  have hisNode : p.isNode = true := by
    rw [← Page.isNode_of_shape (p := p') (by simpa using hshape), hnode]
  have hlength := hchildren.length_eq
  rw [Page.map_children, Page.map_children, List.length_map, List.length_map,
    Page.length_children hisNode, Page.length_children hnode] at hlength
  rw [← hlength]
  exact harity hisNode

theorem Settled.keep (hkeeps : s.Keeps s') (hsettled : Settled s t es) : Settled s' t es := by
  obtain ⟨height, hup⟩ := hsettled.root
  exact ⟨hsettled.kind, ⟨height, hup.keep hkeeps⟩, hsettled.trim.keep hkeeps⟩

theorem Settled.wellShaped (hsettled : Settled s t es) : WellShaped s t.root es := by
  obtain ⟨height, hup⟩ := hsettled.root
  exact hup.wellShaped hsettled.trim

/-- The tree with another root, unless it is the same. -/
theorem Settled.withRoot (hsettled : Settled s t es)
    (hup : Upholds s height t.seed.stem r es') (htrim : Trim s r) :
    Settled s (t.withRoot r) es' := by
  unfold Tree.withRoot
  split
  · next hsame =>
      obtain ⟨height', hup'⟩ := hsettled.root
      obtain rfl := hup.same hup' hsame
      exact hsettled
  · exact ⟨hsettled.kind, ⟨height, hup⟩, htrim⟩

/-- A tree is settled again after a change of its root. -/
theorem Settled.rebalanced_succeeds (hsettled : Settled s t es) (post : Nat)
    (hroot : Root s t.seed.stem version r es') :
    Succeeds (rebalanced t r version post) s fun t' s' => Settled s' t' es' := by
  unfold rebalanced
  split
  · next hsame =>
      obtain ⟨height, hup⟩ := hsettled.root
      obtain ⟨height', hup'⟩ := hroot
      obtain rfl : es' = es := Upholds.same hup' hup hsame
      exact Succeeding.pure hsettled
  · apply Succeeding.bind (balanced_runs (w := s) rfl hroot).2
    rintro r' s' hkeeps ⟨⟨height, hup⟩, htrim⟩
    replace hup : Upholds s' height t.seed.stem r' es' := hup
    apply Succeeding.bind (PageRef.evacuated_succeeds post version hup.upright)
    intro r'' s'' hkeeps' hlike
    apply Succeeding.pure
    exact ((hsettled.keep hkeeps).keep hkeeps').withRoot ((hup.keep hkeeps').likeness hlike)
      ((htrim.keep hkeeps').likeness hlike)

/-- A new empty tree is settled. -/
theorem empty_settled (s : Store) (seed : Seed) (hkind : seed.kind = .btree) :
    Succeeds (Tree.empty seed) s fun t s' => Settled s' t [] := by
  unfold Tree.empty
  rw [hkind]
  apply Succeeding.bind (ofPage_empty_runs (w := s) rfl seed.stem 0).2
  rintro r s' - ⟨⟨height, hup⟩, htrim⟩
  exact Succeeding.pure ⟨hkind, ⟨height, hup⟩, htrim⟩

/-- A tree that is cleared is settled. -/
theorem Settled.cleared_succeeds (hsettled : Settled s t es) (version : Nat) :
    Succeeds (t.cleared version) s fun t' s' => Settled s' t' [] := by
  obtain ⟨height, hup⟩ := hsettled.root
  have hkind : t.kind = .btree := hsettled.kind
  have hempty := (ofPage_empty_runs (w := s) rfl t.seed.stem version).2
  rw [← hkind] at hempty
  apply Succeeding.mono (Tree.cleared_succeeds version hempty)
  rintro t' s' hkeeps (⟨rfl, hspan⟩ | ⟨r, rfl, ⟨height', hup'⟩, htrim⟩)
  · obtain rfl : es = [] := List.length_eq_zero_iff.1 (by rw [← hup.span, hspan])
    exact hsettled.keep hkeeps
  · exact (hsettled.keep hkeeps).withRoot hup' htrim

/-- A change settles again, with the change made among the entries. -/
theorem Settled.change_succeeds (hsettled : Settled s t es) (change : Change)
    (version post : Nat) :
    Succeeds (change.apply t version post) s fun t' s' =>
      Settled s' t' (change.onListing es) := by
  have hroot : Root s t.seed.stem version t.root es := hsettled.root
  have hupdate : ∀ key value, Succeeds (update t key value version post) s fun t' s' =>
      Settled s' t' (Listing.update key value es) := by
    intro key value
    apply Succeeding.bind (updated_runs (w := s) rfl hroot).2
    rintro r s' hkeeps ⟨hroot', -⟩
    exact (hsettled.keep hkeeps).rebalanced_succeeds post hroot'
  cases change with
  | update key value => exact hupdate key value
  | remove key => exact hupdate key .absent
  | drop lower =>
      apply Succeeding.bind (dropped_runs (w := s) rfl lower hroot).2
      intro r s' hkeeps hroot'
      exact (hsettled.keep hkeeps).rebalanced_succeeds post hroot'
  | take upper =>
      apply Succeeding.bind (taken_runs (w := s) rfl upper hroot).2
      intro r s' hkeeps hroot'
      exact (hsettled.keep hkeeps).rebalanced_succeeds post hroot'
  | clear => exact hsettled.cleared_succeeds version

/-- Upkeep settles again, with the same entries. -/
theorem Settled.upkeep_succeeds (hsettled : Settled s t es) (upkeep : Tree.Upkeep) :
    Succeeds (upkeep.apply t) s fun t' s' => Settled s' t' es := by
  obtain ⟨height, hup⟩ := hsettled.root
  have hkind := hsettled.kind
  have hupright : s.Upright t.seed.kind t.seed.stem t.root := hkind ▸ hup.upright
  apply Succeeding.mono (upkeep.apply_succeeds hupright)
  rintro t' s' hkeeps ⟨hkind', hstem, hlike⟩
  rw [hkind] at hkind' hlike
  exact ⟨hkind', ⟨height, hstem ▸ (hup.keep hkeeps).likeness hlike⟩,
    (hsettled.trim.keep hkeeps).likeness hlike⟩

/-- Every step settles again. -/
theorem Settled.step_succeeds (hsettled : Settled s t es) (step : Step) :
    Succeeds (step.apply t) s fun t' s' => ∃ es', Settled s' t' es' := by
  have hupkeep : ∀ upkeep : Tree.Upkeep, Succeeds (upkeep.apply t) s fun t' s' =>
      ∃ es', Settled s' t' es' := fun upkeep =>
    Succeeding.mono (hsettled.upkeep_succeeds upkeep) fun _ _ _ hsettled' => ⟨es, hsettled'⟩
  cases step with
  | change c version post =>
      apply Succeeding.mono (hsettled.change_succeeds c version post)
      exact fun t' s' _ hsettled' => ⟨_, hsettled'⟩
  | build zone base version => exact hupkeep (.build zone base version)
  | reduce f version => exact hupkeep (.reduce f version)
  | evacuate post version => exact hupkeep (.evacuate post version)
  | uncommit version => exact hupkeep (.uncommit version)

/-- A run of steps keeps every tree of the shelf settled. -/
theorem applySteps_succeeds (steps : List (Nat × Step)) (trees : List Tree)
    (hsettled : ∀ t ∈ trees, ∃ es, Settled s t es) :
    Succeeds (applySteps trees steps) s fun trees' s' => ∀ t ∈ trees', ∃ es, Settled s' t es := by
  apply Succeeding.foldlM (Q := fun trees s => ∀ t ∈ trees, ∃ es, Settled s t es) _ hsettled
  intro trees step s hsettled
  cases hat : trees[step.1]? with
  | none =>
      -- a step that names no tree of the shelf is passed over
      exact Succeeding.pure hsettled
  | some t =>
      obtain ⟨es, ht⟩ := hsettled t (List.mem_of_getElem? hat)
      apply Succeeding.bind (ht.step_succeeds step.2)
      intro t' s' hkeeps ht'
      apply Succeeding.pure
      intro t₁ ht₁
      rcases List.mem_append.1 ht₁ with hold | hnew
      · obtain ⟨es₁, hold⟩ := hsettled t₁ hold
        exact ⟨es₁, hold.keep hkeeps⟩
      · obtain rfl := List.mem_singleton.1 hnew
        exact ht'

end Settled

/-- Whatever steps are done, at any versions and in any order, with an empty B-tree and the trees
that are made of it, they succeed, and all these trees are well shaped in the end. -/
theorem steps_well_shaped (s : Store) (stem : Nat) (created updated : Timestamp)
    (steps : List (Nat × Step)) :
    ∃ trees s', exec (do applySteps [← Tree.empty ⟨.btree, stem, created, updated⟩] steps) s =
        (.ok trees, s') ∧
      ∀ t ∈ trees, ∃ es, WellShaped s' t.root es ∧ t.span = es.length := by
  have hruns : Succeeds (do applySteps [← Tree.empty ⟨.btree, stem, created, updated⟩] steps) s
      fun trees s' => ∀ t ∈ trees, ∃ es, Settled s' t es := by
    apply Succeeding.bind (empty_settled s ⟨.btree, stem, created, updated⟩ rfl)
    intro t s' _ hsettled
    apply applySteps_succeeds
    intro t' ht'
    obtain rfl := List.mem_singleton.1 ht'
    exact ⟨[], hsettled⟩
  obtain ⟨trees, s', hexec, -, hall⟩ := hruns
  refine ⟨trees, s', hexec, fun t ht => ?_⟩
  obtain ⟨es, hsettled⟩ := hall t ht
  obtain ⟨height, hup⟩ := hsettled.root
  exact ⟨es, hsettled.wellShaped, hup.span⟩

end BTree

/-! ## What reads give -/

section Reads

namespace BTree

open StoreM

/-- The invariant of B-trees: the keys of nodes are the first ones beneath the children, all
leaves lie at one height, headers count what lies beneath, and from left to right stand the
entries.  The pages of the tree are all in memory, or a chart tells where they are and the zones
give them. -/
inductive Lists (s : Store) (t : Tree) (es : List Entry) : Prop where
  | memory (settled : Settled s t es)
  | zones {c : Chart} {version : Nat} (represents : Represents s c) (serves : Serves s c)
      (contains : Contains c version t es)

/-- The operation succeeds and gives a result, and the tree goes on listing its entries. -/
def Lists.Yields {α : Type} (t : Tree) (es : List Entry) (s : Store) (act : StoreM α) (a : α) :
    Prop :=
  ∃ s', exec act s = (.ok a, s') ∧ Lists s' t es

/-- Every read of a tree, for every key and every index, gives what the entries say. -/
structure ReadsAs (s : Store) (t : Tree) (es : List Entry) : Prop where
  find : ∀ key, Lists.Yields t es s (find? t.root key) (Listing.lookup key es)
  contains : ∀ key, Lists.Yields t es s (contains t key) (Listing.lookup key es).isSome
  indexOf : ∀ key, Lists.Yields t es s (indexOf? t.root key) (Listing.indexOf? key es)
  entry : ∀ index, Lists.Yields t es s ( entry? t.root index) es[index]?
  first : Lists.Yields t es s (first? t.root) es.head?
  last : Lists.Yields t es s (last? t.root) es.getLast?
  /-- The first entry with a greater key, whether or not the key is present. -/
  next : ∀ key, Lists.Yields t es s (next? t.root key) (Listing.next? key es)
  /-- The last entry with a lesser key. -/
  previous : ∀ key, Lists.Yields t es s (previous? t.root key) (Listing.previous? key es)

namespace Lists

variable {s : Store} {t : Tree} {es : List Entry}

theorem Yields.result {α : Type} {act : StoreM α} {a : α} (hyields : Yields t es s act a) :
    (exec act s).1 = .ok a := by
  obtain ⟨s', hexec, -⟩ := hyields
  rw [hexec]

theorem sorted (hlists : Lists s t es) : Entries.Sorted es := by
  cases hlists with
  | memory settled =>
      obtain ⟨height, hup⟩ := settled.root
      exact hup.holds.sorted
  | zones _ _ contains => exact contains.root.sorted

/-- What an operation gives in every realm it gives for either kind of tree. -/
theorem yields {α : Type} {act : StoreM α} {a : α} (hlists : Lists s t es)
    (hruns : ∀ {W : Type} [Realm W] {w : W} {version : Nat}, Realm.Represents s w →
      Root w t.seed.stem version t.root es → Realm.Runs act s w fun found _ _ => found = a) :
    Lists.Yields t es s act a := by
  cases hlists with
  | memory settled =>
      have hroot : Root s t.seed.stem 0 t.root es := settled.root
      obtain ⟨-, found, s', hexec, hkeeps, rfl⟩ := hruns rfl hroot
      exact ⟨s', hexec, .memory (settled.keep hkeeps)⟩
  | zones represents serves contains =>
      -- a run over a chart may fail, but not where every page is served
      have hserved : Runs act s _ fun found _ _ => found = a := hruns represents contains.root
      obtain ⟨found, s', c', hexec, hgrows, rfl⟩ := hserved.succeeds serves
      exact ⟨s', hexec,
        .zones hgrows.represents (hgrows.serves serves) (contains.mono hgrows.le)⟩

end Lists

variable {s : Store} {t : Tree} {es : List Entry}

/-- The entries of a B-tree increase strictly by their keys, and every read agrees with them. -/
theorem reads_entries (hlists : Lists s t es) : Entries.Sorted es ∧ ReadsAs s t es := by
  refine ⟨hlists.sorted, ?_⟩
  constructor
  case find => exact fun key => hlists.yields fun hrep hroot => find_runs hrep key hroot
  case contains =>
    intro key
    apply hlists.yields
    intro W _ w version hrep hroot
    apply Realm.bind (find_runs hrep key hroot)
    rintro found s' w' hgrows rfl
    exact Realm.pure (Realm.represents hgrows) rfl
  case indexOf => exact fun key => hlists.yields fun hrep hroot => indexOf_runs hrep key hroot
  case entry => exact fun index => hlists.yields fun hrep hroot => entry_runs hrep index hroot
  case first => exact hlists.yields first_runs
  case last => exact hlists.yields last_runs
  case next => exact fun key => hlists.yields fun hrep hroot => next_runs hrep key hroot
  case previous => exact fun key => hlists.yields fun hrep hroot => previous_runs hrep key hroot

/-- Three keys in pages that are split as soon as they can be, and what lies next to keys that are
there and keys that are not. -/
theorem reads_entries_three :
    ∃ t s, Lists s t [(.int 1, .int 10), (.int 3, .int 30), (.int 5, .int 50)] ∧
      (exec (next? t.root (.int 3)) s).1 = .ok (some (.int 5, .int 50)) ∧
      (exec (next? t.root (.int 2)) s).1 = .ok (some (.int 3, .int 30)) ∧
      (exec (previous? t.root (.int 1)) s).1 = .ok none ∧
      (exec (indexOf? t.root (.int 4)) s).1 = .ok none ∧
      (exec ( entry? t.root 1) s).1 = .ok (some (.int 3, .int 30)) := by
  let s := Store.create { Settings.forTrials with pageSplitSize := 0 } false ⟨0⟩
  obtain ⟨t₀, s₀, -, -, hempty⟩ := empty_settled s ⟨.btree, 1, ⟨0⟩, ⟨0⟩⟩ rfl
  obtain ⟨t₁, s₁, -, -, hone⟩ := hempty.change_succeeds (.update (.int 3) (.int 30)) 1 0
  obtain ⟨t₂, s₂, -, -, htwo⟩ := hone.change_succeeds (.update (.int 5) (.int 50)) 1 0
  obtain ⟨t₃, s₃, -, -, hthree⟩ := htwo.change_succeeds (.update (.int 1) (.int 10)) 2 0
  have hlists : Lists s₃ t₃ [(.int 1, .int 10), (.int 3, .int 30), (.int 5, .int 50)] :=
    .memory hthree
  obtain ⟨-, hreads⟩ := reads_entries hlists
  refine ⟨t₃, s₃, hlists, ?_, ?_, ?_, ?_, ?_⟩
  · exact (hreads.next (.int 3)).result
  · exact (hreads.next (.int 2)).result
  · exact (hreads.previous (.int 1)).result
  · exact (hreads.indexOf (.int 4)).result
  · exact (hreads.entry 1).result

end BTree

end Reads

end PageTree
