import PageTree.Proofs.BTree.InMemory
import PageTree.Proofs.BTree.Shape
import PageTree.Proofs.QTree.Changes
import PageTree.Proofs.QTree.Refinement

/-!
# The shape of Q-trees

The states of memory are a terrain of Q-trees, so that everything proved of Q-trees over a terrain
holds of trees that are all in memory, wherever their pages have been given places.

Every Q-tree that is made from an empty one, by changes, folding, evacuation, commits to any place
and taking commits back, in any order and at any versions, is well shaped: no key is in two places,
each leaf has its slots in the order of their keys, the tiles of every reference are the smallest
that cover the points beneath it, no child is empty, all leaves lie at one depth, and the root is a
leaf or has at least two children (`steps_keep_shape`).  Siblings are then pages of one kind, and
remain so while one of them is being rebuilt, so that merging them keeps what both hold.

A change at a point beyond the largest coordinate is refused and leaves everything as it is
(`Change.refused`), so a run of steps passes over it.
-/

namespace PageTree

/-! ## Q-trees in memory -/

section InMemory

namespace QTree

open StoreM

variable {s s' : Store} {height height' stem : Nat} {r r' m : PageRef} {slots slots' : List Slot}
  {p : LivePage}

/-- Only the page of a site matters. -/
theorem Holds.congr {c : Chart} {n n' : Site} (hpage : c.page n = c.page n')
    (hholds : Holds c height n slots) : Holds c height n' slots := by
  cases height with
  | zero =>
      obtain ⟨hsorted, p, hp, hbody⟩ := hholds
      exact ⟨hsorted, p, hpage ▸ hp, hbody⟩
  | succ height =>
      obtain ⟨p, children, parts, hp, hrest⟩ := hholds
      exact ⟨p, children, parts, hpage ▸ hp, hrest⟩

/-- A tree in memory is a Q-tree of a height with slots. -/
structure Upholds (s : Store) (height stem : Nat) (r : PageRef) (slots : List Slot) : Prop where
  upright : s.Upright .qtree stem r
  holds : Holds s.pinned height (.live r) slots

namespace Upholds

theorem keep (hkeeps : s.Keeps s') (hup : Upholds s height stem r slots) :
    Upholds s' height stem r slots :=
  ⟨hup.upright.keep hkeeps, hup.holds.mono hkeeps.pinned_le⟩

/-- References to one page have the same slots beneath. -/
theorem same (hup : Upholds s height stem r slots) (hup' : Upholds s height' stem r' slots')
    (hsame : r.same r' = true) : slots = slots' := by
  obtain ⟨p, hp⟩ := hup.upright.pins
  refine (hup.holds.congr ?_).unique hup'.holds
  rw [hp.page, (hp.of_same hsame).page]

/-- A tree alike is a Q-tree of the same height with the same slots. -/
theorem likeness (hup : Upholds s height stem r slots) (hlike : s.Likeness .qtree stem r r') :
    Upholds s height stem r' slots :=
  ⟨hlike.upright, hup.holds.alike hlike.alike⟩

/-- The span of a Q-tree in memory is the number of its slots. -/
theorem span (hup : Upholds s height stem r slots) : r.span = slots.length :=
  hup.holds.span hup.upright.measured

/-- The tiles of a reference are the smallest around the points beneath it. -/
theorem around (hup : Upholds s height stem r slots) (hne : slots ≠ [])
    (hvalid : ∀ slot ∈ slots, (Point.ofSlot slot).Valid) : Around r.header slots :=
  hup.holds.around hup.upright.measured hne hvalid

end Upholds

/-- What memory says of subtrees; versions do not matter to it. -/
def Recalled (s : Store) : Judgment :=
  fun height stem _ r slots => Upholds s height stem r slots

/-- What is beneath a reference in memory, seen at its page. -/
theorem Upholds.pageHolds (hup : Upholds s height stem r slots) (hp : s.Pins r p) :
    PageHolds (Recalled s) height p slots := by
  have hbeneath := fun m hm => hup.upright.child hp (m := m) hm
  have hstem := (hup.upright.stems hp).2
  have hpage := hp.page
  obtain ⟨version, pageStem, body⟩ := p
  subst hstem
  cases height with
  | zero =>
      obtain ⟨-, hsorted, q, hq, hbody⟩ := hup
      rw [hpage] at hq
      cases hq
      cases body <;> cases hbody
      exact ⟨hsorted, rfl⟩
  | succ height =>
      obtain ⟨-, q, sites, parts, hq, hbody, hfilled, rfl⟩ := hup
      rw [hpage] at hq
      cases hq
      cases body <;> cases hbody
      next children =>
      refine ⟨children, parts, rfl, ?_, rfl⟩
      have hfilled' : Filled (fun m slots => Holds s.pinned height (.live m) slots) children
          parts := List.forall₂_map_left_iff.1 hfilled
      exact hfilled'.imp_mem fun child hm slots hholds => ⟨hbeneath child hm, hholds⟩

/-- What a page in memory holds is beneath the references to it. -/
theorem PageHolds.upholds (hholds : PageHolds (Recalled s) height p slots)
    (hup : s.Upright .qtree stem r) (hp : s.Pins r p) : Upholds s height stem r slots := by
  refine ⟨hup, ?_⟩
  have hpage := hp.page
  obtain ⟨version, pageStem, body⟩ := p
  cases height with
  | zero =>
      obtain ⟨hsorted, rfl⟩ := hholds
      exact ⟨hsorted, _, hpage, rfl⟩
  | succ height =>
      obtain ⟨children, parts, rfl, hfilled, rfl⟩ := hholds
      refine ⟨_, _, parts, hpage, rfl, ?_, rfl⟩
      exact List.forall₂_map_left_iff.2 (Filled.imp (fun _ _ hchild => hchild.holds) hfilled)

/-- The children of a page in memory are upright. -/
theorem PageHolds.upright (hholds : PageHolds (Recalled s) height p slots) :
    ∀ m ∈ p.children, s.Upright p.treeKind p.stem m := by
  rw [hholds.treeKind]
  intro m hm
  obtain ⟨below, part, -, -, hup⟩ := hholds.child hm
  exact hup.upright

/-- Trees that are all in memory; what the terrain says of a store is the store itself. -/
instance : Terrain Store where
  toRealm := inferInstance
  Branch := Recalled
  branch_grows := by
    rintro s s' w w' height stem version r slots ⟨rfl, rfl, hkeeps⟩ hup
    exact hup.keep hkeeps
  branch_raise hup _ := hup
  branch_span _ hup := hup.span
  branch_around _ hup := hup.around
  branch_stem _ hup := by
    obtain ⟨p, hp⟩ := hup.upright.pins
    exact (hup.upright.stems hp).1
  branch_same _ := Upholds.same
  branch_treeSize_lt _ hup := hup.upright.treeSize_lt
  branch_page := by
    rintro s w height stem version r slots rfl hup
    obtain ⟨p, hp⟩ := hup.upright.pins
    refine ⟨rfl, Succeeding.mono (PageRef.page_succeeds hp) ?_⟩
    rintro found s' hkeeps ⟨rfl, hp'⟩
    exact ⟨hp', (hup.upright.stems hp).2, trivial, (hup.keep hkeeps).pageHolds hp'⟩
  branch_ofPage := by
    rintro s w height p slots rfl hholds
    refine ⟨rfl, Succeeding.mono (PageRef.ofPage_succeeds p .absent hholds.upright) ?_⟩
    rintro r s' hkeeps ⟨hup, hp, -⟩
    rw [hholds.treeKind] at hup
    refine ⟨PageHolds.upholds ?_ hup hp, hp⟩
    exact hholds.imp fun _ _ _ _ _ hup => hup.keep hkeeps

end QTree

end InMemory

namespace QTree

open StoreM Slots
open BTree (Trim)

/-! ## Well-shaped trees -/

/-- The tiles of a header are the smallest that cover the points of slots. -/
structure Frames (h : Header) (slots : List Slot) : Prop where
  x : h.x.Frames (slots.map fun slot => slot.x.base)
  y : h.y.Frames (slots.map fun slot => slot.y.base)

/-- Merging two pages keeps what both hold. -/
def Mergeable (p q : LivePage) : Prop :=
  p.kind = q.kind ∧ ∀ version,
    (slotsOf (mergePages p q version).body).Perm (slotsOf p.body ++ slotsOf q.body) ∧
      (mergePages p q version).children = p.children ++ q.children

/-- A Q-tree in memory with slots is as the operations keep it. -/
structure WellShaped (s : Store) (r : PageRef) (slots : List Slot) : Prop where
  /-- No key is in two places, and every slot lies at a point. -/
  placed : WellPlaced slots
  /-- All leaves lie at one height and hold the slots. -/
  holds : ∃ height, Holds s.pinned height (.live r) slots
  /-- In every leaf the keys strictly increase. -/
  leaves : ∀ m p part, s.Beneath r m → s.Pins m p → p.body = .qtreeLeaf part → Sorted part
  /-- The tiles of every reference that is not empty are the smallest around what lies beneath. -/
  tiles : ∀ m, s.Beneath r m → m.span ≠ 0 →
    ∃ height part, Holds s.pinned height (.live m) part ∧ Frames m.header part
  /-- No child is empty. -/
  span_pos : ∀ m p, s.Beneath r m → s.Pins m p → ∀ k ∈ p.children, 0 < k.span
  /-- Siblings can be merged. -/
  siblings : ∀ m p, s.Beneath r m → s.Pins m p → ∀ a ∈ p.children, ∀ b ∈ p.children,
    ∃ pa pb, s.Pins a pa ∧ s.Pins b pb ∧ Mergeable pa pb
  /-- So can whatever a change leaves of a child and a sibling, if it stores no key at a second
  point. -/
  rebuilt : ∀ m p, s.Beneath r m → s.Pins m p → ∀ a ∈ p.children, ∀ b ∈ p.children,
    ∀ (key : Value) (point : Point) (value : Value) (version depth : Nat), point.Valid →
      (value.isDefined = true → ∀ slot ∈ slots, slot.key = key → Point.ofSlot slot = point) →
      a.treeSize < depth →
        ∃ a' s', exec (updatedWithin key point value version depth a) s = (.ok a', s') ∧
          ∃ pa pb, s'.Pins a' pa ∧ s'.Pins b pb ∧ Mergeable pa pb
  /-- The root is a leaf or has at least two children. -/
  root : ∃ p, s.Pins r p ∧ (p.isNode = true → 2 ≤ p.arity)

section WellShaped

variable {s s' : Store} {height stem : Nat} {r m a b : PageRef} {slots : List Slot}
  {p q : LivePage}

/-- Around slots at points, the smallest tiles are the smallest that cover their coordinates. -/
theorem Around.frames {h : Header} (haround : Around h slots)
    (hvalid : ∀ slot ∈ slots, (Point.ofSlot slot).Valid) : Frames h slots := by
  have hpoints : ∀ slot ∈ slots, (slot.x.base ≤ maxCoordinate ∧ slot.x = .point slot.x.base) ∧
      slot.y.base ≤ maxCoordinate ∧ slot.y = .point slot.y.base := by
    intro slot hslot
    obtain ⟨x, y, hx, hy, heq⟩ := hvalid slot hslot
    have hslotX : slot.x = .point x := congrArg Point.x heq
    have hslotY : slot.y = .point y := congrArg Point.y heq
    rw [hslotX, hslotY, Tile.base_point hx, Tile.base_point hy]
    exact ⟨⟨hx, rfl⟩, hy, rfl⟩
  have hxs : slots.map Slot.x = (slots.map fun slot => slot.x.base).map Tile.point := by
    rw [List.map_map]
    exact List.map_congr_left fun slot hslot => (hpoints slot hslot).1.2
  have hys : slots.map Slot.y = (slots.map fun slot => slot.y.base).map Tile.point := by
    rw [List.map_map]
    exact List.map_congr_left fun slot hslot => (hpoints slot hslot).2.2
  refine ⟨(hxs ▸ haround.x).frames ?_, (hys ▸ haround.y).frames ?_⟩
  · intro n hn
    obtain ⟨slot, hslot, rfl⟩ := List.mem_map.1 hn
    exact (hpoints slot hslot).1.1
  · intro n hn
    obtain ⟨slot, hslot, rfl⟩ := List.mem_map.1 hn
    exact (hpoints slot hslot).2.1

/-- Pages that hold slots at one height can be merged. -/
theorem PageHolds.mergeable {S S' : Judgment} {part part' : List Slot}
    (hp : PageHolds S height p part) (hq : PageHolds S' height q part') : Mergeable p q := by
  refine ⟨by rw [hp.kind, hq.kind], fun version => ?_⟩
  obtain ⟨v, st, body⟩ := p
  obtain ⟨v', st', body'⟩ := q
  cases height with
  | zero =>
      obtain ⟨-, rfl⟩ := hp
      obtain ⟨-, rfl⟩ := hq
      exact ⟨List.mergeSort_perm _ _, rfl⟩
  | succ height =>
      obtain ⟨as, -, rfl, -, -⟩ := hp
      obtain ⟨bs, -, rfl, -, -⟩ := hq
      exact ⟨List.Perm.refl _, rfl⟩

/-- The children of a page hold, at one height, slots of their own, which are some of those of
the page. -/
theorem Upholds.children (hup : Upholds s height stem m slots) (hp : s.Pins m p) :
    ∃ below, ∀ k ∈ p.children, ∃ part, part ≠ [] ∧ part.Sublist slots ∧
      Upholds s below stem k part := by
  have hholds := hup.pageHolds hp
  have hstem := (hup.upright.stems hp).2
  obtain ⟨version, pageStem, body⟩ := p
  cases height with
  | zero =>
      obtain ⟨-, rfl⟩ := hholds
      exact ⟨0, fun k hk => by cases hk⟩
  | succ height =>
      obtain ⟨children, parts, rfl, hfilled, rfl⟩ := hholds
      refine ⟨height, fun k hk => ?_⟩
      obtain ⟨part, hpart, hne, hchild⟩ := hfilled.part_of_mem hk
      exact ⟨part, hne, List.sublist_flatten_of_mem hpart, hstem ▸ hchild⟩

/-- What lies beneath a Q-tree are Q-trees with some of its slots. -/
theorem Upholds.beneath (hup : Upholds s height stem r slots) (hbeneath : s.Beneath r m) :
    ∃ height' part, part.Sublist slots ∧ Upholds s height' stem m part := by
  induction hbeneath with
  | root => exact ⟨height, slots, List.Sublist.refl _, hup⟩
  | child _ pins mem ih =>
      obtain ⟨height', part, hsub, hm⟩ := ih
      obtain ⟨below, hchildren⟩ := hm.children pins
      obtain ⟨part', -, hsub', hk⟩ := hchildren _ mem
      exact ⟨below, part', hsub'.trans hsub, hk⟩

/-- What a change leaves of a subtree with slots lies at the same height. -/
theorem Upholds.updated {key value : Value} {point : Point} (version : Nat)
    (hup : Upholds s height stem a slots) (hne : slots ≠ []) (hplaced : WellPlaced slots)
    (hvalid : point.Valid)
    (hhome : value.isDefined = true → ∀ slot ∈ slots, slot.key = key → Point.ofSlot slot = point)
    (depth : Nat) (hdepth : a.treeSize < depth) :
    Succeeds (updatedWithin key point value version depth a) s fun a' s' =>
      ∃ slots', Upholds s' height stem a' slots' := by
  have hbranch : Terrain.Branch s height stem version a slots := hup
  -- the descent has been judged over every terrain; memory is one
  have hbecomes : Succeeds (updatedWithin key point value version depth a) s fun a' s' =>
      Becomes s' height stem version slots a' (change key point value slots) :=
    (updatedWithin_runs rfl depth hdepth hvalid hplaced hhome hbranch).2
  apply Succeeding.mono hbecomes
  rintro a' s' - ⟨height', slots', hup', -, hheight⟩
  obtain rfl := hheight hne
  exact ⟨slots', hup'⟩

/-- A Q-tree in memory is well shaped if its slots are well placed and its root is trim. -/
theorem Upholds.wellShaped (hup : Upholds s height stem r slots) (hplaced : WellPlaced slots)
    (htrim : Trim s r) : WellShaped s r slots where
  placed := hplaced
  holds := ⟨height, hup.holds⟩
  leaves := by
    intro m p part hbeneath hp hbody
    obtain ⟨height', part', -, hm⟩ := hup.beneath hbeneath
    have hholds := hm.pageHolds hp
    cases height' with
    | zero =>
        obtain ⟨hsorted, hbody'⟩ := hholds
        rw [hbody] at hbody'
        cases hbody'
        exact hsorted
    | succ height' =>
        obtain ⟨children, parts, hbody', -⟩ := hholds
        rw [hbody] at hbody'
        cases hbody'
  tiles := by
    intro m hbeneath hspan
    obtain ⟨height', part, hsub, hm⟩ := hup.beneath hbeneath
    have hne : part ≠ [] := by
      rintro rfl
      exact hspan hm.span
    have hvalid := (hplaced.sublist hsub).valid
    exact ⟨height', part, hm.holds, (hm.around hne hvalid).frames hvalid⟩
  span_pos := by
    intro m p hbeneath hp k hk
    obtain ⟨height', part, -, hm⟩ := hup.beneath hbeneath
    obtain ⟨below, hchildren⟩ := hm.children hp
    obtain ⟨part', hne, -, hk'⟩ := hchildren k hk
    rw [hk'.span]
    exact List.length_pos_iff.2 hne
  siblings := by
    intro m p hbeneath hp a ha b hb
    obtain ⟨height', part, -, hm⟩ := hup.beneath hbeneath
    obtain ⟨below, hchildren⟩ := hm.children hp
    obtain ⟨parta, -, -, ha'⟩ := hchildren a ha
    obtain ⟨partb, -, -, hb'⟩ := hchildren b hb
    obtain ⟨pa, hpa⟩ := ha'.upright.pins
    obtain ⟨pb, hpb⟩ := hb'.upright.pins
    -- siblings lie at one height, so either both are leaves or both are nodes
    exact ⟨pa, pb, hpa, hpb, (ha'.pageHolds hpa).mergeable (hb'.pageHolds hpb)⟩
  rebuilt := by
    intro m p hbeneath hp a ha b hb key point value version depth hvalid hhome hdepth
    obtain ⟨height', part, hsub, hm⟩ := hup.beneath hbeneath
    obtain ⟨below, hchildren⟩ := hm.children hp
    obtain ⟨parta, hne, hsuba, ha'⟩ := hchildren a ha
    obtain ⟨partb, -, -, hb'⟩ := hchildren b hb
    have hslots := hsuba.trans hsub
    obtain ⟨a', s', hexec, hkeeps, parta', hrebuilt⟩ := ha'.updated version hne
      (hplaced.sublist hslots) hvalid
      (fun hdefined slot hslot => hhome hdefined slot (hslots.subset hslot)) depth hdepth
    obtain ⟨pa, hpa⟩ := hrebuilt.upright.pins
    obtain ⟨pb, hpb⟩ := (hb'.keep hkeeps).upright.pins
    exact ⟨a', s', hexec, pa, pb, hpa, hpb,
      (hrebuilt.pageHolds hpa).mergeable ((hb'.keep hkeeps).pageHolds hpb)⟩
  root := htrim

end WellShaped

/-! ## Steps -/

/-- What may be done with a Q-tree in memory. -/
inductive Step where
  | change (c : Change) (version post : Nat)
  | upkeep (work : Tree.Upkeep)

/-- The points of a step are some that tiles can hold. -/
def Step.Fits : Step → Prop
  | change c _ _ => c.Fits
  | upkeep _ => True

instance : DecidablePred Step.Fits
  | .change c _ _ => inferInstanceAs (Decidable c.Fits)
  | .upkeep _ => inferInstanceAs (Decidable True)

/-- Does a step. -/
def Step.apply (t : Tree) : Step → StoreM Tree
  | change c version post => c.apply t version post
  | upkeep work => work.apply t

/-- Does steps one after another, each with a tree of the shelf; the tree that it makes is put on
the shelf too.  A step at a point that tiles cannot hold is passed over. -/
def applySteps (trees : List Tree) (steps : List (Nat × Step)) : StoreM (List Tree) :=
  steps.foldlM (fun trees step => do
    match trees[step.1]? with
    | some t => if step.2.Fits then return trees ++ [← step.2.apply t] else return trees
    | none => return trees) trees

/-- A change at a point that tiles cannot hold is refused, and nothing happens. -/
theorem Change.refused {change : Change} (hbeyond : ¬ change.Fits) (t : Tree)
    (version post : Nat) (s : Store) :
    ∃ reason, exec (change.apply t version post) s = (.error (.invalidArgument reason), s) := by
  -- only the points decide, and they are looked at first
  have hrefused : ∀ {x y} {f : Point → StoreM Tree}, ¬ (x ≤ maxCoordinate ∧ y ≤ maxCoordinate) →
      ∃ reason, exec (pointAt x y >>= f) s = (.error (.invalidArgument reason), s) := by
    intro x y f hout
    rcases pointAt_cases x y s with ⟨hx, hy, -⟩ | ⟨reason, hexec⟩
    · exact absurd ⟨hx, hy⟩ hout
    · exact ⟨reason, by rw [exec_bind, hexec]⟩
  cases change with
  | update key x y value => exact hrefused hbeyond
  | remove key x y => exact hrefused hbeyond
  | move key oldX oldY newX newY value =>
      by_cases hold : oldX ≤ maxCoordinate ∧ oldY ≤ maxCoordinate
      · have hnew : ¬ (newX ≤ maxCoordinate ∧ newY ≤ maxCoordinate) :=
          fun hnew => hbeyond ⟨hold.1, hold.2, hnew.1, hnew.2⟩
        show ∃ reason, exec (QTree.move t key oldX oldY newX newY value version post) s = _
        unfold QTree.move
        rw [pointAt_eq hold.1 hold.2, pure_bind]
        exact hrefused hnew
      · exact hrefused hold
  | clear => exact absurd trivial hbeyond

/-- A Q-tree all in memory, as the steps keep it, stands for a map of the plane. -/
structure Settled (s : Store) (t : Tree) (f : Plane) : Prop where
  kind : t.seed.kind = .qtree
  root : ∃ height slots, Upholds s height t.seed.stem t.root slots ∧ WellPlaced slots ∧
    plane slots = f
  trim : Trim s t.root

section Settled

variable {s s' : Store} {height version : Nat} {t : Tree} {r : PageRef} {slots : List Slot}
  {f : Plane}

theorem Settled.keep (hkeeps : s.Keeps s') (hsettled : Settled s t f) : Settled s' t f := by
  obtain ⟨height, slots, hup, hplaced, hplane⟩ := hsettled.root
  exact ⟨hsettled.kind, ⟨height, slots, hup.keep hkeeps, hplaced, hplane⟩,
    hsettled.trim.keep hkeeps⟩

/-- The tree with another root, unless it is the same. -/
theorem Settled.withRoot (hsettled : Settled s t f)
    (hup : Upholds s height t.seed.stem r slots) (hplaced : WellPlaced slots)
    (htrim : Trim s r) : Settled s (t.withRoot r) (plane slots) := by
  unfold Tree.withRoot
  split
  · next hsame =>
      obtain ⟨height', slots', hup', -, rfl⟩ := hsettled.root
      obtain rfl := hup.same hup' hsame
      exact hsettled
  · exact ⟨hsettled.kind, ⟨height, slots, hup, hplaced, rfl⟩, htrim⟩

/-- A tree is settled again after a change of its root. -/
theorem Settled.rebalanced_succeeds (hsettled : Settled s t f) (post : Nat)
    (hplaced : WellPlaced slots) (hroot : Root s t.seed.stem version r slots) :
    Succeeds (rebalanced t r version post) s fun t' s' => Settled s' t' (plane slots) := by
  unfold rebalanced
  split
  · next hsame =>
      obtain ⟨height, slots₁, hup, hplaced₁, rfl⟩ := hsettled.root
      obtain ⟨height', slots₂, hup', hperm⟩ := hroot
      obtain rfl : slots₂ = slots₁ := Upholds.same hup' hup hsame
      apply Succeeding.pure
      rw [← plane_perm hplaced hperm]
      exact hsettled
  · apply Succeeding.bind (balanced_runs (w := s) rfl hroot).2
    rintro r' s' hkeeps ⟨⟨height, slots', hbranch, hperm⟩, htrim⟩
    have hup : Upholds s' height t.seed.stem r' slots' := hbranch
    apply Succeeding.bind (PageRef.evacuated_succeeds post version hup.upright)
    intro r'' s'' hkeeps' hlike
    apply Succeeding.pure
    rw [← plane_perm hplaced hperm]
    exact ((hsettled.keep hkeeps).keep hkeeps').withRoot ((hup.keep hkeeps').likeness hlike)
      (hplaced.perm hperm) ((htrim.keep hkeeps').likeness hlike)

/-- Rebalancing settles the tree again. -/
theorem Settled.settles (hsettled : Settled s t f) (version post : Nat) :
    Settles s s t version post fun g t' s' _ => Settled s' t' g := by
  rintro s' w' r slots ⟨-, rfl, hkeeps⟩ hplaced hroot
  exact ⟨rfl, (hsettled.keep hkeeps).rebalanced_succeeds post hplaced hroot⟩

/-- A new empty tree is settled. -/
theorem empty_settled (s : Store) (seed : Seed) (hkind : seed.kind = .qtree) :
    Succeeds (Tree.empty seed) s fun t s' => Settled s' t .empty := by
  unfold Tree.empty
  rw [hkind]
  apply Succeeding.bind (ofPage_empty_runs (w := s) rfl seed.stem 0).2
  rintro r s' - ⟨⟨height, slots, hup, hperm⟩, htrim⟩
  obtain rfl := List.perm_nil.1 hperm
  exact Succeeding.pure ⟨hkind, ⟨height, [], hup, wellPlaced_nil, rfl⟩, htrim⟩

/-- A tree that is cleared is settled. -/
theorem Settled.cleared_succeeds (hsettled : Settled s t f) (version : Nat) :
    Succeeds (t.cleared version) s fun t' s' => Settled s' t' .empty := by
  obtain ⟨height, slots, hup, hplaced, rfl⟩ := hsettled.root
  have hkind : t.kind = .qtree := hsettled.kind
  have hempty := (ofPage_empty_runs (w := s) rfl t.seed.stem version).2
  rw [← hkind] at hempty
  apply Succeeding.mono (Tree.cleared_succeeds version hempty)
  rintro t' s' hkeeps (⟨rfl, hspan⟩ | ⟨r, rfl, ⟨height', slots', hup', hperm⟩, htrim⟩)
  · obtain rfl : slots = [] := List.length_eq_zero_iff.1 (by rw [← hup.span, hspan])
    exact hsettled.keep hkeeps
  · obtain rfl := List.perm_nil.1 hperm
    exact (hsettled.keep hkeeps).withRoot hup' wellPlaced_nil htrim

/-- A change at points that tiles can hold settles again, with the change made on the plane. -/
theorem Settled.change_succeeds (hsettled : Settled s t f) (change : Change) (hfits : change.Fits)
    (version post : Nat) :
    Succeeds (change.apply t version post) s fun t' s' => Settled s' t' (change.onPlane f) := by
  have hsettles := hsettled.settles version post
  obtain ⟨height, slots, hup, hplaced, rfl⟩ := hsettled.root
  have hbranch : Terrain.Branch s height t.seed.stem version t.root slots := hup
  have hroot := root_of_branch hbranch
  cases change with
  | update key x y value =>
      exact (hsettles.update_runs rfl hplaced hroot hfits.1 hfits.2 key value).2
  | remove key x y => exact (hsettles.remove_runs rfl hplaced hroot hfits.1 hfits.2 key).2
  | move key oldX oldY newX newY value =>
      obtain ⟨holdX, holdY, hnewX, hnewY⟩ := hfits
      exact (hsettles.move_runs rfl hplaced hroot hnewX hnewY holdX holdY key value).2
  | clear => exact hsettled.cleared_succeeds version

/-- Every step that fits settles again. -/
theorem Settled.step_succeeds (hsettled : Settled s t f) (step : Step) (hfits : step.Fits) :
    Succeeds (step.apply t) s fun t' s' => ∃ f', Settled s' t' f' := by
  cases step with
  | change c version post =>
      apply Succeeding.mono (hsettled.change_succeeds c hfits version post)
      exact fun t' s' _ hsettled' => ⟨_, hsettled'⟩
  | upkeep work =>
      obtain ⟨height, slots, hup, hplaced, hplane⟩ := hsettled.root
      have hkind := hsettled.kind
      have hupright : s.Upright t.seed.kind t.seed.stem t.root := hkind ▸ hup.upright
      apply Succeeding.mono (work.apply_succeeds hupright)
      rintro t' s' hkeeps ⟨hkind', hstem, hlike⟩
      rw [hkind] at hkind' hlike
      have hup' := (hup.keep hkeeps).likeness hlike
      exact ⟨f, hkind', ⟨height, slots, hstem ▸ hup', hplaced, hplane⟩,
        (hsettled.trim.keep hkeeps).likeness hlike⟩

/-- A run of steps keeps every tree of the shelf settled. -/
theorem applySteps_succeeds (steps : List (Nat × Step)) (trees : List Tree)
    (hsettled : ∀ t ∈ trees, ∃ f, Settled s t f) :
    Succeeds (applySteps trees steps) s fun trees' s' => ∀ t ∈ trees', ∃ f, Settled s' t f := by
  apply Succeeding.foldlM (Q := fun trees s => ∀ t ∈ trees, ∃ f, Settled s t f) _ hsettled
  intro trees step s hsettled
  cases hat : trees[step.1]? with
  | none => exact Succeeding.pure hsettled
  | some t =>
      obtain ⟨f, ht⟩ := hsettled t (List.mem_of_getElem? hat)
      dsimp only
      split
      · next hfits =>
          apply Succeeding.bind (ht.step_succeeds step.2 hfits)
          intro t' s' hkeeps ht'
          apply Succeeding.pure
          intro t₁ ht₁
          rcases List.mem_append.1 ht₁ with hold | hnew
          · obtain ⟨f₁, hold⟩ := hsettled t₁ hold
            exact ⟨f₁, hold.keep hkeeps⟩
          · obtain rfl := List.mem_singleton.1 hnew
            exact ht'
      · exact Succeeding.pure hsettled

end Settled

/-- Whatever steps are done, at any versions and in any order, with an empty Q-tree and the trees
that are made of it, they succeed, and all these trees are well shaped in the end. -/
theorem steps_keep_shape (s : Store) (stem : Nat) (created updated : Timestamp)
    (steps : List (Nat × Step)) :
    ∃ trees s', exec (do applySteps [← Tree.empty ⟨.qtree, stem, created, updated⟩] steps) s =
        (.ok trees, s') ∧
      ∀ t ∈ trees, ∃ slots, WellShaped s' t.root slots ∧ t.span = slots.length := by
  have hruns : Succeeds (do applySteps [← Tree.empty ⟨.qtree, stem, created, updated⟩] steps) s
      fun trees s' => ∀ t ∈ trees, ∃ f, Settled s' t f := by
    apply Succeeding.bind (empty_settled s ⟨.qtree, stem, created, updated⟩ rfl)
    intro t s' _ hsettled
    apply applySteps_succeeds
    intro t' ht'
    obtain rfl := List.mem_singleton.1 ht'
    exact ⟨.empty, hsettled⟩
  obtain ⟨trees, s', hexec, -, hall⟩ := hruns
  refine ⟨trees, s', hexec, fun t ht => ?_⟩
  obtain ⟨f, hsettled⟩ := hall t ht
  obtain ⟨height, slots, hup, hplaced, -⟩ := hsettled.root
  exact ⟨slots, hup.wellShaped hplaced hsettled.trim, hup.span⟩

end QTree

end PageTree
