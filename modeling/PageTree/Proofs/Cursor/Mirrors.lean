import PageTree.Proofs.Cache.Answers

/-!
# Walks forth and back

The policies that go by more than a header look at the version of a page (`Scheme.delta`) or at the
depth and the fold of a subtree (`Scheme.depthLimited`).  What they decide follows from the chart
too, and every subtree is decided about (`Scheme.Total`), so every tree has a tour
(`Chart.Sound.exists_tours`).

What a cursor passes in one direction it passes in the other, in reverse.  So a scan from the end
yields what a scan from the start yields, backwards, and a move that has yielded an item is undone
by a move in the other direction, which yields the same item (`Cursor.scans_mirror`).  This holds
wherever some moves have led the cursor, and whatever is passed over on the way.
-/

namespace PageTree

section Policies

open StoreM

variable {ι : Type} {s : Store} {c : Chart} {n : Site}

/-! ## Tours of decided trees -/

/-- Something is decided about every subtree. -/
def Scheme.Total (scheme : Scheme ι) : Prop :=
  ∀ {c : Chart} {n : Site}, c.Sound n → ∀ (parent : Option (Page Site)) (index depth : Nat),
    ∃ decision, scheme.visit c parent index n depth decision

/-- Where every subtree is decided about every tree has a tour. -/
theorem Chart.Sound.exists_tours {scheme : Scheme ι} (htotal : scheme.Total) (hsound : c.Sound n)
    (parent : Option (Page Site)) (index depth : Nat) :
    ∃ l, c.Tours scheme parent index depth n l := by
  induction hsound generalizing parent index depth with
  | @intro n p found described fits folded covers beneath ih =>
      obtain ⟨decision, hvisit⟩ := htotal
        (.intro found described fits folded covers beneath) parent index depth
      cases decision with
      | skip => exact ⟨_, .skip hvisit⟩
      | emit item => exact ⟨_, .emit hvisit⟩
      | descend =>
          cases hnode : p.isNode with
          | false => exact ⟨_, .leaf hvisit found hnode⟩
          | true =>
              -- what is decided about a child may depend on its index
              have hchild : ∀ x ∈ p.children.zipIdx, ∃ part,
                  c.Tours scheme (some p) x.2 (depth + 1) x.1 part :=
                fun x hx => ih x.1 (List.fst_mem_of_mem_zipIdx hx) (some p) x.2 (depth + 1)
              obtain ⟨parts, hparts⟩ := exists_forall₂ hchild
              have hlength := hparts.length_eq
              rw [List.length_zipIdx] at hlength
              refine ⟨_, .node hvisit found hnode parts hlength fun i h h' => ?_⟩
              have htours := hparts.get (by simpa using h) h'
              simpa using htours

theorem Scheme.total_enterAll (slot : PageBody Unit → Nat → Option ι) :
    (Scheme.enterAll slot).Total :=
  fun _ _ _ _ => ⟨.descend, rfl⟩

theorem Scheme.total_sifting (enters : Header → Bool) (slot : PageBody Unit → Nat → Option ι) :
    (Scheme.sifting enters slot).Total :=
  fun _ _ _ _ => ⟨_, rfl⟩

/-! ## Deltas -/

/-- Restricts a scheme to pages written after a version. -/
def Scheme.delta (since : Nat) (scheme : Scheme ι) : Scheme ι where
  visit c parent index n depth decision := ∃ p, c.page n = some p ∧
    if p.version ≤ since then decision = .skip else scheme.visit c parent index n depth decision
  slot := scheme.slot

theorem Scheme.Total.delta {scheme : Scheme ι} (htotal : scheme.Total) (since : Nat) :
    (scheme.delta since).Total := by
  intro c n hsound parent index depth
  obtain ⟨p, hp⟩ := hsound.page
  obtain ⟨decision, hvisit⟩ := htotal hsound parent index depth
  by_cases hold : p.version ≤ since
  · exact ⟨.skip, p, hp, by rw [if_pos hold]⟩
  · exact ⟨decision, p, hp, by rwa [if_neg hold]⟩

theorem Policy.Follows.delta {policy : Policy ι} {scheme : Scheme ι}
    (hfollows : policy.Follows scheme) (since : Nat) :
    (policy.delta since).Follows (scheme.delta since) where
  visit := by
    rintro s c parent index child depth decision hrep hr ⟨p, hp, hdecision⟩
    rw [delta_visit]
    refine Runs.bind (versionOf_runs hrep hr hp) ?_
    rintro _ s' c' hgrows rfl
    split
    · next hold =>
        rw [if_pos hold] at hdecision
        exact Runs.pure hgrows.represents hdecision.symm
    · next hnew =>
        rw [if_neg hnew] at hdecision
        exact hfollows.visit hgrows.represents (hgrows.le.refs child hr)
          (hfollows.mono hgrows.le hdecision)
  slot := hfollows.slot
  mono := by
    rintro c c' parent index n depth decision hle ⟨p, hp, hdecision⟩
    refine ⟨p, Chart.page_mono hle hp, ?_⟩
    split at hdecision
    · next hold => rwa [if_pos hold]
    · next hnew =>
        rw [if_neg hnew]
        exact hfollows.mono hle hdecision

/-! ## Limited depth -/

/-- A cursor of limited depth enters a site that lies above the depth or has no known fold. -/
def Site.Entered (maxDepth depth : Nat) (n : Site) : Prop :=
  depth < maxDepth ∨ n.header.fold.isDefined = false

/-- From a depth on, a subtree whose fold is known is summed up. -/
def Scheme.depthLimited (maxDepth : Nat) : Scheme Entry where
  visit c parent index n depth decision :=
    if depth < maxDepth || !n.header.fold.isDefined then decision = .descend
    else ∃ p, c.page n = some p ∧
      decision = .emit (Policy.leastKeyOf parent index p, n.header.fold)
  slot body index := (BTree.slotsOf body)[index]?

/-- A subtree is entered or summed up, as its depth and its fold say. -/
theorem Scheme.depthLimited_cases {maxDepth index depth : Nat} {parent : Option (Page Site)}
    {decision : Visit Entry}
    (hvisit : (depthLimited maxDepth).visit c parent index n depth decision) :
    n.Entered maxDepth depth ∧ decision = .descend ∨
      maxDepth ≤ depth ∧ n.header.fold.isDefined = true ∧ ∃ p, c.page n = some p ∧
        decision = .emit (Policy.leastKeyOf parent index p, n.header.fold) := by
  simp only [depthLimited] at hvisit
  split at hvisit
  · next hentered =>
      simp only [Bool.or_eq_true, decide_eq_true_eq, Bool.not_eq_true'] at hentered
      exact Or.inl ⟨hentered, hvisit⟩
  · next hdeep =>
      simp only [Bool.or_eq_true, decide_eq_true_eq, Bool.not_eq_true', not_or, Nat.not_lt,
        Bool.not_eq_false] at hdeep
      exact Or.inr ⟨hdeep.1, hdeep.2, hvisit⟩

theorem Scheme.entered_of_descend {maxDepth index depth : Nat} {parent : Option (Page Site)}
    (hvisit : (depthLimited maxDepth).visit c parent index n depth .descend) :
    n.Entered maxDepth depth := by
  rcases depthLimited_cases hvisit with ⟨hentered, -⟩ | ⟨-, -, p, -, hdecision⟩
  · exact hentered
  · cases hdecision

theorem Scheme.total_depthLimited (maxDepth : Nat) : (Scheme.depthLimited maxDepth).Total := by
  intro c n hsound parent index depth
  obtain ⟨p, hp⟩ := hsound.page
  simp only [Scheme.depthLimited]
  split
  · exact ⟨.descend, rfl⟩
  · exact ⟨_, p, hp, rfl⟩

theorem Policy.follows_depthLimited (maxDepth : Nat) :
    (Policy.depthLimited maxDepth).Follows (.depthLimited maxDepth) where
  visit := by
    intro s c parent index child depth decision hrep hr hvisit
    simp only [Scheme.depthLimited, PageRef.header_site] at hvisit
    rw [show child.header.fold = child.fold from rfl] at hvisit
    unfold Policy.depthLimited
    refine Runs.ite ?_ ?_
    · intro hshallow
      rw [if_pos hshallow] at hvisit
      exact Runs.pure hrep hvisit.symm
    · intro hdeep
      rw [if_neg hdeep] at hvisit
      obtain ⟨p, hp, rfl⟩ := hvisit
      refine Runs.bind (leastKey_runs hrep hr hp) ?_
      rintro _ s' c' hgrows rfl
      exact Runs.pure hgrows.represents rfl
  slot := entries_yieldsAll.slot
  mono := by
    intro c c' parent index n depth decision hle hvisit
    simp only [Scheme.depthLimited] at hvisit ⊢
    split at hvisit
    · next hshallow => rwa [if_pos hshallow]
    · next hdeep =>
        rw [if_neg hdeep]
        obtain ⟨p, hp, hdecision⟩ := hvisit
        exact ⟨p, Chart.page_mono hle hp, hdecision⟩

/-- Every policy of a cursor follows a scheme by which every subtree is decided about. -/
theorem Policy.Scans.exists_scheme {policy : Policy ι} {kind : TreeKind}
    (hscans : policy.Scans kind) : ∃ scheme : Scheme ι, policy.Follows scheme ∧ scheme.Total := by
  cases hscans with
  | entries => exact ⟨_, entries_yieldsAll.follows, Scheme.total_enterAll _⟩
  | depthLimited maxDepth =>
      exact ⟨_, follows_depthLimited maxDepth, Scheme.total_depthLimited maxDepth⟩
  | delta since =>
      exact ⟨_, entries_yieldsAll.follows.delta since,
        Scheme.Total.delta (Scheme.total_enterAll _) since⟩
  | tiles => exact ⟨_, tiles_yieldsAll.follows, Scheme.total_enterAll _⟩
  | region x y => exact ⟨_, (region_sifts x y).follows, Scheme.total_sifting _ _⟩

end Policies

open StoreM

variable {ι : Type}

/-! ## Directions -/

namespace Direction

/-- The other direction. -/
def back : Direction → Direction
  | forward => backward
  | backward => forward

variable {d : Direction} {before after xs before' after' : List (Stretch ι)}

/-- What has been passed lies ahead of a walk back, the last of it first. -/
theorem Travels.rest_back (htravels : d.Travels before after xs before' after') :
    d.back.rest before' after' = xs.reverse ++ d.back.rest before after := by
  cases d with
  | forward =>
      obtain ⟨-, rfl⟩ := htravels
      simp [back, rest]
  | backward =>
      obtain ⟨-, rfl⟩ := htravels
      simp [back, rest]

end Direction

/-! ## First items -/

namespace Stretch

/-- The first item that is yielded for stretches. -/
def first? (l : List (Stretch ι)) : Option ι :=
  l.findSome? item?

theorem Silent.first? {l : List (Stretch ι)} (hsilent : Silent l) : first? l = none :=
  List.findSome?_eq_none_iff.2 hsilent

theorem first?_append_item {l l' : List (Stretch ι)} (hsilent : Silent l) (n : Nat) (item : ι) :
    first? (l ++ ⟨n, some item⟩ :: l') = some item := by
  have hnone : l.findSome? item? = none := hsilent.first?
  rw [Stretch.first?, List.findSome?_append, hnone]
  rfl

end Stretch

/-! ## Moves forth and back -/

namespace Cursor

variable {s : Store} {c : Chart} {scheme : Scheme ι} {r : PageRef} {k : Cursor ι}
  {before after : List (Stretch ι)}

/-- A move yields the first item ahead, and that item is then the first one of a walk back. -/
theorem Arrives.first_eq {d : Direction} {item? : Option ι}
    (harrives : Arrives d scheme r before after item? k c) :
    item? = Stretch.first? (d.rest before after) ∧ ∃ before' after',
      k.Stands c scheme r before' after' ∧
        (item?.isSome → Stretch.first? (d.back.rest before' after') = item?) := by
  cases item? with
  | none =>
      obtain ⟨hsilent, before', after', -, hstands⟩ := harrives
      exact ⟨hsilent.first?.symm, before', after', hstands, by simp⟩
  | some item =>
      obtain ⟨xs, n, hsilent, before', after', htravels, hstands⟩ := harrives
      refine ⟨?_, before', after', hstands, fun _ => ?_⟩
      · rw [htravels.rest_eq, List.append_assoc]
        exact (Stretch.first?_append_item hsilent n item).symm
      · rw [htravels.rest_back, List.reverse_append]
        exact Stretch.first?_append_item Stretch.silent_nil n item

/-- Moves one after another lead from gap to gap. -/
theorem Stands.mapM_advance_moves (hrep : Represents s c)
    (hstands : k.Stands c scheme r before after) (ds : List Direction) :
    Moves (ds.mapM CursorM.advance) k s c
      (fun _ k' c' => ∃ before' after', k'.Stands c' scheme r before' after')
      (fun _ _ => True) := by
  induction ds generalizing k s c before after with
  | nil => exact Moves.pure hrep ⟨before, after, hstands⟩
  | cons d ds ih =>
      rw [List.mapM_cons]
      refine (hstands.advance_moves hrep d).weaken.bind ?_
      intro item? k' s' c' hgrows harrives
      obtain ⟨-, before', after', hstands', -⟩ := harrives.first_eq
      refine (ih hgrows.represents hstands').bind ?_
      exact fun _ _ _ _ hgrows' hpost => Moves.pure hgrows'.represents hpost

/-- A move that yields an item, and then a move back, which yields it again. -/
theorem Stands.undo_moves (hrep : Represents s c) (hstands : k.Stands c scheme r before after)
    (d : Direction) :
    Moves ([d, d.back].mapM CursorM.advance) k s c
      (fun items _ _ => ∃ item? item?', items = [item?, item?'] ∧
        (item?.isSome → item?' = item?))
      (fun _ _ => True) := by
  simp only [List.mapM_cons, List.mapM_nil, bind_assoc, pure_bind]
  refine (hstands.advance_moves hrep d).weaken.bind ?_
  intro item? k' s' c' hgrows harrives
  obtain ⟨-, before', after', hstands', hback⟩ := harrives.first_eq
  refine (hstands'.advance_moves hgrows.represents d.back).weaken.bind ?_
  intro item?' k'' s'' c'' hgrows' harrives'
  refine Moves.pure hgrows'.represents ⟨item?, item?', rfl, fun hsome => ?_⟩
  rw [harrives'.first_eq.1, hback hsome]

/-- A scan may take as many items as there are stretches ahead. -/
theorem Stands.length_rest_lt (hrep : Represents s c)
    (hstands : k.Stands c scheme r before after) (d : Direction) (position : Nat) :
    (d.rest before after).length < s.walkBound r position := by
  obtain ⟨hr, htours⟩ := hstands.tour
  have hlength := htours.length_le (hrep.sound r hr)
  have hbound := lt_walkBound hrep.toMirrors hr position
  rw [PageRef.header_site, List.length_append] at hlength
  change _ ≤ r.treeSize at hlength
  cases d with
  | forward =>
      rw [Direction.rest]
      omega
  | backward =>
      rw [Direction.rest, List.length_reverse]
      omega

/-- Whatever policy of the program a cursor has, a scan back from the end of a tree yields what a
scan from the start yields, in reverse; and wherever moves lead a cursor, a move that yields an
item is followed by a move in the other direction that yields the same item. -/
theorem scans_mirror {policy : Policy ι} {kind : TreeKind} (hscans : policy.Scans kind)
    (hrep : Represents s c) (hserves : Serves s c) (hr : c.refs r) :
    ∃ items, (StoreM.exec ((start r policy).items .forward) s).1 = .ok items ∧
      (StoreM.exec ((start r policy).toEnd.items .backward) s).1 = .ok items.reverse ∧
      ∀ k, k = start r policy ∨ k = (start r policy).toEnd →
        ∀ (ds : List Direction) (d : Direction), ∃ passed item? item?',
          (((ds ++ [d, d.back]).mapM CursorM.advance).exec k s).1.1 =
              .ok (passed ++ [item?, item?']) ∧
            (item?.isSome → item?' = item?) := by
  obtain ⟨scheme, hfollows, htotal⟩ := hscans.exists_scheme
  obtain ⟨l, htours⟩ := (hrep.sound r hr).exists_tours htotal none 0 0
  have hstart := stands_start hfollows hr htours
  have hend := hstart.toEnd hrep
  rw [List.nil_append] at hend
  obtain ⟨items, s₁, c₁, hforth, -, rfl⟩ :=
    (hstart.items_runs hrep .forward (hstart.length_rest_lt hrep .forward _)).succeeds hserves
  obtain ⟨items', s₂, c₂, hback, -, rfl⟩ :=
    (hend.items_runs hrep .backward (hend.length_rest_lt hrep .backward _)).succeeds hserves
  refine ⟨_, by rw [hforth], ?_, ?_⟩
  · rw [hback, Direction.rest, Direction.rest, List.filterMap_reverse]
  · intro k hk ds d
    -- from wherever a cursor stands, a move and the move back undo each other
    obtain ⟨before, after, hstands⟩ : ∃ before after, k.Stands c scheme r before after := by
      rcases hk with rfl | rfl
      · exact ⟨_, _, hstart⟩
      · exact ⟨_, _, hend⟩
    obtain ⟨passed, k', s', c', hexec, hgrows, before', after', hstands'⟩ :=
      (hstands.mapM_advance_moves hrep ds).succeeds hserves
    obtain ⟨_, k'', s'', c'', hexec', -, item?, item?', rfl, hsame⟩ :=
      (hstands'.undo_moves hgrows.represents d).succeeds (hgrows.serves hserves)
    refine ⟨passed, item?, item?', ?_, hsame⟩
    rw [List.mapM_append, CursorM.exec_bind, hexec]
    dsimp only
    rw [CursorM.exec_bind, hexec']
    rfl

/-- Three entries, of which the last two are changed at a later version. -/
def laterChanges : List (Nat × BTree.Change) :=
  [(1, .update (.int 1) (.int 10)), (1, .update (.int 2) (.int 20)),
    (1, .update (.int 3) (.int 30)), (2, .update (.int 2) (.int 21)),
    (2, .update (.int 3) (.int 31))]

/-- A walk back over the newer ones of three leaves. -/
theorem scans_mirror_newer_leaves :
    ∃ t s c, StoreM.exec (do
          BTree.applyAll (← Tree.empty ⟨.btree, 1, ⟨0⟩, ⟨0⟩⟩) laterChanges)
        (.create { Settings.forTrials with pageSplitSize := 0 } false ⟨0⟩) = (.ok t, s) ∧
      Represents s c ∧ Serves s c ∧ c.refs t.root ∧
      (StoreM.exec ((start t.root (Policy.delta 1 Policy.entries)).toEnd.items .backward) s).1 =
        .ok [(.int 3, .int 31), (.int 2, .int 21)] := by
  obtain ⟨t, s, c, version, hexec, hrep, hserves, hcontains⟩ := BTree.exists_applied
    (.create { Settings.forTrials with pageSplitSize := 0 } false ⟨0⟩)
    ⟨.btree, 1, ⟨0⟩, ⟨0⟩⟩ rfl laterChanges (by decide)
  have hrefs := hcontains.root.fit.refs
  obtain ⟨items, hforth, hback, -⟩ := scans_mirror (.delta 1) hrep hserves hrefs
  have hread : (StoreM.exec ((do
      BTree.applyAll (← Tree.empty ⟨.btree, 1, ⟨0⟩, ⟨0⟩⟩) laterChanges) >>= fun t =>
        (start t.root (Policy.delta 1 Policy.entries)).items .forward)
      (.create { Settings.forTrials with pageSplitSize := 0 } false ⟨0⟩)).1 =
        .ok [(.int 2, .int 21), (.int 3, .int 31)] := by
    decide +kernel
  rw [StoreM.exec_bind, hexec] at hread
  obtain rfl : items = [(.int 2, .int 21), (.int 3, .int 31)] :=
    Except.ok.inj (hforth.symm.trans hread)
  exact ⟨t, s, c, hexec, hrep, hserves, hrefs, hback⟩

end Cursor

end PageTree
