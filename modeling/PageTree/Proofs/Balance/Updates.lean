import PageTree.Proofs.BTree.Derived
import PageTree.Proofs.Balance.Rebuilding
import PageTree.Proofs.Commit.Kept

/-!
# What updates share

An update of a B-tree or a Q-tree shares with the tree that it makes whatever lies aside of the way
down to the leaf that it changes (`update_inherits`): at each node on the way, all children but the
one that the way goes on with and at most one of its neighbours.  So wherever the pages of the tree
are, these references are in the new tree as they were, and those that are committed are not written
again (`updates_leave_siblings`).
-/

namespace PageTree

open StoreM
open BTree (Realm)
open QTree (Terrain)

variable {s s' : Store} {t t' : Tree} {r : PageRef} {turns : List Turn} {version : Nat}
  {Leads : LivePage → Nat → Prop}

/-- A tree has been made of another.  It is the same, or it shares what lies aside of a way down
from the root of the other. -/
def Tree.Inherits (s : Store) (kind : TreeKind) (Leads : LivePage → Nat → Prop) (t t' : Tree) :
    Prop :=
  t' = t ∨ ∃ turns, s.Way Leads t.root turns ∧ ∀ turn ∈ turns, s.Shares kind t'.root turn

/-- A tree takes a root that shares what lies aside of a way down from the old one. -/
theorem Tree.inherits_withRoot {kind : TreeKind} (hway : s.Way Leads t.root turns)
    (hshares : ∀ turn ∈ turns, s.Shares kind r turn) (version : Nat) :
    Attains (do return t.withRoot (← r.evacuated 0 version)) s fun t' s' =>
      t.Inherits s' kind Leads t' := by
  refine .bind (PageRef.evacuated_zero_attains r version) ?_
  rintro _ s' - hretains rfl
  refine .pure ?_
  unfold Tree.withRoot
  split
  · exact .inl rfl
  · exact .inr ⟨turns, hway.keep hretains.keeps,
      fun turn hturn => (hshares turn hturn).keep hretains.keeps⟩

/-- A judgment by which references stand for so many items: those beneath a reference for at least
one each, and there are some beneath every node that stands for any. -/
structure Census (W : Type) [Terrain W] (J : W → PageRef → Nat → Prop) : Prop where
  allocated {s : Store} {w : W} {r : PageRef} {n : Nat} : Realm.Represents s w → J w r n →
    r.id < s.cells.size
  span {s : Store} {w : W} {r : PageRef} {n : Nat} : Realm.Represents s w → J w r n → r.span = n
  page {s : Store} {w : W} {r : PageRef} {n : Nat} : Realm.Represents s w → J w r n →
    Realm.Runs r.page s w fun p _ w' => (∀ m ∈ p.children, ∃ k, k ≠ 0 ∧ J w' m k) ∧
      (p.isNode = true → n ≠ 0 → p.children ≠ [])

theorem Census.branching {W : Type} [Terrain W] [Traceable W] {J : W → PageRef → Nat → Prop}
    (hcensus : Census W J) : Branching fun s r => ∃ w n, Realm.Represents s w ∧ J w r n where
  allocated s r hstands := by
    obtain ⟨w, n, hrep, hr⟩ := hstands
    exact hcensus.allocated hrep hr
  child s r page s' hstands hread m hm := by
    obtain ⟨w, n, hrep, hr⟩ := hstands
    obtain ⟨w', hgrows, hchildren, -⟩ := Traceable.of_ok (hcensus.page hrep hr) hread
    obtain ⟨k, -, hchild⟩ := hchildren m hm
    exact ⟨w', k, Realm.represents hgrows, hchild⟩
  child_span s r page s' hstands hread m hm := by
    obtain ⟨w, n, hrep, hr⟩ := hstands
    obtain ⟨w', hgrows, hchildren, -⟩ := Traceable.of_ok (hcensus.page hrep hr) hread
    obtain ⟨k, hk, hchild⟩ := hchildren m hm
    rwa [hcensus.span (Realm.represents hgrows) hchild]
  node s r page s' hstands hread hnode hspan := by
    obtain ⟨w, n, hrep, hr⟩ := hstands
    obtain ⟨w', -, -, hfull⟩ := Traceable.of_ok (hcensus.page hrep hr) hread
    exact hfull hnode (hcensus.span hrep hr ▸ hspan)

/-! ## B-trees -/

namespace BTree

variable {W : Type} [Terrain W] [Traceable W] {w : W} {height stem : Nat} {es : List Entry}
  {p page : LivePage}

/-- The reference stands for a subtree of so many entries. -/
def Stands (w : W) (r : PageRef) (n : Nat) : Prop :=
  ∃ height stem version es, Realm.Subtree w height stem version r es ∧ es.length = n

theorem census : Census W Stands where
  allocated := by
    rintro s w r n hrep ⟨height, stem, version, es, hsub, -⟩
    exact Traceable.subtree_allocated hrep hsub
  span := by
    rintro s w r n hrep ⟨height, stem, version, es, hsub, rfl⟩
    exact Realm.span hrep hsub
  page := by
    rintro s w r n hrep ⟨height, stem, version, es, hsub, rfl⟩
    refine Realm.mono (Realm.page_runs hrep hsub) ?_
    rintro p s' w' - ⟨-, -, -, hholds⟩
    refine ⟨fun m hm => ?_, fun hnode hes => hholds.children_ne_nil hnode (by simpa using hes)⟩
    obtain ⟨below, part, -, hne, hchild⟩ := hholds.child hm
    exact ⟨part.length, by simpa using hne, below, _, _, part, hchild, rfl⟩

/-- What a rebuilt root carries is shared once the root has been balanced.  If no entries are left,
nothing may lie aside. -/
theorem balanced_shares (hrep : Realm.Represents s w) (hroot : Root w stem version r es)
    (hmade : s.Made page r) (hindex : ∀ turn ∈ turns, turn.index < turn.page.children.length)
    (hcarries : ∀ turn ∈ turns, s.Carries .btree page.children turn)
    (hspent : es = [] → ∀ turn ∈ turns, turn.page.children.length ≤ 1) :
    Attains (balanced r version) s fun r' s' => ∀ turn ∈ turns, s'.Shares .btree r' turn := by
  obtain ⟨height, hsub⟩ := hroot
  have hallocated := Traceable.subtree_allocated hrep hsub
  rw [balanced_eq]
  refine .bind (raised_attains hallocated) fun root s₁ hexec hretains hraised => .get ?_
  obtain ⟨w₁, hgrows, height₁, hsub₁⟩ := Traceable.of_ok (raised_runs hrep ⟨height, hsub⟩) hexec
  have hrep₁ := Realm.represents hgrows
  have hstands : Stands w₁ root es.length := ⟨height₁, stem, version, es, hsub₁, rfl⟩
  intro r' s₂ hexec₂
  obtain ⟨hretains₂, hcollapsed⟩ := collapseWithin_attains census.branching.toWalkable _
    ⟨w₁, es.length, hrep₁, hstands⟩ r' s₂ hexec₂
  obtain ⟨w₂, hgrows₂, -⟩ := Traceable.of_ok
    (collapseWithin_runs hrep₁ _ (Store.treeSize_lt_depthBound s₁ root) hsub₁) hexec₂
  have hkeeps := (hretains.trans hretains₂).keeps
  refine ⟨hretains₂, fun turn hturn => ?_⟩
  refine (hraised.keep hretains₂.keeps).shares census.branching hcollapsed
    ⟨w₂, es.length, Realm.represents hgrows₂, height₁, stem, version, es,
      Realm.subtree_grows hgrows₂ hsub₁, rfl⟩
    (hmade.keep hkeeps) (hindex turn hturn) (fun hspan => ?_) ((hcarries turn hturn).keep hkeeps)
  rw [Realm.span hrep₁ hsub₁] at hspan
  exact hspent (List.length_eq_zero_iff.1 hspan) turn hturn

/-- An update shares what lies aside of the way that its key leads. -/
theorem update_inherits (hrep : Realm.Represents s w) (hroot : Root w stem version t.root es)
    (key value : Value) :
    Attains (update t key value version 0) s fun t' s' =>
      t.Inherits s' .btree (LeadsTo key) t' := by
  obtain ⟨height, hsub⟩ := hroot
  unfold update
  refine .bind (updated_rebuilds hrep hsub) fun r s₁ hexec hretains hrebuilt => ?_
  unfold rebalanced
  refine .ite (fun _ => .pure (.inl rfl)) fun hmoved => ?_
  rcases hrebuilt with rfl | ⟨turns, page, hrebuilds, hspent⟩
  · exact absurd (by simp [PageRef.same]) hmoved
  obtain ⟨w₁, hgrows, hroot₁, -⟩ := Traceable.of_ok (updated_runs hrep ⟨height, hsub⟩) hexec
  refine .bind (balanced_shares (Realm.represents hgrows) hroot₁ hrebuilds.made
    hrebuilds.way.index_lt hrebuilds.carries hspent) fun r' s₂ _ hretains₂ hshares => ?_
  exact Tree.inherits_withRoot (hrebuilds.way.keep hretains₂.keeps) hshares version

end BTree

/-! ## Q-trees -/

namespace QTree

open Slots

variable {W : Type} [Terrain W] [Traceable W] {w : W} {height stem : Nat} {slots : List Slot}
  {p page : LivePage} {key value : Value} {point : Point} {x y : Nat}

/-- The reference stands for a subtree of so many slots. -/
def Stands (w : W) (r : PageRef) (n : Nat) : Prop :=
  ∃ height stem version slots, Terrain.Branch w height stem version r slots ∧ slots.length = n

theorem census : Census W Stands where
  allocated := by
    rintro s w r n hrep ⟨height, stem, version, slots, hbranch, -⟩
    exact Traceable.branch_allocated hrep hbranch
  span := by
    rintro s w r n hrep ⟨height, stem, version, slots, hbranch, rfl⟩
    exact Terrain.branch_span hrep hbranch
  page := by
    rintro s w r n hrep ⟨height, stem, version, slots, hbranch, rfl⟩
    refine Realm.mono (Terrain.branch_page hrep hbranch) ?_
    rintro p s' w' - ⟨-, -, -, hholds⟩
    refine ⟨fun m hm => ?_,
      fun hnode hslots => hholds.children_ne_nil hnode (by simpa using hslots)⟩
    obtain ⟨below, part, -, hne, hchild⟩ := hholds.child hm
    exact ⟨part.length, by simpa using hne, below, _, _, part, hchild, rfl⟩

/-- What a rebuilt root carries is shared once the root has been balanced.  If no slots are left,
nothing may lie aside. -/
theorem balanced_shares (hrep : Realm.Represents s w) (hroot : Root w stem version r slots)
    (hmade : s.Made page r) (hindex : ∀ turn ∈ turns, turn.index < turn.page.children.length)
    (hcarries : ∀ turn ∈ turns, s.Carries .qtree page.children turn)
    (hspent : slots = [] → ∀ turn ∈ turns, turn.page.children.length ≤ 1) :
    Attains (balanced r version) s fun r' s' => ∀ turn ∈ turns, s'.Shares .qtree r' turn := by
  obtain ⟨height, slots', hbranch, hperm⟩ := hroot
  have hallocated := Traceable.branch_allocated hrep hbranch
  rw [balanced_eq]
  refine .bind (raised_attains hallocated) fun root s₁ hexec hretains hraised => .get ?_
  obtain ⟨w₁, hgrows, height₁, slots₁, hbranch₁, hperm₁⟩ :=
    Traceable.of_ok (raised_runs hrep ⟨height, slots', hbranch, hperm⟩) hexec
  have hrep₁ := Realm.represents hgrows
  have hlength : slots₁.length = slots.length := hperm₁.length_eq
  intro r' s₂ hexec₂
  obtain ⟨hretains₂, hcollapsed⟩ := collapseWithin_attains census.branching.toWalkable _
    ⟨w₁, slots₁.length, hrep₁, height₁, stem, version, slots₁, hbranch₁, rfl⟩ r' s₂ hexec₂
  obtain ⟨w₂, hgrows₂, -⟩ := Traceable.of_ok
    (collapseWithin_runs hrep₁ _ (Store.treeSize_lt_depthBound s₁ root) hbranch₁) hexec₂
  have hkeeps := (hretains.trans hretains₂).keeps
  refine ⟨hretains₂, fun turn hturn => ?_⟩
  refine (hraised.keep hretains₂.keeps).shares census.branching hcollapsed
    ⟨w₂, slots₁.length, Realm.represents hgrows₂, height₁, stem, version, slots₁,
      Terrain.branch_grows hgrows₂ hbranch₁, rfl⟩
    (hmade.keep hkeeps) (hindex turn hturn) (fun hspan => ?_) ((hcarries turn hturn).keep hkeeps)
  rw [Terrain.branch_span hrep₁ hbranch₁, hlength] at hspan
  exact hspent (List.length_eq_zero_iff.1 hspan) turn hturn

/-- A change shares what lies aside of the way down to the leaf that it changes. -/
theorem changed_inherits {start : Store} (hsince : start.Retains s) (hrep : Realm.Represents s w)
    (hvalid : point.Valid) (hplaced : WellPlaced slots)
    (hhome : ∀ slot ∈ slots, slot.key = key → Point.ofSlot slot = point)
    (hroot : Root w stem version t.root slots) :
    Attains (do rebalanced t (← updated t.root key point value version) version 0) s fun t' s' =>
      t.Inherits s' .qtree (LeadsTo start key point value.isDefined) t' := by
  refine .bind (updated_rebuilds hsince hrep hvalid hplaced (fun _ => hhome) hroot)
    fun r s₁ hexec hretains hrebuilt => ?_
  unfold rebalanced
  refine .ite (fun _ => .pure (.inl rfl)) fun hmoved => ?_
  rcases hrebuilt with rfl | ⟨turns, page, hrebuilds, hspent⟩
  · exact absurd (by simp [PageRef.same]) hmoved
  obtain ⟨w₁, hgrows, hroot₁⟩ := Traceable.of_ok
    (updated_runs hrep hvalid hplaced (fun _ => hhome) hroot) hexec
  refine .bind (balanced_shares (Realm.represents hgrows) hroot₁ hrebuilds.made
    hrebuilds.way.index_lt hrebuilds.carries hspent) fun r' s₂ _ hretains₂ hshares => ?_
  exact Tree.inherits_withRoot (hrebuilds.way.keep hretains₂.keeps) hshares version

/-- An update of a key that lies at the point or nowhere shares what lies aside of the way down to
the leaf that it changes. -/
theorem update_inherits (hrep : Realm.Represents s w) (hplaced : WellPlaced slots)
    (hhome : ∀ slot ∈ slots, slot.key = key → slot.spot.x = x ∧ slot.spot.y = y)
    (hroot : Root w stem version t.root slots) (value : Value) :
    Attains (update t key x y value version 0) s fun t' s' =>
      t.Inherits s' .qtree (LeadsTo s key ⟨.point x, .point y⟩ value.isDefined) t' := by
  rcases pointAt_cases x y s with ⟨hx, hy, -⟩ | ⟨reason, hrefused⟩
  · have ⟨height, slots', hbranch, hperm⟩ := hroot
    have hvalid := valid_point hx hy
    replace hhome : ∀ slot ∈ slots, slot.key = key → Point.ofSlot slot = ⟨.point x, .point y⟩ :=
      fun slot hslot hkey =>
        (ofSlot_eq_iff (hplaced.valid slot hslot) hx hy).2 (hhome slot hslot hkey)
    unfold update
    rw [pointAt_eq hx hy, pure_bind]
    dsimp only
    refine .ite (fun _ => ?_) fun _ => changed_inherits (.refl s) hrep hvalid hplaced hhome hroot
    refine .bind (find_attains t.root) fun found s₁ hexec hretains _ => ?_
    obtain ⟨w₁, hgrows, hfinds⟩ := Traceable.of_ok
      (find_runs hrep (hplaced.perm hperm) hbranch key ⟨.point x, .point y⟩) hexec
    have hrep₁ := Realm.represents hgrows
    cases found with
    | some slot =>
        exact changed_inherits hretains hrep₁ hvalid hplaced hhome (hroot.grows hgrows)
    | none =>
        refine .bind (locate_attains t.root) fun located s₂ hexec₂ hretains₂ _ => ?_
        obtain ⟨w₂, hgrows₂, hlocates⟩ := Traceable.of_ok
          (locate_runs hrep₁ (hplaced.perm hperm) (Terrain.branch_grows hgrows hbranch) key) hexec₂
        cases located with
        | some slot =>
            -- the key lies at the point, where it would have been found
            obtain ⟨hslot, hkey⟩ := (hlocates slot).1 rfl
            exact absurd ⟨hkey, hhome slot (hperm.mem_iff.1 hslot) hkey⟩ (hfinds.none slot hslot)
        | none =>
            exact changed_inherits (hretains.trans hretains₂) (Realm.represents hgrows₂) hvalid
              hplaced hhome ((hroot.grows hgrows).grows hgrows₂)
  · intro t' s' hexec
    rw [update, exec_bind, hrefused] at hexec
    cases hexec

end QTree

/-! ## Siblings are left alone -/

section Siblings

open StoreM

variable {s : Store} {latest version : Nat} {t : Tree}

theorem BTree.Changeable.update_inherits {es : List Entry}
    (hready : BTree.Changeable s latest t es) (key value : Value) (version : Nat) :
    Attains (BTree.update t key value version 0) s fun t' s' =>
      t.Inherits s' .btree (BTree.LeadsTo key) t' := by
  cases hready with
  | memory settled =>
      have hroot : BTree.Root s t.seed.stem version t.root es := settled.root
      exact BTree.update_inherits (w := s) rfl hroot key value
  | @zones c represents contains =>
      exact BTree.update_inherits (BTree.Realm.represents_gallery represents)
        (contains.root.shown represents) key value

namespace QTree

open Slots

/-- A Q-tree stands for a map of the plane and may be changed at a version: its pages are all in
memory, or a chart tells where they are and none of them is newer. -/
inductive Changeable (s : Store) (version : Nat) (t : Tree) (f : Plane) : Prop where
  | memory (settled : Settled s t f)
  | zones {c : Chart} (represents : Represents s c) (contains : Contains c version t f)

theorem Changeable.update_inherits {f : Plane} (hready : Changeable s latest t f)
    {key : Value} {x y : Nat} (hhome : ∀ spot, f key = some spot → spot.x = x ∧ spot.y = y)
    (value : Value) (version : Nat) :
    Attains (update t key x y value version 0) s fun t' s' =>
      t.Inherits s' .qtree (LeadsTo s key ⟨.point x, .point y⟩ value.isDefined) t' := by
  cases hready with
  | memory settled =>
      obtain ⟨height, slots, hup, hplaced, rfl⟩ := settled.root
      have hbranch : Terrain.Branch s height t.seed.stem version t.root slots := hup
      refine QTree.update_inherits (w := s) rfl hplaced (fun slot hslot hkey => ?_)
        (root_of_branch hbranch) value
      exact hhome _ ((plane_eq_some_iff hplaced).2 ⟨slot, hslot, hkey, rfl⟩)
  | @zones c represents contains =>
      obtain ⟨slots, hplaced, rfl, hroot⟩ := contains.root
      refine QTree.update_inherits (BTree.Realm.represents_gallery represents) hplaced
        (fun slot hslot hkey => ?_) (hroot.shown represents) value
      exact hhome _ ((plane_eq_some_iff hplaced).2 ⟨slot, hslot, hkey, rfl⟩)

end QTree

/-- A later commit of a tree passes over the committed references among what the root unfolds to. -/
def Tree.KeepsCommitted (t : Tree) (s : Store) : Prop :=
  ∀ cut, s.Unfolds [t.root] cut → ∀ m ∈ cut, m.isCommitted = true → t.PassesOver s m

theorem Tree.keepsCommitted (t : Tree) (s : Store) : t.KeepsCommitted s := by
  intro cut hunfolds m hm hcommitted
  obtain ⟨r, hr, hwithin⟩ := hunfolds.within hm
  rw [List.mem_singleton] at hr
  exact passesOver_of_isCommitted hcommitted (hr ▸ hwithin)

/-- An update of a B-tree at a key, or of a Q-tree at a point where the key lies if it lies
anywhere, leaves the tree as it is, or it shares with the new tree what lies aside of the way down
to the leaf that it changes: at each node on the way all children but the one that the way goes on
with and at most one of its neighbours, in their order if it is a B-tree.  A later commit leaves
what is committed of it in the tree and writes nothing for it.  The pages of the tree may be newer
than the update. -/
theorem updates_leave_siblings :
    (∀ {s s' : Store} {latest version : Nat} {t t' : Tree} {es : List Entry} (key value : Value),
      BTree.Changeable s latest t es →
      exec (BTree.update t key value version 0) s = (.ok t', s') →
        t.Inherits s' .btree (BTree.LeadsTo key) t' ∧ t'.KeepsCommitted s') ∧
    ∀ {s s' : Store} {latest version : Nat} {t t' : Tree} {f : Plane} (key value : Value)
      (x y : Nat), QTree.Changeable s latest t f →
      (∀ spot, f key = some spot → spot.x = x ∧ spot.y = y) →
      exec (QTree.update t key x y value version 0) s = (.ok t', s') →
        t.Inherits s' .qtree (QTree.LeadsTo s key ⟨.point x, .point y⟩ value.isDefined) t' ∧
          t'.KeepsCommitted s' := by
  refine ⟨?_, ?_⟩
  · intro s s' latest version t t' es key value hready hexec
    exact ⟨(hready.update_inherits key value version t' s' hexec).2, t'.keepsCommitted s'⟩
  · intro s s' latest version t t' f key value x y hready hhome hexec
    exact ⟨(hready.update_inherits hhome value version t' s' hexec).2, t'.keepsCommitted s'⟩

/-- A store that cuts every page that can be cut. -/
def Store.cutting : Store :=
  .create { Settings.forTrials with pageSplitSize := 0 } false ⟨0⟩

/-- A B-tree of four leaves beneath two nodes, all committed. -/
def BTree.fourCommitted : StoreM Tree := do
  derive (← Tree.empty ⟨.btree, 1, ⟨0⟩, ⟨0⟩⟩) (fourPuts ++ [(1, .write .plain)])

/-- One entry of four is changed, and the next commit writes its leaf, the node above and the root.
In a Q-tree a second key is stored beside the first. -/
theorem updates_leave_siblings_after_commit :
    (∃ t s t' s' text t'' s'',
      exec BTree.fourCommitted .cutting = (.ok t, s) ∧ (∃ es, BTree.Changeable s 2 t es) ∧
      exec (BTree.update t (.int 2) (.int 21) 2 0) s = (.ok t', s') ∧
      t.Inherits s' .btree (BTree.LeadsTo (.int 2)) t' ∧
      exec (t'.buildDiff 1 1000 2) s' = (.ok (text, t''), s'') ∧
      text = "@bleaf(stem:1,v:2)\x7b2:21\x7d\n" ++
        "@bnode(stem:1,v:2)\x7b1:@page(zone:1,base:24,size:24,area:25,span:1)," ++
          "2:@page(zone:1,base:1024,size:24,area:25,span:1)\x7d\n" ++
        "@bnode(stem:1,v:2)\x7b1:@page(zone:1,base:1140,size:115,area:166,span:2)," ++
          "3:@page(zone:1,base:329,size:115,area:166,span:2)\x7d\n") ∧
    ∃ t f s t' s', QTree.Changeable s 1 t f ∧
      (∀ spot, f (.int 2) = some spot → spot.x = 5 ∧ spot.y = 5) ∧
      exec (QTree.update t (.int 2) 5 5 (.int 20) 1 0) s = (.ok t', s') ∧
      t.Inherits s' .qtree (QTree.LeadsTo s (.int 2) ⟨.point 5, .point 5⟩ true) t' := by
  refine ⟨?_, ?_⟩
  · obtain ⟨t, s, c, hexec, hproceeds, hall, hcontains⟩ := BTree.exists_derived (s := .cutting)
      Zones.sound_start rfl ⟨.btree, 1, ⟨0⟩, ⟨0⟩⟩ rfl (BTree.fourPuts ++ [(1, .write .plain)])
      (by decide)
    replace hcontains := hcontains.raise (show _ ≤ 2 by decide)
    have hready := BTree.Changeable.zones hproceeds.represents hcontains
    obtain ⟨t', s', c', hupdate, -⟩ := (BTree.update_runs hproceeds.represents hcontains (.int 2)
      (.int 21) 0).succeeds (Or.inl hall)
    have hinherits := (updates_leave_siblings.1 (.int 2) (.int 21) hready hupdate).1
    have hread : (exec (do
        let t ← BTree.fourCommitted
        let t' ← BTree.update t (.int 2) (.int 21) 2 0
        return (← t'.buildDiff 1 1000 2).1) .cutting).1 = .ok
          ("@bleaf(stem:1,v:2)\x7b2:21\x7d\n" ++
            "@bnode(stem:1,v:2)\x7b1:@page(zone:1,base:24,size:24,area:25,span:1)," ++
              "2:@page(zone:1,base:1024,size:24,area:25,span:1)\x7d\n" ++
            "@bnode(stem:1,v:2)\x7b1:@page(zone:1,base:1140,size:115,area:166,span:2)," ++
              "3:@page(zone:1,base:329,size:115,area:166,span:2)\x7d\n") := by
      decide +kernel
    change exec BTree.fourCommitted .cutting = _ at hexec
    rw [exec_bind, hexec] at hread
    simp only [exec_bind, hupdate] at hread
    generalize hbuild : exec (t'.buildDiff 1 1000 2) s' = built at hread
    obtain ⟨e | ⟨text, t''⟩, s''⟩ := built
    · cases hread
    · exact ⟨t, s, t', s', text, t'', s'', hexec, ⟨_, hready⟩, hupdate, hinherits, hbuild,
        Except.ok.inj hread⟩
  · obtain ⟨t₀, s₀, -, -, hsettled₀⟩ :=
      QTree.empty_settled .cutting ⟨.qtree, 1, ⟨0⟩, ⟨0⟩⟩ rfl
    obtain ⟨t, s, -, -, hsettled⟩ := hsettled₀.change_succeeds
      (.update (.int 1) 1 1 (.int 10)) (by decide) 1 0
    obtain ⟨t', s', hupdate, -⟩ := hsettled.change_succeeds
      (.update (.int 2) 5 5 (.int 20)) (by decide) 1 0
    have hnowhere : (QTree.Change.update (.int 1) 1 1 (.int 10)).onPlane .empty (.int 2) = none :=
      rfl
    have hhome : ∀ spot, (QTree.Change.update (.int 1) 1 1 (.int 10)).onPlane .empty (.int 2) =
        some spot → spot.x = 5 ∧ spot.y = 5 := by
      intro spot hspot
      rw [hnowhere] at hspot
      cases hspot
    have hready : QTree.Changeable s 1 t _ := .memory hsettled
    exact ⟨t, _, s, t', s', hready, hhome, hupdate,
      (updates_leave_siblings.2 (.int 2) (.int 20) 5 5 hready hhome hupdate).1⟩

end Siblings

end PageTree
