import PageTree.Proofs.Balance.BTree
import PageTree.Proofs.Balance.QTree
import PageTree.Proofs.Balance.Sharing
import PageTree.Proofs.BTree.Unchanged
import PageTree.Proofs.Pictures.Terrain
import PageTree.Proofs.QTree.Shape

/-!
# What updates rebuild

An update of a B-tree or a Q-tree rebuilds the pages on one way down to a page without children, and
each rebuilt page carries what lies aside of the turns beneath it (`updatedWithin_rebuilds`).  That
siblings can be joined at all rests on the height of a tree, which the realms tell, so this is shown
over any realm whose runs tell what becomes of the store (`Traceable`).
-/

namespace PageTree

open StoreM
open BTree (Realm)
open QTree (Terrain)

/-- States of a store that can be followed along the runs of operations. -/
class Traceable (W : Type) [Terrain W] : Prop where
  /-- An operation that comes to a result leaves a state with what it promises. -/
  of_ok {α : Type} {act : StoreM α} {s s' : Store} {w : W} {P : α → Store → W → Prop} {a : α} :
    Realm.Runs act s w P → exec act s = (.ok a, s') → ∃ w', Realm.Grows s w s' w' ∧ P a s' w'
  subtree_allocated {s : Store} {w : W} {height stem version : Nat} {r : PageRef}
    {es : List Entry} : Realm.Represents s w → Realm.Subtree w height stem version r es →
    r.id < s.cells.size
  branch_allocated {s : Store} {w : W} {height stem version : Nat} {r : PageRef}
    {slots : List Slot} : Realm.Represents s w → Terrain.Branch w height stem version r slots →
    r.id < s.cells.size

instance : Traceable Store where
  of_ok := by
    rintro α act s s' w P a ⟨rfl, a', s'', hexec, hkeeps, hpost⟩ hexec'
    cases hexec.symm.trans hexec'
    exact ⟨s', ⟨rfl, rfl, hkeeps⟩, hpost⟩
  subtree_allocated := by
    rintro s w height stem version r es rfl hup
    obtain ⟨p, hp⟩ := hup.upright.pins
    exact hp.allocated
  branch_allocated := by
    rintro s w height stem version r slots rfl hup
    obtain ⟨p, hp⟩ := hup.upright.pins
    exact hp.allocated

instance : Traceable Gallery where
  of_ok := by
    rintro α act s s' g P a ⟨rfl, ⟨a', g', hexec, hle, hsound, hpost⟩ | ⟨-, e, s', hexec⟩⟩ hexec'
    · cases hexec.symm.trans hexec'
      exact ⟨g', ⟨rfl, rfl, hle, hsound⟩, hpost⟩
    · cases hexec.symm.trans hexec'
  subtree_allocated := by
    rintro s g height stem version r es ⟨rfl, hsound⟩ ⟨t, hr, -⟩
    exact hsound.allocated hr
  branch_allocated := by
    rintro s g height stem version r slots ⟨rfl, hsound⟩ ⟨t, hr, -⟩
    exact hsound.allocated hr

/-- What an update makes of a subtree: the root stays, or the pages of a way down from it are
rebuilt.  If nothing is left beneath, no page on that way had other children. -/
def Store.Remakes (s : Store) (kind : TreeKind) (Leads : LivePage → Nat → Prop)
    (r r' : PageRef) (spent : Prop) : Prop :=
  r' = r ∨ ∃ turns page, s.Rebuilds kind Leads r turns page r' ∧
    (spent → ∀ turn ∈ turns, turn.page.children.length ≤ 1)

/-- A page without children is the end of the way. -/
theorem Store.Has.remakes_attains {kind : TreeKind} {Leads : LivePage → Nat → Prop} {s : Store}
    {r : PageRef} {p page : LivePage} (hhas : s.Has r p) (hchildless : p.children = [])
    (hkind : page.treeKind = kind) (spent : Prop) :
    Attains (PageRef.ofPage page .absent) s fun r' s' => s'.Remakes kind Leads r r' spent :=
  (PageRef.ofPage_attains _).mono fun _ _ hretains hmade =>
    .inr ⟨[], _, .leaf hhas hchildless hretains.keeps hmade hkind,
      fun _ _ hturn => absurd hturn List.not_mem_nil⟩

/-! ## B-trees -/

namespace BTree

open Entries

variable {W : Type} [Terrain W] [Traceable W] {s s' : Store} {w w' : W} {height stem version : Nat}
  {es : List Entry} {r r' : PageRef} {key value : Value} {p : LivePage}

/-- The height of a subtree tells the kind of its page. -/
theorem kind_of_has (hrep : Realm.Represents s w) (hsub : Realm.Subtree w height stem version r es)
    (hp : s.Has r p) : p.kind = if height = 0 then .btreeLeaf else .btreeNode := by
  obtain ⟨s', hexec⟩ := PageRef.exec_page_of_has hp
  obtain ⟨w', -, -, -, -, hholds⟩ := Traceable.of_ok (Realm.page_runs hrep hsub) hexec
  exact hholds.kind

omit [Traceable W] in
/-- Each of the children of a row stands for a subtree. -/
theorem Row.subtree_of_mem {children : List (Value × PageRef)} {parts : List (List Entry)}
    (hrow : Row w height stem version children parts) {m : PageRef}
    (hm : m ∈ children.map Prod.snd) : ∃ es, Realm.Subtree w height stem version m es := by
  obtain ⟨es, -, hsub⟩ := exists_of_forall₂_right (Keyed.beneath hrow).flip hm
  exact ⟨es, hsub⟩

/-- The child that a key leads to. -/
def LeadsTo (key : Value) (p : LivePage) (index : Nat) : Prop :=
  ∃ children, p.body = .btreeNode children ∧ index = childIndex children key

/-- A node whose child has been rebuilt.  If no entries are left, it had no other children. -/
theorem rebuiltNode_rebuilds (hrep : Realm.Represents s w) {as bs : List (Value × PageRef)}
    {old : Value × PageRef} {ps rs : List (List Entry)} {before : List Entry} {rebuilt : PageRef}
    {turns : List Turn} {page : LivePage} (has : Row w height stem version as ps)
    (hbs : Row w height stem version bs rs) (hbefore : before ≠ [])
    (hbecomes : Becomes w height stem version before rebuilt es)
    (hsorted : Sorted (ps.flatten ++ es ++ rs.flatten)) (hhas : s.Has r p)
    (hchildren : p.children = as.map Prod.snd ++ old.2 :: bs.map Prod.snd)
    (hleads : LeadsTo key p as.length)
    (hrebuilds : s.Rebuilds .btree (LeadsTo key) old.2 turns page rebuilt)
    (hspent : es = [] → ∀ turn ∈ turns, turn.page.children.length ≤ 1) :
    Attains
      (do newNode version stem (← rebalanceChild (as ++ old :: bs) as.length rebuilt version)) s
      fun r' s' => ∃ turns page, s'.Rebuilds .btree (LeadsTo key) r turns page r' ∧
        (ps.flatten ++ es ++ rs.flatten = [] → ∀ turn ∈ turns, turn.page.children.length ≤ 1) := by
  have hspan := hbecomes.span hrep
  have hsiblings : ∀ sibling ∈ as ++ bs, sibling.2.id < s.cells.size := by
    intro sibling hsibling
    have hmem := List.mem_map_of_mem (f := Prod.snd) hsibling
    obtain ⟨part, hsub⟩ := Row.subtree_of_mem (Keyed.append has hbs) hmem
    exact Traceable.subtree_allocated hrep hsub
  have hallocated : rebuilt.id < s.cells.size := by
    obtain ⟨height', hsub, -⟩ := hbecomes
    exact Traceable.subtree_allocated hrep hsub
  refine .bind (rebalanceChild_attains hallocated hsiblings) fun row s' hexec hretains hrow => ?_
  obtain ⟨w', hgrows, -⟩ := Traceable.of_ok
    (rebalanceChild_runs hrep has hbs hspan (hbecomes.subtree hbefore) hsorted) hexec
  have hrep' := Realm.represents hgrows
  have hmade := hrebuilds.made.keep hretains.keeps
  refine (PageRef.ofPage_attains _).mono fun r' s'' hretains' hmade' =>
    ⟨⟨p, (as.map Prod.snd).length⟩ :: turns, _,
      (hrebuilds.keep hretains.keeps).node (hhas.keep hretains.keeps) hchildren
        (by rwa [List.length_map]) hrow ?_ ?_ hretains'.keeps hmade' rfl rfl, ?_⟩
  · -- siblings of a child with entries are of its height
    intro hfull m hm q hq
    have hne : es ≠ [] := by
      rintro rfl
      exact hfull hspan
    have hsub := Realm.subtree_grows hgrows (hbecomes.subtree hbefore hne)
    rw [← List.map_append] at hm
    obtain ⟨part, hsub'⟩ := Row.subtree_of_mem (Keyed.append has hbs) hm
    rw [kind_of_has hrep' hsub hmade.pins.has,
      kind_of_has hrep' (Realm.subtree_grows hgrows hsub') hq]
  · exact fun hempty => hspent (List.length_eq_zero_iff.1 (hspan ▸ hempty))
  · intro hnil
    rw [List.append_eq_nil_iff, List.append_eq_nil_iff, has.flatten_eq_nil,
      hbs.flatten_eq_nil] at hnil
    obtain ⟨⟨rfl, hes⟩, rfl⟩ := hnil
    exact List.forall_mem_cons.2 ⟨by simp [hchildren], hspent hes⟩

/-- A node whose child has been updated. -/
theorem updatedNode_rebuilds (hrep : Realm.Represents s w) {children as bs : List (Value × PageRef)}
    {child : Value × PageRef} {ps rs : List (List Entry)} {part : List Entry} {rebuilt : PageRef}
    (hsorted : Sorted es) (hcut : UpdateCut (Realm.Subtree w height stem version) key value children
      es as child bs ps part rs) (hhas : s.Has r p) (hbody : p.body = .btreeNode children)
    (hbecomes : Becomes w height stem version part rebuilt (Listing.update key value part))
    (hrebuilt : s.Remakes .btree (LeadsTo key) child.2 rebuilt
      (Listing.update key value part = [])) :
    Attains (if rebuilt.same child.2 = true then pure r
      else do newNode version stem (← rebalanceChild children as.length rebuilt version)) s
      fun r' s' => s'.Remakes .btree (LeadsTo key) r r' (Listing.update key value es = []) := by
  refine .ite (fun _ => .pure (.inl rfl)) fun hmoved => ?_
  rcases hrebuilt with rfl | ⟨turns, page, hrebuilds, hspent⟩
  · exact absurd (by simp [PageRef.same]) hmoved
  have hleads : LeadsTo key p as.length := ⟨_, hbody, hcut.index_eq.symm⟩
  have hchildren : p.children = as.map Prod.snd ++ child.2 :: bs.map Prod.snd := by
    rw [Page.children_eq, hbody, PageBody.children, hcut.children_eq, List.map_append,
      List.map_cons]
  rw [hcut.children_eq, hcut.update_eq]
  refine (rebuiltNode_rebuilds hrep hcut.before hcut.behind hcut.ne_nil hbecomes
    (hcut.sorted_after hsorted) hhas hchildren hleads hrebuilds hspent).mono ?_
  exact fun _ _ _ hnode => .inr hnode

/-- An update rebuilds the way down that the key leads, unless nothing changes. -/
theorem updatedWithin_rebuilds (hrep : Realm.Represents s w) (depth : Nat)
    (hdepth : r.treeSize < depth) (hsub : Realm.Subtree w height stem version r es) :
    Attains (updatedWithin key value version depth r) s fun r' s' =>
      s'.Remakes .btree (LeadsTo key) r r' (Listing.update key value es = []) := by
  induction depth generalizing s w height r es with
  | zero => exact absurd hdepth (Nat.not_lt_zero _)
  | succ depth ih =>
      have hsorted := Realm.sorted hsub
      unfold updatedWithin
      refine .bind (PageRef.page_attains r) fun page s₁ hread hretains hhas => ?_
      replace hhas := hhas (Traceable.subtree_allocated hrep hsub)
      obtain ⟨w₁, hgrows, hpage, rfl, hversion, hholds⟩ :=
        Traceable.of_ok (Realm.page_runs hrep hsub) hread
      have hrep₁ := Realm.represents hgrows
      have hsub₁ := Realm.subtree_grows hgrows hsub
      cases height with
      | zero =>
          have hbody : page.body = .btreeLeaf es := hholds
          have hchildless : page.children = [] := by rw [Page.children_eq, hbody]; rfl
          simp only [hbody]
          exact .ite (fun _ => .pure (.inl rfl)) fun _ => hhas.remakes_attains hchildless rfl _
      | succ height =>
          obtain ⟨children, parts, hbody, hrow, rfl⟩ := hholds
          have hbeneath : page.children = children.map Prod.snd := by
            rw [Page.children_eq, hbody, PageBody.children]
          simp only [hbody]
          cases children with
          | nil =>
              exact .ite (fun _ => hhas.remakes_attains hbeneath rfl _) fun _ => .pure (.inl rfl)
          | cons first rest =>
              obtain ⟨as, child, bs, ps, part, rs, hcut⟩ :=
                Keyed.updateCut (Row.raise hrow hversion) hsorted (List.cons_ne_nil _ _) key value
              have hlt := Realm.treeSize_lt hrep₁ hsub₁ hpage (hbeneath ▸ hcut.child_mem)
              simp only [hcut.index_eq, hcut.getD]
              refine .bind (ih hrep₁ (by omega) hcut.subtree)
                fun rebuilt s₂ hexec hretains' hrebuilt => ?_
              -- the state that the run of the child leaves tells what the child has become
              obtain ⟨w₂, hgrows', hbecomes, -⟩ := Traceable.of_ok
                (updatedWithin_runs hrep₁ depth (by omega) hcut.subtree) hexec
              exact updatedNode_rebuilds (Realm.represents hgrows') hsorted (hcut.grows hgrows')
                (hhas.keep hretains'.keeps) hbody hbecomes hrebuilt

theorem updated_rebuilds (hrep : Realm.Represents s w)
    (hsub : Realm.Subtree w height stem version r es) :
    Attains (updated r key value version) s fun r' s' =>
      s'.Remakes .btree (LeadsTo key) r r' (Listing.update key value es = []) :=
  .get (updatedWithin_rebuilds hrep _ (Store.treeSize_lt_depthBound s r) hsub)

end BTree

/-! ## Q-trees -/

namespace QTree

open Slots

variable {W : Type} [Terrain W] [Traceable W] {s s' : Store} {w w' : W} {height stem version : Nat}
  {slots : List Slot} {r r' : PageRef} {key value : Value} {point : Point} {p : LivePage}

/-- The height of a subtree tells the kind of its page. -/
theorem kind_of_has (hrep : Realm.Represents s w)
    (hbranch : Terrain.Branch w height stem version r slots) (hp : s.Has r p) :
    p.kind = if height = 0 then .qtreeLeaf else .qtreeNode := by
  obtain ⟨s', hexec⟩ := PageRef.exec_page_of_has hp
  obtain ⟨w', -, -, -, -, hholds⟩ := Traceable.of_ok (Terrain.branch_page hrep hbranch) hexec
  exact hholds.kind

/-- The child that is the one to change when a key is changed at a point.  A look at the children
tells it, some time after a state of the store. -/
def LeadsTo (start : Store) (key : Value) (point : Point) (isInsert : Bool) (p : LivePage)
    (index : Nat) : Prop :=
  ∃ s s', start.Retains s ∧
    exec (targetChild? p.children key point isInsert) s = (.ok (some index), s')

/-- A node whose child has been rebuilt.  If no slots are left, it had no other children. -/
theorem rebuiltNode_rebuilds {Leads : LivePage → Nat → Prop} (hrep : Realm.Represents s w)
    {as bs : List PageRef} {old rebuilt : PageRef} {ps rs : List (List Slot)}
    {part after : List Slot} {turns : List Turn} {page : LivePage}
    (has : Row w height stem version as ps) (hbs : Row w height stem version bs rs)
    (hpart : part ≠ []) (hbecomes : Becomes w height stem version part rebuilt after)
    (hdistinct : ((ps.flatten ++ after ++ rs.flatten).map Slot.key).Nodup) (hhas : s.Has r p)
    (hchildren : p.children = as ++ old :: bs) (hleads : Leads p as.length)
    (hrebuilds : s.Rebuilds .qtree Leads old turns page rebuilt)
    (hspent : after = [] → ∀ turn ∈ turns, turn.page.children.length ≤ 1) :
    Attains
      (do newNode version stem (← rebalanceChild (as ++ old :: bs) as.length rebuilt version)) s
      fun r' s' => ∃ turns page, s'.Rebuilds .qtree Leads r turns page r' ∧
        (ps.flatten ++ after ++ rs.flatten = [] →
          ∀ turn ∈ turns, turn.page.children.length ≤ 1) := by
  obtain ⟨height', slots', hbranch, hperm, hheight⟩ := hbecomes
  obtain rfl := hheight hpart
  have hspan : rebuilt.span = after.length := by
    rw [Terrain.branch_span hrep hbranch, hperm.length_eq]
  have hwhole : (ps.flatten ++ slots' ++ rs.flatten).Perm (ps.flatten ++ after ++ rs.flatten) :=
    (hperm.append_left _).append_right _
  have hallocated := Traceable.branch_allocated hrep hbranch
  have hsiblings : ∀ sibling ∈ as ++ bs, sibling.id < s.cells.size := by
    intro sibling hsibling
    rcases List.mem_append.1 hsibling with hmem | hmem
    · obtain ⟨_, -, -, hsub⟩ := has.part_of_mem hmem
      exact Traceable.branch_allocated hrep hsub
    · obtain ⟨_, -, -, hsub⟩ := hbs.part_of_mem hmem
      exact Traceable.branch_allocated hrep hsub
  refine .bind (rebalanceChild_attains hallocated hsiblings) fun row s' hexec hretains hrow => ?_
  obtain ⟨w', hgrows, -⟩ := Traceable.of_ok (rebalanceChild_runs hrep has hbs hbranch
    ((hwhole.map Slot.key).nodup_iff.2 hdistinct)) hexec
  have hrep' := Realm.represents hgrows
  have hmade := hrebuilds.made.keep hretains.keeps
  refine (PageRef.ofPage_attains _).mono fun r' s'' hretains' hmade' =>
    ⟨⟨p, as.length⟩ :: turns, _,
      (hrebuilds.keep hretains.keeps).node (hhas.keep hretains.keeps) hchildren hleads hrow ?_ ?_
        hretains'.keeps hmade' rfl rfl, ?_⟩
  · -- siblings are of the height of the child
    intro _ m hm q hq
    have hpeer : ∃ part, Terrain.Branch w' height' stem version m part := by
      rcases List.mem_append.1 hm with hm | hm
      · obtain ⟨part, -, -, hsub⟩ := has.part_of_mem hm
        exact ⟨part, Terrain.branch_grows hgrows hsub⟩
      · obtain ⟨part, -, -, hsub⟩ := hbs.part_of_mem hm
        exact ⟨part, Terrain.branch_grows hgrows hsub⟩
    obtain ⟨part, hpeer⟩ := hpeer
    rw [kind_of_has hrep' (Terrain.branch_grows hgrows hbranch) hmade.pins.has,
      kind_of_has hrep' hpeer hq]
  · exact fun hempty => hspent (List.length_eq_zero_iff.1 (hspan ▸ hempty))
  · intro hnil
    rw [List.append_eq_nil_iff, List.append_eq_nil_iff, has.flatten_eq_nil,
      hbs.flatten_eq_nil] at hnil
    obtain ⟨⟨rfl, hafter⟩, rfl⟩ := hnil
    exact List.forall_mem_cons.2 ⟨by simp [hchildren], hspent hafter⟩

/-- A node whose child has been changed. -/
theorem updatedNode_rebuilds {Leads : LivePage → Nat → Prop} (hrep : Realm.Represents s w)
    {children as bs : List PageRef} {child rebuilt : PageRef} {ps rs : List (List Slot)}
    {part : List Slot} (hvalid : point.Valid) (hplaced : WellPlaced slots)
    (hcut : ChangeCut w height stem version key point value children slots as child bs ps part rs)
    (hhas : s.Has r p) (hchildren : p.children = children) (hleads : Leads p as.length)
    (hbecomes : Becomes w height stem version part rebuilt (change key point value part))
    (hrebuilt : s.Remakes .qtree Leads child rebuilt (change key point value part = [])) :
    Attains (if rebuilt.same child = true then pure r
      else do newNode version stem (← rebalanceChild children as.length rebuilt version)) s
      fun r' s' => s'.Remakes .qtree Leads r r' (change key point value slots = []) := by
  refine .ite (fun _ => .pure (.inl rfl)) fun hmoved => ?_
  rcases hrebuilt with rfl | ⟨turns, page, hrebuilds, hspent⟩
  · exact absurd (by simp [PageRef.same]) hmoved
  rw [hcut.children_eq] at hchildren ⊢
  refine (rebuiltNode_rebuilds hrep hcut.before hcut.behind hcut.ne_nil hbecomes
    (hcut.placed_after hvalid hplaced).distinct hhas hchildren hleads hrebuilds hspent).mono ?_
  rintro r' s' - ⟨turns', page', hnode, hspent'⟩
  refine .inr ⟨turns', page', hnode, fun hnil => hspent' ?_⟩
  exact List.nil_perm.1 (hnil ▸ hcut.between)

/-- A change rebuilds the way down to a leaf, unless nothing changes. -/
theorem updatedWithin_rebuilds {start : Store} (hsince : start.Retains s)
    (hrep : Realm.Represents s w) (depth : Nat) (hdepth : r.treeSize < depth)
    (hvalid : point.Valid) (hplaced : WellPlaced slots)
    (hhome : value.isDefined = true → ∀ slot ∈ slots, slot.key = key → Point.ofSlot slot = point)
    (hbranch : Terrain.Branch w height stem version r slots) :
    Attains (updatedWithin key point value version depth r) s fun r' s' =>
      s'.Remakes .qtree (LeadsTo start key point value.isDefined) r r'
        (change key point value slots = []) := by
  induction depth generalizing s w height r slots with
  | zero => exact absurd hdepth (Nat.not_lt_zero _)
  | succ depth ih =>
      unfold updatedWithin
      refine .bind (PageRef.page_attains r) fun page s₁ hread hretains hhas => ?_
      replace hhas := hhas (Traceable.branch_allocated hrep hbranch)
      obtain ⟨w₁, hgrows, hpage, rfl, hversion, hholds⟩ :=
        Traceable.of_ok (Terrain.branch_page hrep hbranch) hread
      have hrep₁ := Realm.represents hgrows
      have hbranch₁ := Terrain.branch_grows hgrows hbranch
      cases height with
      | zero =>
          obtain ⟨-, hbody⟩ := hholds
          have hchildless : page.children = [] := by rw [Page.children_eq, hbody]; rfl
          simp only [hbody]
          cases update? key point value slots with
          | some slots' => exact hhas.remakes_attains hchildless rfl _
          | none => exact .pure (.inl rfl)
      | succ height =>
          obtain ⟨children, parts, hbody, hrow, rfl⟩ := hholds
          have hbeneath : page.children = children := by
            rw [Page.children_eq, hbody, PageBody.children]
          simp only [hbody]
          cases children with
          | nil =>
              exact .ite (fun _ => hhas.remakes_attains hbeneath rfl _) fun _ => .pure (.inl rfl)
          | cons first rest =>
              have hne : first :: rest ≠ [] := List.cons_ne_nil _ _
              refine .bind (targetChild_attains hne _) fun found s₂ htarget hretains₂ _ => ?_
              obtain ⟨w₂, hgrows₂, -, hsome⟩ := Traceable.of_ok
                (targetChild_runs hrep₁ hrow hne hplaced value.isDefined hhome) htarget
              have hrep₂ := Realm.represents hgrows₂
              have hsince₂ := (hsince.trans hretains).trans hretains₂
              cases found with
              | none => exact .pure (.inl rfl)
              | some index =>
                  obtain ⟨hlt, honly⟩ := hsome index rfl
                  obtain ⟨as, child, bs, ps, part, rs, rfl, hcut⟩ := Row.changeCut
                    (Row.grows hgrows₂ (Row.raise hrow hversion)) hplaced hhome hlt honly
                  have hlt' := Terrain.branch_treeSize_lt hrep₁ hbranch₁ hpage
                    (hbeneath ▸ hcut.child_mem)
                  have hleads : LeadsTo start key point value.isDefined page as.length :=
                    ⟨s₁, s₂, hsince.trans hretains, hbeneath ▸ htarget⟩
                  simp only [hcut.getD]
                  refine .bind (ih hsince₂ hrep₂ (by omega) hcut.placed hcut.home hcut.branch)
                    fun rebuilt s₃ hexec hretains₃ hrebuilt => ?_
                  obtain ⟨w₃, hgrows₃, hbecomes⟩ := Traceable.of_ok (updatedWithin_runs
                    hrep₂ depth (by omega) hvalid hcut.placed hcut.home hcut.branch) hexec
                  exact updatedNode_rebuilds (Realm.represents hgrows₃) hvalid hplaced
                    (hcut.grows hgrows₃) (hhas.keep (hretains₂.trans hretains₃).keeps) hbeneath
                    hleads hbecomes hrebuilt

theorem updated_rebuilds {start : Store} (hsince : start.Retains s) (hrep : Realm.Represents s w)
    (hvalid : point.Valid) (hplaced : WellPlaced slots)
    (hhome : value.isDefined = true → ∀ slot ∈ slots, slot.key = key → Point.ofSlot slot = point)
    (hroot : Root w stem version r slots) :
    Attains (updated r key point value version) s fun r' s' =>
      s'.Remakes .qtree (LeadsTo start key point value.isDefined) r r'
        (change key point value slots = []) := by
  obtain ⟨height, slots', hbranch, hperm⟩ := hroot
  have hchanged : (change key point value slots').Perm (change key point value slots) :=
    change_perm hperm
  have hhome' : value.isDefined = true → ∀ slot ∈ slots', slot.key = key →
      Point.ofSlot slot = point :=
    fun hdefined slot hslot => hhome hdefined slot (hperm.mem_iff.1 hslot)
  refine .get ((updatedWithin_rebuilds hsince hrep _ (Store.treeSize_lt_depthBound s r) hvalid
    (hplaced.perm hperm) hhome' hbranch).mono ?_)
  rintro r' s' - (rfl | ⟨turns, page, hrebuilds, hspent⟩)
  · exact .inl rfl
  · refine .inr ⟨turns, page, hrebuilds, fun hnil => hspent ?_⟩
    rw [hnil] at hchanged
    exact List.perm_nil.1 hchanged

end QTree
end PageTree
