import PageTree.Proofs.Balance.BTree
import PageTree.Proofs.Balance.QTree
import PageTree.Proofs.Conduct.Basic
import PageTree.Proofs.Operations

/-!
# Operations on trees keep to the rules

Whatever conduct is asked for, operations on a tree with a tracked root obey it, and so do those
that give a tree give one with a tracked root (`Operation.run_obeys`).  This is one pass over the
operations, along their recursion; what it is used for makes no difference to it.
-/

namespace PageTree

open StoreM Conduct

/-! ## Choosing a child -/

namespace BTree

theorem mem_of_childFor {children : List (Value × PageRef)} {key : Value} {child : PageRef}
    (hchild : childFor? children key = some child) : ∃ slot ∈ children, slot.2 = child := by
  obtain ⟨slot, hslot, rfl⟩ := Option.map_eq_some_iff.1 hchild
  exact ⟨slot, List.mem_of_getElem? hslot, rfl⟩

theorem mem_of_childAt {children : List PageRef} {index rest : Nat} {child : PageRef}
    (hchild : childAt? children index = some (child, rest)) : child ∈ children := by
  induction children generalizing index with
  | nil => cases hchild
  | cons first children ih =>
      unfold childAt? at hchild
      split at hchild
      · cases hchild
        exact List.mem_cons_self
      · exact List.mem_cons_of_mem first (ih hchild)

end BTree

variable [PageLoader] {d : Conduct} {s : Store}

/-! ## Subtrees -/

namespace PageRef

variable {r : PageRef}

theorem evacuatedWithin_obeys {post version depth : Nat} (htracks : d.Tracks s r) :
    d.Obeys (evacuatedWithin post version depth r) s fun r' s' => d.Tracks s' r' := by
  induction depth generalizing r s with
  | zero => exact .refuse .tooDeep
  | succ depth ih =>
      refine .ite (fun _ => .pure htracks) fun _ => .naming ?_
      refine (page_obeys htracks).bind fun page s' _ hopens => ?_
      exact (Obeys.mapChildren version (fun _ _ => ih) hopens).bind fun _ _ _ hopens' =>
        ofPage_obeys hopens'

theorem evacuated_obeys {post version : Nat} (htracks : d.Tracks s r) :
    d.Obeys (r.evacuated post version) s fun r' s' => d.Tracks s' r' :=
  .get (evacuatedWithin_obeys htracks)

theorem uncommittedWithin_obeys {version depth : Nat} (htracks : d.Tracks s r) :
    d.Obeys (uncommittedWithin version depth r) s fun r' s' => d.Tracks s' r' := by
  induction depth generalizing r s with
  | zero => exact .refuse .tooDeep
  | succ depth ih =>
      refine hardPage_obeys htracks (.pure htracks) fun page hopens =>
        .ite (fun _ => .pure htracks) fun _ => ?_
      refine (Obeys.mapChildren page.version (fun _ _ => ih) hopens).bind ?_
      exact fun _ _ hlater hopens' => .ite (fun _ => ofPage_obeys hopens')
        fun _ => .pure (d.tracks_later hlater htracks)

theorem uncommitted_obeys {version : Nat} (htracks : d.Tracks s r) :
    d.Obeys (r.uncommitted version) s fun r' s' => d.Tracks s' r' :=
  .get (uncommittedWithin_obeys htracks)

theorem reducedWithin_obeys {f : Folding} {version depth : Nat} (htracks : d.Tracks s r) :
    d.Obeys (reducedWithin f version depth r) s fun r' s' => d.Tracks s' r' := by
  induction depth generalizing r s with
  | zero => exact .refuse .tooDeep
  | succ depth ih =>
      refine .ite (fun _ => .pure htracks) fun _ => ?_
      refine (page_obeys htracks).bind fun page s' hlater hopens => .ite (fun _ => ?_) fun _ => ?_
      · exact (Obeys.mapChildren version (fun _ _ => ih) hopens).bind fun _ _ _ hopens' =>
          ofPage_obeys hopens'
      · exact withFold_obeys (d.tracks_later hlater htracks)

theorem reduced_obeys {f : Folding} {version : Nat} (htracks : d.Tracks s r) :
    d.Obeys (r.reduced f version) s fun r' s' => d.Tracks s' r' :=
  .get (reducedWithin_obeys htracks)

theorem rebasedWithin_obeys {pairs : CommitPairs} {depth : Nat} (htracks : d.Tracks s r)
    (hpairs : ∀ pair ∈ pairs, d.Tracks s pair.2) :
    d.Obeys (rebasedWithin pairs depth r) s fun r' s' => d.Tracks s' r' := by
  induction depth generalizing r s with
  | zero => exact .refuse .tooDeep
  | succ depth ih =>
      unfold rebasedWithin
      split
      · next counterpart hfind =>
          obtain ⟨pair, hpair, rfl⟩ := Option.map_eq_some_iff.1 hfind
          exact .pure (hpairs pair (List.mem_of_find?_eq_some hpair))
      · refine .ite (fun _ => .pure htracks) fun _ => ?_
        refine hardPage_obeys htracks (.pure htracks) fun page hopens =>
          .ite (fun _ => .pure htracks) fun _ => ?_
        -- the counterparts have to go on being tracked while the children are rebased
        have hchildren := Obeys.listMapM (d := d) (s := s)
          (I := fun s m => d.Tracks s m ∧ ∀ pair ∈ pairs, d.Tracks s pair.2) (R := d.Tracks)
          (fun _ hlater h => ⟨d.tracks_later hlater h.1,
            fun pair hpair => d.tracks_later hlater (h.2 pair hpair)⟩)
          (fun _ => d.tracks_later) (fun _ _ h => ih h.1 h.2) page.children
          fun m hm => ⟨hopens m hm, hpairs⟩
        rw [Page.mapChildren_eq, bind_assoc]
        refine hchildren.bind fun children s' hlater hall => ?_
        have hopens' : d.Opens s' (page.withChildren page.version children) :=
          fun m hm => hall m (Page.mem_of_mem_withChildren hm)
        rw [pure_bind]
        exact .ite (fun _ => ofPage_obeys hopens')
          fun _ => .pure (d.tracks_later hlater htracks)

theorem rebased_obeys {pairs : CommitPairs} (htracks : d.Tracks s r)
    (hpairs : ∀ pair ∈ pairs, d.Tracks s pair.2) :
    d.Obeys (r.rebased pairs) s fun r' s' => d.Tracks s' r' :=
  .get (rebasedWithin_obeys htracks hpairs)

end PageRef

/-! ## Trees -/

namespace Conduct

/-- The tree is another only by its root, which is tracked. -/
def Follows (d : Conduct) (t : Tree) (t' : Tree) (s : Store) : Prop :=
  d.Tracks s t'.root ∧ t.Rerooted t'

theorem Follows.refl {t : Tree} (htracks : d.Tracks s t.root) : d.Follows t t s :=
  ⟨htracks, .refl t⟩

theorem Follows.withRoot {t : Tree} {r : PageRef} (htracks : d.Tracks s t.root)
    (hr : d.Tracks s r) : d.Follows t (t.withRoot r) s := by
  unfold Tree.withRoot
  split
  · exact .refl htracks
  · exact ⟨hr, .of_root t r⟩

end Conduct

namespace Tree

variable {t : Tree}

/-- A tree gets the root that an operation gives. -/
theorem withRoot_obeys {act : StoreM PageRef} (htracks : d.Tracks s t.root)
    (hact : d.Obeys act s fun r s' => d.Tracks s' r) :
    d.Obeys (do return t.withRoot (← act)) s (d.Follows t) :=
  hact.bind fun _ _ hlater hr => .pure (.withRoot (d.tracks_later hlater htracks) hr)

theorem cleared_obeys {version : Nat} (htracks : d.Tracks s t.root) :
    d.Obeys (t.cleared version) s (d.Follows t) := by
  refine .look (a := (s.hold t.root).copy?.map PageCopy.page) rfl ?_
  refine .ite (fun _ => .pure (.refl htracks)) fun _ => ?_
  refine withRoot_obeys htracks (ofPage_obeys (opens_leaf ?_))
  cases t.kind <;> rfl

theorem evacuated_obeys {post version : Nat} (htracks : d.Tracks s t.root) :
    d.Obeys (t.evacuated post version) s (d.Follows t) :=
  withRoot_obeys htracks (PageRef.evacuated_obeys htracks)

theorem uncommitted_obeys {version : Nat} (htracks : d.Tracks s t.root) :
    d.Obeys (t.uncommitted version) s (d.Follows t) :=
  withRoot_obeys htracks (PageRef.uncommitted_obeys htracks)

theorem reduced_obeys {f : PageRef.Folding} {version : Nat} (htracks : d.Tracks s t.root) :
    d.Obeys (t.reduced f version) s (d.Follows t) :=
  withRoot_obeys htracks (PageRef.reduced_obeys htracks)

theorem rebased_obeys {pairs : PageRef.CommitPairs} (htracks : d.Tracks s t.root)
    (hpairs : ∀ pair ∈ pairs, d.Tracks s pair.2) :
    d.Obeys (t.rebased pairs) s (d.Follows t) :=
  withRoot_obeys htracks (PageRef.rebased_obeys htracks hpairs)

end Tree

namespace UTree

variable {t : Tree}

theorem get_obeys (htracks : d.Tracks s t.root) : d.Allows (get t) s := by
  refine (page_obeys htracks).bind fun page s' _ _ => ?_
  split <;> exact .pure trivial

theorem update_obeys {value : Value} {version post : Nat} (htracks : d.Tracks s t.root) :
    d.Obeys (update t value version post) s (d.Follows t) := by
  refine (get_obeys htracks).bind fun _ s' hlater _ => ?_
  have htracks' := d.tracks_later hlater htracks
  refine .ite (fun _ => .pure (.refl htracks')) fun _ => ?_
  refine (ofPage_obeys (opens_leaf rfl)).bind fun r s'' hlater' hr => ?_
  exact Tree.withRoot_obeys (d.tracks_later hlater' htracks') (PageRef.evacuated_obeys hr)

end UTree

/-! ## B-trees -/

namespace BTree

variable {r : PageRef}

theorem findWithin_obeys {key : Value} {depth : Nat} (htracks : d.Tracks s r) :
    d.Allows (findWithin key depth r) s := by
  induction depth generalizing r s with
  | zero => exact .refuse .tooDeep
  | succ depth ih =>
      refine (page_obeys htracks).bind fun page s' _ hopens => ?_
      split
      · exact .pure trivial
      · next children hbody =>
        split
        · next child hchild =>
          obtain ⟨slot, hslot, rfl⟩ := mem_of_childFor hchild
          exact ih (hopens.slots hbody slot hslot)
        · exact .pure trivial
      · exact .pure trivial

theorem find_obeys {key : Value} (htracks : d.Tracks s r) : d.Allows (find? r key) s :=
  .get (findWithin_obeys htracks)

theorem indexWithin_obeys {key : Value} {depth offset : Nat} (htracks : d.Tracks s r) :
    d.Allows (indexWithin key depth offset r) s := by
  induction depth generalizing r s offset with
  | zero => exact .refuse .tooDeep
  | succ depth ih =>
      refine (page_obeys htracks).bind fun page s' _ hopens => ?_
      split
      · exact .pure trivial
      · next children hbody =>
        split
        · next child hchild =>
          obtain ⟨slot, hslot, rfl⟩ := mem_of_childFor hchild
          exact ih (hopens.slots hbody slot hslot)
        · exact .pure trivial
      · exact .pure trivial

theorem indexOf_obeys {key : Value} (htracks : d.Tracks s r) : d.Allows (indexOf? r key) s :=
  .get (indexWithin_obeys htracks)

theorem entryWithin_obeys {depth index : Nat} (htracks : d.Tracks s r) :
    d.Allows (entryWithin depth r index) s := by
  induction depth generalizing r s index with
  | zero => exact .refuse .tooDeep
  | succ depth ih =>
      refine (page_obeys htracks).bind fun page s' _ hopens => ?_
      split
      · exact .pure trivial
      · next children hbody =>
        split
        · next child rest hchild =>
          obtain ⟨slot, hslot, rfl⟩ := List.mem_map.1 (mem_of_childAt hchild)
          exact ih (hopens.slots hbody slot hslot)
        · exact .pure trivial
      · exact .pure trivial

theorem entry_obeys {index : Nat} (htracks : d.Tracks s r) : d.Allows ( entry? r index) s :=
  .ite (fun _ => .pure trivial) fun _ => .get (entryWithin_obeys htracks)

theorem firstWithin_obeys {depth : Nat} (htracks : d.Tracks s r) :
    d.Allows (firstWithin depth r) s := by
  induction depth generalizing r s with
  | zero => exact .refuse .tooDeep
  | succ depth ih =>
      refine (page_obeys htracks).bind fun page s' _ hopens => ?_
      split
      · exact .pure trivial
      · next children hbody =>
        split
        · next key child hchild => exact ih (hopens.slots hbody _ (List.mem_of_head? hchild))
        · exact .pure trivial
      · exact .pure trivial

theorem first_obeys (htracks : d.Tracks s r) : d.Allows (first? r) s :=
  .get (firstWithin_obeys htracks)

theorem lastWithin_obeys {depth : Nat} (htracks : d.Tracks s r) :
    d.Allows (lastWithin depth r) s := by
  induction depth generalizing r s with
  | zero => exact .refuse .tooDeep
  | succ depth ih =>
      refine (page_obeys htracks).bind fun page s' _ hopens => ?_
      split
      · exact .pure trivial
      · next children hbody =>
        split
        · next key child hchild => exact ih (hopens.slots hbody _ (List.mem_of_getLast? hchild))
        · exact .pure trivial
      · exact .pure trivial

theorem last_obeys (htracks : d.Tracks s r) : d.Allows (last? r) s :=
  .get (lastWithin_obeys htracks)

/-- A search through some children of a node. -/
theorem search_obeys {f : PageRef → StoreM (Option Entry)} {children rest : List (Value × PageRef)}
    (hf : ∀ s m, d.Tracks s m → d.Allows (f m) s) (hslots : d.OpensSlots s children)
    (hrest : rest ⊆ children) : d.Allows (rest.findSomeM? fun child => f child.2) s :=
  .listFindSomeM (I := fun s child => d.Tracks s child.2) (fun _ => d.tracks_later)
    (fun s child htracks => hf s child.2 htracks) rest fun child hchild =>
      hslots child (hrest hchild)

theorem nextWithin_obeys {key : Value} {depth : Nat} (htracks : d.Tracks s r) :
    d.Allows (nextWithin key depth r) s := by
  induction depth generalizing r s with
  | zero => exact .refuse .tooDeep
  | succ depth ih =>
      refine (page_obeys htracks).bind fun page s' _ hopens => ?_
      split
      · exact .pure trivial
      · next children hbody =>
        exact search_obeys (fun _ _ => ih) (hopens.slots hbody) (List.drop_subset _ _)
      · exact .pure trivial

theorem next_obeys {key : Value} (htracks : d.Tracks s r) : d.Allows (next? r key) s :=
  .get (nextWithin_obeys htracks)

theorem previousWithin_obeys {key : Value} {depth : Nat} (htracks : d.Tracks s r) :
    d.Allows (previousWithin key depth r) s := by
  induction depth generalizing r s with
  | zero => exact .refuse .tooDeep
  | succ depth ih =>
      refine (page_obeys htracks).bind fun page s' _ hopens => ?_
      split
      · exact .pure trivial
      · next children hbody =>
        exact search_obeys (fun _ _ => ih) (hopens.slots hbody) fun child hchild =>
          List.take_subset _ _ (List.mem_reverse.1 hchild)
      · exact .pure trivial

theorem previous_obeys {key : Value} (htracks : d.Tracks s r) : d.Allows (previous? r key) s :=
  .get (previousWithin_obeys htracks)

/-! ### Changes -/

theorem refsOf_obeys {parts : List LivePage} (hparts : ∀ part ∈ parts, d.Opens s part) :
    d.Obeys (refsOf parts) s fun slots s' => d.OpensSlots s' slots := by
  refine .listMapM (I := d.Opens) (R := fun s (slot : Value × PageRef) => d.Tracks s slot.2)
    (fun _ hlater hopens => hopens.later hlater) (fun _ => d.tracks_later) ?_ parts hparts
  exact fun s part hopens => (ofPage_obeys hopens).bind fun _ _ _ htracks => .pure htracks

/-- The parts of a page, with their keys. -/
theorem split_obeys {settings : Settings} {version : Nat} {page : LivePage}
    (hopens : d.Opens s page) :
    d.Obeys (refsOf (split settings version page)) s fun slots s' => d.OpensSlots s' slots :=
  refsOf_obeys (opens_cut (reshaping settings version) hopens)

theorem splice_opens {children parts : List (Value × PageRef)} {lo hi : Nat}
    (hchildren : d.OpensSlots s children) (hparts : d.OpensSlots s parts) :
    d.OpensSlots s (splice children lo hi parts) := by
  intro slot hslot
  rw [splice, List.append_assoc] at hslot
  rcases List.mem_append.1 hslot with hslot | hslot
  · exact hchildren slot (List.mem_of_mem_take hslot)
  · rcases List.mem_append.1 hslot with hslot | hslot
    · exact hparts slot hslot
    · exact hchildren slot (List.mem_of_mem_drop hslot)

theorem newNode_obeys {version stem : Nat} {children : List (Value × PageRef)}
    (hchildren : d.OpensSlots s children) :
    d.Obeys (newNode version stem children) s fun r s' => d.Tracks s' r :=
  ofPage_obeys (hchildren.opens rfl)

theorem newLeaf_obeys {version stem : Nat} {slots : List Entry} :
    d.Obeys (newLeaf version stem slots) s fun r s' => d.Tracks s' r :=
  ofPage_obeys (opens_leaf rfl)

theorem rebalanceChild_obeys {children : List (Value × PageRef)} {index version : Nat}
    {child : PageRef} (hchildren : d.OpensSlots s children) (htracks : d.Tracks s child) :
    d.Obeys (rebalanceChild children index child version) s fun slots s' =>
      d.OpensSlots s' slots := by
  refine .ite (fun _ => .pure ?_) fun _ => ?_
  · exact fun slot hslot => hchildren slot (List.mem_of_mem_eraseIdx hslot)
  refine (page_obeys htracks).bind fun page s' hlater hopens => .get (.ite (fun _ => ?_)
    fun _ => .ite (fun _ => ?_) fun _ => .pure ?_)
  · dsimp only
    split
    · next sibling hsibling =>
      have hchildren' := hchildren.later hlater
      refine (page_obeys (hchildren' _ (List.mem_of_getElem? hsibling))).bind ?_
      intro siblingPage s'' hlater' hopens'
      have hopens'' := hopens.later hlater'
      refine (split_obeys ?_).bind fun parts s₃ hlater₃ hparts => .pure ?_
      · split
        · exact opens_join (reshaping s'.settings version) true hopens' hopens''
        · exact opens_join (reshaping s'.settings version) false hopens'' hopens'
      · exact splice_opens ((hchildren'.later hlater').later hlater₃) hparts
    · exact .pure (hchildren.later hlater)
  · exact (split_obeys hopens).bind fun parts s'' hlater' hparts =>
      .pure (splice_opens ((hchildren.later hlater).later hlater') hparts)
  · intro slot hslot
    rcases List.mem_or_eq_of_mem_set hslot with hslot | rfl
    · exact hchildren.later hlater slot hslot
    · exact d.tracks_later hlater htracks

theorem growWithin_obeys {version stem levels : Nat} {parts : List (Value × PageRef)}
    (hparts : d.OpensSlots s parts) :
    d.Obeys (growWithin version stem levels parts) s fun slots s' => d.OpensSlots s' slots := by
  induction levels generalizing parts s with
  | zero => exact .pure hparts
  | succ levels ih =>
      refine .ite (fun _ => .pure hparts) fun _ => .get ?_
      exact (split_obeys (hparts.opens rfl)).bind fun _ _ _ hslots => ih hslots

theorem collapseWithin_obeys {version depth : Nat} (htracks : d.Tracks s r) :
    d.Obeys (collapseWithin version depth r) s fun r' s' => d.Tracks s' r' := by
  induction depth generalizing r s with
  | zero => exact .refuse .tooDeep
  | succ depth ih =>
      refine (page_obeys htracks).bind fun page s' hlater hopens => ?_
      split
      · next key child hbody =>
          exact ih (hopens.slots hbody (key, child) (List.mem_singleton_self _))
      · exact ofPage_obeys (opens_leaf rfl)
      · exact .pure (d.tracks_later hlater htracks)

theorem balanced_obeys {version : Nat} (htracks : d.Tracks s r) :
    d.Obeys (balanced r version) s fun r' s' => d.Tracks s' r' := by
  refine (page_obeys htracks).bind fun page s' hlater hopens => .get ?_
  have htracks' := d.tracks_later hlater htracks
  refine .ite (fun _ => ?_) fun _ => .get (collapseWithin_obeys htracks')
  refine (split_obeys hopens).bind fun parts s'' hlater' hparts => ?_
  refine (growWithin_obeys hparts).bind fun grown s₃ hlater₃ hgrown => ?_
  refine .get (collapseWithin_obeys ?_)
  cases hlast : grown.getLast? with
  | none => exact d.tracks_later hlater₃ (d.tracks_later hlater' htracks')
  | some slot => exact hgrown slot (List.mem_of_getLast? hlast)

theorem updatedWithin_obeys {key value : Value} {version depth : Nat} (htracks : d.Tracks s r) :
    d.Obeys (updatedWithin key value version depth r) s fun r' s' => d.Tracks s' r' := by
  induction depth generalizing r s with
  | zero => exact .refuse .tooDeep
  | succ depth ih =>
      refine (page_obeys htracks).bind fun page s' hlater hopens => ?_
      have htracks' := d.tracks_later hlater htracks
      split
      · exact .ite (fun _ => .pure htracks') fun _ => newLeaf_obeys
      · next first rest hbody =>
        have hslots := hopens.slots hbody
        dsimp only
        refine (ih (hslots _ (getD_mem_cons first rest _))).bind fun rebuilt s'' hlater' hrebuilt =>
          .ite (fun _ => .pure (d.tracks_later hlater' htracks')) fun _ => ?_
        exact (rebalanceChild_obeys (hslots.later hlater') hrebuilt).bind fun _ _ _ hslots' =>
          newNode_obeys hslots'
      · exact .ite (fun _ => newLeaf_obeys) fun _ => .pure htracks'

theorem updated_obeys {key value : Value} {version : Nat} (htracks : d.Tracks s r) :
    d.Obeys (updated r key value version) s fun r' s' => d.Tracks s' r' :=
  .get (updatedWithin_obeys htracks)

theorem cut_opens {children : List (Value × PageRef)} (index : Nat)
    (hchildren : d.OpensSlots s children) :
    d.OpensSlots s (cut children index).1 ∧ d.OpensSlots s (cut children index).2.1 := by
  induction children generalizing index with
  | nil => exact ⟨hchildren, hchildren⟩
  | cons first children ih =>
      have hrest : d.OpensSlots s children :=
        fun slot hslot => hchildren slot (List.mem_cons_of_mem first hslot)
      unfold cut
      split
      · obtain ⟨hbefore, hbehind⟩ := ih (index - first.2.span) hrest
        refine ⟨fun slot hslot => ?_, hbehind⟩
        rcases List.mem_cons.1 hslot with rfl | hslot
        · exact hchildren _ List.mem_cons_self
        · exact hbefore slot hslot
      · exact ⟨fun _ hslot => absurd hslot List.not_mem_nil, hchildren⟩

theorem droppedWithin_obeys {version depth lower : Nat} (htracks : d.Tracks s r) :
    d.Obeys (droppedWithin version depth r lower) s fun r' s' => d.Tracks s' r' := by
  induction depth generalizing r s lower with
  | zero => exact .refuse .tooDeep
  | succ depth ih =>
      refine .ite (fun _ => .pure htracks) fun _ =>
        .ite (fun _ => ofPage_obeys (opens_leaf rfl)) fun _ => ?_
      refine (page_obeys htracks).bind fun page s' hlater hopens => ?_
      split
      · exact newLeaf_obeys
      · next children hbody =>
        obtain ⟨-, hbehind⟩ := cut_opens lower (hopens.slots hbody)
        dsimp only
        split
        · next key child rest hrest =>
          rw [hrest] at hbehind
          refine .ite (fun _ => newNode_obeys (hrest ▸ hbehind)) fun _ => ?_
          refine (ih (hbehind _ List.mem_cons_self)).bind fun rebuilt s'' hlater' hrebuilt => ?_
          exact (rebalanceChild_obeys (hrest ▸ hbehind.later hlater') hrebuilt).bind
            fun _ _ _ hslots => newNode_obeys hslots
        · exact newNode_obeys fun _ hslot => absurd hslot List.not_mem_nil
      · exact .pure (d.tracks_later hlater htracks)

theorem dropped_obeys {lower version : Nat} (htracks : d.Tracks s r) :
    d.Obeys (dropped r lower version) s fun r' s' => d.Tracks s' r' :=
  .get (droppedWithin_obeys htracks)

theorem takenWithin_obeys {version depth upper : Nat} (htracks : d.Tracks s r) :
    d.Obeys (takenWithin version depth r upper) s fun r' s' => d.Tracks s' r' := by
  induction depth generalizing r s upper with
  | zero => exact .refuse .tooDeep
  | succ depth ih =>
      refine .ite (fun _ => .pure htracks) fun _ =>
        .ite (fun _ => ofPage_obeys (opens_leaf rfl)) fun _ => ?_
      refine (page_obeys htracks).bind fun page s' hlater hopens => ?_
      split
      · exact newLeaf_obeys
      · next children hbody =>
        obtain ⟨hkept, hbehind⟩ := cut_opens upper (hopens.slots hbody)
        dsimp only
        split
        · next child rest hrest =>
          rw [hrest] at hbehind
          have hchild := hbehind _ List.mem_cons_self
          refine .ite (fun _ => newNode_obeys hkept) fun _ => ?_
          refine (ih hchild).bind fun rebuilt s'' hlater' hrebuilt => ?_
          have hrow : d.OpensSlots s'' ((cut children upper).1 ++ [child]) := by
            intro slot hslot
            rcases List.mem_append.1 hslot with hslot | hslot
            · exact hkept.later hlater' slot hslot
            · rw [List.mem_singleton.1 hslot]
              exact d.tracks_later hlater' hchild
          exact (rebalanceChild_obeys hrow hrebuilt).bind fun _ _ _ hslots =>
            newNode_obeys hslots
        · exact newNode_obeys hkept
      · exact .pure (d.tracks_later hlater htracks)

theorem taken_obeys {upper version : Nat} (htracks : d.Tracks s r) :
    d.Obeys (taken r upper version) s fun r' s' => d.Tracks s' r' :=
  .get (takenWithin_obeys htracks)

section Map

variable {t : Tree} {version post : Nat}

/-- What follows when a root has been rebuilt. -/
theorem rebalanced_obeys (htracks : d.Tracks s t.root) {root : PageRef}
    (hroot : d.Tracks s root) :
    d.Obeys (rebalanced t root version post) s (d.Follows t) := by
  refine .ite (fun _ => .pure (.refl htracks)) fun _ => ?_
  refine (balanced_obeys hroot).bind fun root' s' hlater hroot' => ?_
  exact Tree.withRoot_obeys (d.tracks_later hlater htracks) (PageRef.evacuated_obeys hroot')

theorem changed_obeys {act : StoreM PageRef} (htracks : d.Tracks s t.root)
    (hact : d.Obeys act s fun r s' => d.Tracks s' r) :
    d.Obeys (do rebalanced t (← act) version post) s (d.Follows t) :=
  hact.bind fun _ _ hlater hroot => rebalanced_obeys (d.tracks_later hlater htracks) hroot

theorem update_obeys {key value : Value} (htracks : d.Tracks s t.root) :
    d.Obeys (update t key value version post) s (d.Follows t) :=
  changed_obeys htracks (updated_obeys htracks)

theorem drop_obeys {lower : Nat} (htracks : d.Tracks s t.root) :
    d.Obeys (drop t lower version post) s (d.Follows t) :=
  changed_obeys htracks (dropped_obeys htracks)

theorem take_obeys {upper : Nat} (htracks : d.Tracks s t.root) :
    d.Obeys (take t upper version post) s (d.Follows t) :=
  changed_obeys htracks (taken_obeys htracks)

end Map
end BTree

/-! ## Q-trees -/

namespace QTree

variable {r : PageRef}

theorem findWithin_obeys {key : Value} {point : Point} {depth : Nat} (htracks : d.Tracks s r) :
    d.Allows (findWithin key point depth r) s := by
  induction depth generalizing r s with
  | zero => exact .refuse .tooDeep
  | succ depth ih =>
      refine (page_obeys htracks).bind fun page s' _ hopens => ?_
      split
      · exact .pure trivial
      · next children hbody =>
        exact .listFindSomeM (I := d.Tracks) (fun _ => d.tracks_later) (fun _ _ => ih) _
          fun child hchild => hopens.tiles hbody child (List.mem_filter.1 hchild).1
      · exact .pure trivial

theorem find_obeys {key : Value} {point : Point} (htracks : d.Tracks s r) :
    d.Allows (find? r key point) s :=
  .get (findWithin_obeys htracks)

theorem locateWithin_obeys {key : Value} {depth : Nat} (htracks : d.Tracks s r) :
    d.Allows (locateWithin key depth r) s := by
  induction depth generalizing r s with
  | zero => exact .refuse .tooDeep
  | succ depth ih =>
      refine (page_obeys htracks).bind fun page s' _ hopens => ?_
      split
      · exact .pure trivial
      · next children hbody =>
        exact .listFindSomeM (I := d.Tracks) (fun _ => d.tracks_later) (fun _ _ => ih) _
          (hopens.tiles hbody)
      · exact .pure trivial

theorem locate_obeys {key : Value} (htracks : d.Tracks s r) : d.Allows (locate? r key) s :=
  .get (locateWithin_obeys htracks)

/-! ### Changes -/

theorem newNode_obeys {version stem : Nat} {children : List PageRef}
    (hchildren : ∀ m ∈ children, d.Tracks s m) :
    d.Obeys (newNode version stem children) s fun r s' => d.Tracks s' r :=
  ofPage_obeys hchildren

theorem newLeaf_obeys {version stem : Nat} {slots : List Slot} :
    d.Obeys (newLeaf version stem slots) s fun r s' => d.Tracks s' r :=
  ofPage_obeys (opens_leaf rfl)

/-- The parts of a page. -/
theorem split_obeys {settings : Settings} {version : Nat} {page : LivePage}
    (hopens : d.Opens s page) :
    d.Obeys (refsOf (split settings version page)) s fun parts s' =>
      ∀ m ∈ parts, d.Tracks s' m :=
  .listMapM (I := d.Opens) (R := d.Tracks) (fun _ hlater hopens => hopens.later hlater)
    (fun _ => d.tracks_later) (fun _ _ hopens => ofPage_obeys hopens) _
    (opens_cut (reshaping settings version) hopens)

/-- Some children give way to others. -/
theorem splice_tracks {children parts : List PageRef} {lo hi : Nat}
    (hchildren : ∀ m ∈ children, d.Tracks s m) (hparts : ∀ m ∈ parts, d.Tracks s m) :
    ∀ m ∈ children.take lo ++ parts ++ children.drop hi, d.Tracks s m := by
  intro m hm
  rw [List.append_assoc] at hm
  rcases List.mem_append.1 hm with hm | hm
  · exact hchildren m (List.mem_of_mem_take hm)
  · rcases List.mem_append.1 hm with hm | hm
    · exact hparts m hm
    · exact hchildren m (List.mem_of_mem_drop hm)

theorem rebalanceChild_obeys {children : List PageRef} {index version : Nat} {child : PageRef}
    (hchildren : ∀ m ∈ children, d.Tracks s m) (htracks : d.Tracks s child) :
    d.Obeys (rebalanceChild children index child version) s fun children' s' =>
      ∀ m ∈ children', d.Tracks s' m := by
  refine .ite (fun _ => .pure ?_) fun _ => ?_
  · exact fun m hm => hchildren m (List.mem_of_mem_eraseIdx hm)
  refine (page_obeys htracks).bind fun page s' hlater hopens => .get ?_
  have hchildren' : ∀ m ∈ children, d.Tracks s' m :=
    fun m hm => d.tracks_later hlater (hchildren m hm)
  refine .ite (fun _ => ?_) fun _ => .ite (fun _ => ?_) fun _ => .pure ?_
  · dsimp only
    split
    · next sibling hsibling =>
      refine (page_obeys (hchildren' _ (List.mem_of_getElem? hsibling))).bind ?_
      intro siblingPage s'' hlater' hopens'
      -- pages are joined with the later one first if the sibling comes before
      have hjoined := opens_join (reshaping s'.settings version) false
        (hopens.later hlater') hopens'
      exact (split_obeys hjoined).bind fun parts s₃ hlater₃ hparts => .pure <|
        splice_tracks
          (fun m hm => d.tracks_later hlater₃ (d.tracks_later hlater' (hchildren' m hm)))
          hparts
    · exact .pure hchildren'
  · exact (split_obeys hopens).bind fun parts s'' hlater' hparts => .pure <|
      splice_tracks (fun m hm => d.tracks_later hlater' (hchildren' m hm)) hparts
  · intro m hm
    rcases List.mem_or_eq_of_mem_set hm with hm | rfl
    · exact hchildren' m hm
    · exact d.tracks_later hlater htracks

theorem growWithin_obeys {version stem levels : Nat} {parts : List PageRef}
    (hparts : ∀ m ∈ parts, d.Tracks s m) :
    d.Obeys (growWithin version stem levels parts) s fun parts' s' =>
      ∀ m ∈ parts', d.Tracks s' m := by
  induction levels generalizing parts s with
  | zero => exact .pure hparts
  | succ levels ih =>
      refine .ite (fun _ => .pure hparts) fun _ => .get ?_
      have hopens : d.Opens s ⟨version, stem, .qtreeNode parts⟩ := hparts
      exact (split_obeys hopens).bind fun _ _ _ hparts' => ih hparts'

theorem collapseWithin_obeys {version depth : Nat} (htracks : d.Tracks s r) :
    d.Obeys (collapseWithin version depth r) s fun r' s' => d.Tracks s' r' := by
  induction depth generalizing r s with
  | zero => exact .refuse .tooDeep
  | succ depth ih =>
      refine (page_obeys htracks).bind fun page s' hlater hopens => ?_
      split
      · next child hbody => exact ih (hopens.tiles hbody child (List.mem_singleton_self _))
      · exact ofPage_obeys (opens_leaf rfl)
      · exact .pure (d.tracks_later hlater htracks)

theorem balanced_obeys {version : Nat} (htracks : d.Tracks s r) :
    d.Obeys (balanced r version) s fun r' s' => d.Tracks s' r' := by
  refine (page_obeys htracks).bind fun page s' hlater hopens => .get ?_
  have htracks' := d.tracks_later hlater htracks
  refine .ite (fun _ => ?_) fun _ => .get (collapseWithin_obeys htracks')
  refine (split_obeys hopens).bind fun parts s'' hlater' hparts => ?_
  refine (growWithin_obeys hparts).bind fun grown s₃ hlater₃ hgrown => ?_
  refine .get (collapseWithin_obeys ?_)
  cases hlast : grown.getLast? with
  | none => exact d.tracks_later hlater₃ (d.tracks_later hlater' htracks')
  | some root => exact hgrown root (List.mem_of_getLast? hlast)

theorem targetChild_obeys {children : List PageRef} {key : Value} {point : Point}
    {isInsert : Bool} (hchildren : ∀ m ∈ children, d.Tracks s m) :
    d.Allows (targetChild? children key point isInsert) s := by
  have hholder : d.Allows (holder? children key point) s := by
    refine .listFindSomeM (I := fun s (child : PageRef × Nat) => d.Tracks s child.1)
      (fun _ => d.tracks_later) (fun s child htracks => ?_) _ fun child hchild => ?_
    · exact .ite (fun _ => (find_obeys htracks).bind fun _ _ _ _ => .pure trivial)
        fun _ => .pure trivial
    · exact hchildren child.1 (List.fst_mem_of_mem_zipIdx hchild)
  refine hholder.bind fun index s' _ _ => ?_
  cases index with
  | some index => exact .pure trivial
  | none =>
      refine .ite (fun _ => ?_) fun _ => .pure trivial
      split <;> exact .pure trivial

theorem updatedWithin_obeys {key : Value} {point : Point} {value : Value} {version depth : Nat}
    (htracks : d.Tracks s r) :
    d.Obeys (updatedWithin key point value version depth r) s fun r' s' => d.Tracks s' r' := by
  induction depth generalizing r s with
  | zero => exact .refuse .tooDeep
  | succ depth ih =>
      refine (page_obeys htracks).bind fun page s' hlater hopens => ?_
      have htracks' := d.tracks_later hlater htracks
      split
      · split
        · exact newLeaf_obeys
        · exact .pure htracks'
      · next first rest hbody =>
        have hchildren := hopens.tiles hbody
        refine (targetChild_obeys hchildren).bind fun index s'' hlater' _ => ?_
        have hchildren' : ∀ m ∈ first :: rest, d.Tracks s'' m :=
          fun m hm => d.tracks_later hlater' (hchildren m hm)
        have htracks'' := d.tracks_later hlater' htracks'
        cases index with
        | none => exact .pure htracks''
        | some index =>
            refine (ih (hchildren' _ (getD_mem_cons first rest index))).bind ?_
            intro rebuilt s₃ hlater₃ hrebuilt
            refine .ite (fun _ => .pure (d.tracks_later hlater₃ htracks'')) fun _ => ?_
            refine (rebalanceChild_obeys (fun m hm => d.tracks_later hlater₃ (hchildren' m hm))
              hrebuilt).bind ?_
            exact fun _ _ _ hparts => newNode_obeys hparts
      · exact .ite (fun _ => newLeaf_obeys) fun _ => .pure htracks'

theorem updated_obeys {key : Value} {point : Point} {value : Value} {version : Nat}
    (htracks : d.Tracks s r) :
    d.Obeys (updated r key point value version) s fun r' s' => d.Tracks s' r' :=
  .get (updatedWithin_obeys htracks)

section Map

variable {t : Tree} {version post : Nat}

theorem pointAt_obeys {x y : Nat} : d.Allows (pointAt x y) s := by
  rcases pointAt_cases x y s with ⟨_, _, hexec⟩ | ⟨reason, hexec⟩
  · exact .ok hexec (d.later_refl s) trivial
  · exact .error hexec (d.refused (.invalidArgument reason))

theorem get_obeys {key : Value} {x y : Nat} (htracks : d.Tracks s t.root) :
    d.Allows (get? t key x y) s :=
  pointAt_obeys.bind fun _ _ hlater _ =>
    (find_obeys (d.tracks_later hlater htracks)).bind fun _ _ _ _ => .pure trivial

theorem entry_obeys {key : Value} (htracks : d.Tracks s t.root) : d.Allows ( entry? t key) s :=
  (locate_obeys htracks).bind fun _ _ _ _ => .pure trivial

/-- What follows when a root has been rebuilt. -/
theorem rebalanced_obeys (htracks : d.Tracks s t.root) {root : PageRef}
    (hroot : d.Tracks s root) :
    d.Obeys (rebalanced t root version post) s (d.Follows t) := by
  refine .ite (fun _ => .pure (.refl htracks)) fun _ => ?_
  refine (balanced_obeys hroot).bind fun root' s' hlater hroot' => ?_
  exact Tree.withRoot_obeys (d.tracks_later hlater htracks) (PageRef.evacuated_obeys hroot')

/-- A slot is put into a subtree or taken from it, and the root is balanced. -/
theorem put_obeys {root : PageRef} {key : Value} {point : Point} {value : Value}
    (htracks : d.Tracks s t.root) (hroot : d.Tracks s root) :
    d.Obeys (do rebalanced t (← updated root key point value version) version post) s
      (d.Follows t) :=
  (updated_obeys hroot).bind fun _ _ hlater hroot' =>
    rebalanced_obeys (d.tracks_later hlater htracks) hroot'

theorem relocate_obeys {key : Value} {old new : Point} {value : Value}
    (htracks : d.Tracks s t.root) :
    d.Obeys (relocate t key old new value version post) s (d.Follows t) := by
  refine (updated_obeys htracks).bind fun removed s' hlater hremoved => ?_
  have htracks' := d.tracks_later hlater htracks
  refine .ite (fun _ => put_obeys htracks' hremoved) fun _ => ?_
  exact (balanced_obeys hremoved).bind fun _ _ hlater' hbalanced =>
    put_obeys (d.tracks_later hlater' htracks') hbalanced

/-- What follows the search for the key elsewhere. -/
theorem putAfterSearch_obeys {key : Value} {point : Point} {value : Value}
    (elsewhere : Option Slot) (htracks : d.Tracks s t.root) :
    d.Obeys (match elsewhere with
      | some slot => relocate t key (.ofSlot slot) point value version post
      | none => do rebalanced t (← updated t.root key point value version) version post) s
      (d.Follows t) := by
  cases elsewhere with
  | none => exact put_obeys htracks htracks
  | some slot => exact relocate_obeys htracks

theorem update_obeys {key : Value} {x y : Nat} {value : Value} (htracks : d.Tracks s t.root) :
    d.Obeys (update t key x y value version post) s (d.Follows t) := by
  refine pointAt_obeys.bind fun point s' hlater _ => ?_
  have htracks' := d.tracks_later hlater htracks
  refine .ite (fun _ => ?_) fun _ => putAfterSearch_obeys none htracks'
  refine (find_obeys htracks').bind fun found s'' hlater' _ => ?_
  have htracks'' := d.tracks_later hlater' htracks'
  cases found with
  | none =>
      exact (locate_obeys htracks'').bind fun elsewhere _ hlater₃ _ =>
        putAfterSearch_obeys elsewhere (d.tracks_later hlater₃ htracks'')
  | some _ => exact putAfterSearch_obeys none htracks''

theorem remove_obeys {key : Value} {x y : Nat} (htracks : d.Tracks s t.root) :
    d.Obeys (remove t key x y version post) s (d.Follows t) :=
  pointAt_obeys.bind fun _ _ hlater _ =>
    put_obeys (d.tracks_later hlater htracks) (d.tracks_later hlater htracks)

theorem move_obeys {key : Value} {oldX oldY newX newY : Nat} {value : Value}
    (htracks : d.Tracks s t.root) :
    d.Obeys (move t key oldX oldY newX newY value version post) s (d.Follows t) := by
  refine pointAt_obeys.bind fun old s' hlater _ => ?_
  refine pointAt_obeys.bind fun new s'' hlater' _ => ?_
  have htracks' := d.tracks_later hlater' (d.tracks_later hlater htracks)
  have hgo : ∀ (isThere : Bool) s', d.Tracks s' t.root → d.Obeys (if isThere then
        relocate t key old new value version post
      else update t key newX newY value version post) s' (d.Follows t) :=
    fun _ _ htracks => .ite (fun _ => relocate_obeys htracks) fun _ => update_obeys htracks
  refine .ite (fun _ => .look rfl (hgo false _ htracks')) fun _ => ?_
  exact (find_obeys htracks').bind fun slot s₃ hlater₃ _ =>
    .look rfl (hgo slot.isSome _ (d.tracks_later hlater₃ htracks'))

end Map
end QTree

/-! ## Operations of clients -/

theorem PlaneMap.valueNear_obeys {t : Tree} {key : Value} {x y : Nat}
    (htracks : d.Tracks s t.root) : d.Allows (PlaneMap.valueNear? t key x y) s := by
  refine (QTree.get_obeys htracks).bind fun old s' hlater _ => ?_
  cases old with
  | some old => exact .pure trivial
  | none =>
      exact (QTree.entry_obeys (d.tracks_later hlater htracks)).bind fun _ _ _ _ => .pure trivial

/-- An operation computes a tree that follows the one of the snapshot. -/
theorem Operation.run_obeys (snapshot : Trunk) (op : Operation)
    (htracks : d.Tracks s snapshot.tree.root) :
    d.Obeys (op.run snapshot) s fun result s' => d.Follows snapshot.tree result.1 s' := by
  -- the answer is read off the trees, and does not load anything by itself
  have hgive : ∀ {act : StoreM Tree} {s : Store} (answer : Tree → Option Value),
      d.Obeys act s (d.Follows snapshot.tree) →
      d.Obeys (do let tree ← act; return (tree, answer tree)) s
        fun result s' => d.Follows snapshot.tree result.1 s' :=
    fun _ hact => hact.bind fun _ _ _ hfollows => .pure hfollows
  have hlater : ∀ {s'}, d.Later s s' → d.Tracks s' snapshot.tree.root :=
    fun hlater => d.tracks_later hlater htracks
  cases op with
  | put key value =>
      exact (BTree.find_obeys htracks).bind fun old _ h _ =>
        hgive (fun _ => old) (BTree.update_obeys (hlater h))
  | remove key =>
      exact (BTree.find_obeys htracks).bind fun old _ h _ =>
        hgive (fun _ => old) (BTree.update_obeys (hlater h))
  | drop lower => exact hgive (fun _ => none) (BTree.drop_obeys htracks)
  | take upper => exact hgive (fun _ => none) (BTree.take_obeys htracks)
  | set value =>
      exact (UTree.get_obeys htracks).bind fun old _ h _ =>
        hgive (fun _ => some old) (UTree.update_obeys (hlater h))
  | putAt key x y value =>
      exact (PlaneMap.valueNear_obeys htracks).bind fun old _ h _ =>
        hgive (fun _ => old) (QTree.update_obeys (hlater h))
  | removeAt key x y =>
      exact (QTree.get_obeys htracks).bind fun old _ h _ =>
        hgive (fun _ => old) (QTree.remove_obeys (hlater h))
  | move key oldX oldY newX newY value => exact hgive (fun _ => none) (QTree.move_obeys htracks)
  | clear => exact hgive (fun _ => none) (Tree.cleared_obeys htracks)
  | evacuate => exact hgive (fun _ => none) (Tree.evacuated_obeys htracks)
  | reduce f => exact hgive (fun tree => some tree.fold) (Tree.reduced_obeys htracks)

end PageTree
