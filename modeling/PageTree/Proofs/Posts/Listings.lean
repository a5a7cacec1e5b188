import PageTree.Proofs.Cursor.Calls
import PageTree.Proofs.Posts.Unread

/-!
# Listings

A walk over a tree that is clear of older zones goes abreast of itself with other zones
(`Stands.walk_abreast`), and so does the collection of all items (`items_abreast`).  The policies
are those that enter a subtree or pass over it by its header alone, `Policy.Sifts`.
-/

namespace PageTree

open StoreM

variable {ι α β : Type} {s : Store} {c : Chart} {z : Zones} {zone : Nat}

/-! ## Policies -/

/-- What is decided about a child needs no more than what is beneath the child. -/
def Policy.LooksBeneath (policy : Policy ι) : Prop :=
  ∀ {zone z s c parent index child depth}, Represents s c → c.refs child →
    child.ClearOf zone → Zones.AgreeFrom zone s.zones z →
      Abreast z (policy.visit parent index child depth) (policy.visit parent index child depth)
        s c fun _ _ _ => True

/-- The decision about a header. -/
def Visit.ofHeader (enters : Header → Bool) (h : Header) : Visit ι :=
  if enters h then .descend else .skip

/-- The policy enters a subtree or passes over it by its header. -/
structure Policy.Sifts (policy : Policy ι) (enters : Header → Bool)
    (slot : PageBody Unit → Nat → Option ι) : Prop where
  visit : ∀ parent index child depth,
    policy.visit parent index child depth = pure (.ofHeader enters child.header)
  slot : ∀ page index, policy.slot page index = slot page.body.shape index

/-- The scheme of a policy that sifts. -/
def Scheme.sifting (enters : Header → Bool) (slot : PageBody Unit → Nat → Option ι) :
    Scheme ι where
  visit _ _ _ n _ decision := decision = .ofHeader enters n.header
  slot := slot

section Sifts

variable {policy : Policy ι} {enters : Header → Bool} {slot : PageBody Unit → Nat → Option ι}
  {n : Site}

theorem Policy.Sifts.looksBeneath (hsifts : policy.Sifts enters slot) : policy.LooksBeneath := by
  intro zone z s c parent index child depth hrep _ _ _
  rw [hsifts.visit]
  exact .pure hrep trivial

theorem Policy.Sifts.follows (hsifts : policy.Sifts enters slot) :
    policy.Follows (.sifting enters slot) where
  visit := by
    rintro s c parent index child depth decision hrep - rfl
    rw [hsifts.visit, PageRef.header_site]
    exact Runs.pure hrep rfl
  slot := hsifts.slot
  mono _ hvisit := hvisit

/-- A policy that sifts makes a tour of every tree, whatever is above it. -/
theorem Chart.Sound.exists_tour (hsound : c.Sound n) :
    ∃ l, ∀ parent index depth, c.Tours (.sifting enters slot) parent index depth n l := by
  induction hsound with
  | @intro n p found described fits folded covers beneath ih =>
      cases henters : enters n.header with
      | false =>
          exact ⟨[⟨n.header.span, none⟩], fun _ _ _ =>
            .skip (by simp [Scheme.sifting, Visit.ofHeader, henters])⟩
      | true =>
          have hvisit : ∀ parent index depth,
              (Scheme.sifting enters slot).visit c parent index n depth .descend := fun _ _ _ => by
            simp [Scheme.sifting, Visit.ofHeader, henters]
          cases hnode : p.isNode with
          | false => exact ⟨_, fun _ _ _ => .leaf (hvisit _ _ _) found hnode⟩
          | true =>
              obtain ⟨parts, hparts⟩ := exists_forall₂ (l := p.children) ih
              refine ⟨parts.flatten, fun parent index depth =>
                .node (hvisit _ _ _) found hnode parts hparts.length_eq ?_⟩
              exact fun i h h' => hparts.get h h' _ _ _

end Sifts

/-! ## Moves -/

namespace Cursor

/-- All that a frame leads to is clear of older zones. -/
def NodeClearOf (zone : Nat) : FrameNode → Prop
  | .root r => r.ClearOf zone
  | .page copy => ∀ m ∈ copy.page.children, m.ClearOf zone

/-- All that a cursor leads to is clear of older zones, and so is what its policy looks at. -/
structure ClearOf (zone : Nat) (k : Cursor ι) : Prop where
  looks : k.policy.LooksBeneath
  nodes : ∀ f ∈ k.stack, NodeClearOf zone f.node

variable {k : Cursor ι} {f : Frame} {outer : List Frame} {d : Direction}

theorem clearOf_start {r : PageRef} {policy : Policy ι} (hlooks : policy.LooksBeneath)
    (hclear : r.ClearOf zone) : (start r policy).ClearOf zone := by
  refine ⟨hlooks, fun f hf => ?_⟩
  rw [List.mem_singleton.1 hf]
  exact hclear

theorem NodeClearOf.child {index : Nat} {child : PageRef} (hclear : NodeClearOf zone f.node)
    (hchild : f.child? index = some child) : child.ClearOf zone := by
  obtain ⟨node, gap, entered, childDepth⟩ := f
  cases node with
  | root r =>
      cases hchild
      exact hclear
  | page copy => exact hclear child (List.mem_of_getElem? hchild)

namespace ClearOf

theorem top (hclear : k.ClearOf zone) (hstack : k.stack = f :: outer) :
    NodeClearOf zone f.node :=
  hclear.nodes f (by rw [hstack]; exact List.mem_cons_self)

/-- The innermost frame may move. -/
theorem passing (hclear : k.ClearOf zone) (hstack : k.stack = f :: outer) (n : Nat) :
    (k.passing f d n).ClearOf zone := by
  refine ⟨hclear.looks, fun g hg => ?_⟩
  have hstack' : (k.passing f d n).stack = f.past d :: outer := by
    simp [Cursor.passing, setTop, hstack]
  rw [hstack', List.mem_cons] at hg
  rcases hg with rfl | hg
  · show NodeClearOf zone f.node
    exact hclear.top hstack
  · exact hclear.nodes g (by rw [hstack]; exact List.mem_cons_of_mem f hg)

/-- The cursor may go back to the frame outside. -/
theorem leaving {k' : Cursor ι} (hclear : k.ClearOf zone) (hleaves : k.leaving? d = some k') :
    k'.ClearOf zone := by
  obtain ⟨policy, stack, position⟩ := k
  match stack, hleaves with
  | f :: g :: outer, rfl =>
      refine ⟨hclear.looks, fun g' hg' => ?_⟩
      have hnode : (g.left d).node = g.node := by
        unfold Frame.left
        split <;> rfl
      rcases List.mem_cons.1 hg' with rfl | hg'
      · rw [hnode]
        exact hclear.nodes g (List.mem_cons_of_mem f List.mem_cons_self)
      · exact hclear.nodes g' (List.mem_cons_of_mem f (List.mem_cons_of_mem g hg'))

/-- The cursor may enter a page whose children are clear. -/
theorem entering {copy : PageCopy} (hclear : k.ClearOf zone) (hstack : k.stack = f :: outer)
    (index : Nat) (hcopy : ∀ m ∈ copy.page.children, m.ClearOf zone) :
    (k.entering f d index copy).ClearOf zone := by
  refine ⟨hclear.looks, fun g hg => ?_⟩
  have hstack' : (k.entering f d index copy).stack =
      .page copy f.childDepth d :: { f with entered := some index } :: outer := by
    simp [Cursor.entering, hstack]
  rw [hstack', List.mem_cons, List.mem_cons] at hg
  rcases hg with rfl | rfl | hg
  · exact hcopy
  · show NodeClearOf zone f.node
    exact hclear.top hstack
  · exact hclear.nodes g (by rw [hstack]; exact List.mem_cons_of_mem f hg)

end ClearOf
end Cursor

/-- Another move does with other zones what a move does with those of the store, and leaves the
cursor clear of older zones. -/
structure CursorM.Abreast (zone : Nat) (z : Zones) (act act' : CursorM ι α) (k : Cursor ι)
    (s : Store) : Prop where
  same : act'.exec k (s.withZones z) = ((act.exec k s).1, (act.exec k s).2.withZones z)
  clear : (act.exec k s).1.2.ClearOf zone

namespace CursorM.Abreast

variable {k : Cursor ι}

protected theorem pure {a : α} (hclear : k.ClearOf zone) :
    CursorM.Abreast zone z (pure a) (pure a) k s :=
  ⟨rfl, hclear⟩

protected theorem get {f f' : Cursor ι → CursorM ι β}
    (hf : CursorM.Abreast zone z (f k) (f' k) k s) :
    CursorM.Abreast zone z (get >>= f) (get >>= f') k s :=
  ⟨hf.same, hf.clear⟩

protected theorem set {k' : Cursor ι} {f f' : Unit → CursorM ι β}
    (hf : CursorM.Abreast zone z (f ()) (f' ()) k' s) :
    CursorM.Abreast zone z (set k' >>= f) (set k' >>= f') k s :=
  ⟨hf.same, hf.clear⟩

protected theorem ofStore {act act' : StoreM α} {P : α → Store → Chart → Prop}
    {f f' : α → CursorM ι β} (hact : PageTree.Abreast z act act' s c P) (hclear : k.ClearOf zone)
    (hf : ∀ a s' c', Grows s c s' c' → P a s' c' → CursorM.Abreast zone z (f a) (f' a) k s') :
    CursorM.Abreast zone z (CursorM.ofStore act >>= f) (CursorM.ofStore act' >>= f') k s := by
  have hsame := hact.same
  rcases hact.runs.cases with ⟨a, s', c', hexec, hgrows, hpost⟩ | ⟨e, s', c', hexec, -⟩
  · have hbeneath := hf a s' c' hgrows hpost
    rw [hexec] at hsame
    refine ⟨?_, ?_⟩
    · rw [CursorM.exec_bind, CursorM.exec_bind, CursorM.exec_ofStore, CursorM.exec_ofStore, hsame,
        hexec]
      exact hbeneath.same
    · rw [CursorM.exec_bind, CursorM.exec_ofStore, hexec]
      exact hbeneath.clear
  · rw [hexec] at hsame
    refine ⟨?_, ?_⟩
    · rw [CursorM.exec_bind, CursorM.exec_bind, CursorM.exec_ofStore, CursorM.exec_ofStore, hsame,
        hexec]
    · rw [CursorM.exec_bind, CursorM.exec_ofStore, hexec]
      exact hclear

protected theorem bind {m m' : CursorM ι α} {f f' : α → CursorM ι β}
    {P : α → Cursor ι → Chart → Prop} {stop : Cursor ι → Chart → Prop}
    (hm : CursorM.Abreast zone z m m' k s) (hmoves : Moves m k s c P stop)
    (hf : ∀ a k' s' c', Grows s c s' c' → P a k' c' → k'.ClearOf zone →
      CursorM.Abreast zone z (f a) (f' a) k' s') :
    CursorM.Abreast zone z (m >>= f) (m' >>= f') k s := by
  obtain ⟨hsame, hclear⟩ := hm
  rcases hmoves.cases with
    ⟨a, k', s', c', hexec, hgrows, hpost⟩ | ⟨e, k', s', c', hexec, -⟩
  · rw [hexec] at hsame hclear
    have hrest := hf a k' s' c' hgrows hpost hclear
    refine ⟨?_, ?_⟩
    · rw [CursorM.exec_bind, CursorM.exec_bind, hsame, hexec]
      exact hrest.same
    · rw [CursorM.exec_bind, hexec]
      exact hrest.clear
  · rw [hexec] at hsame hclear
    refine ⟨?_, ?_⟩
    · rw [CursorM.exec_bind, CursorM.exec_bind, hsame, hexec]
    · rw [CursorM.exec_bind, hexec]
      exact hclear

end CursorM.Abreast

/-! ## Walks -/

namespace Cursor

variable {scheme : Scheme ι} {r : PageRef} {k : Cursor ι} {before after : List (Stretch ι)}

/-- A step of a walk over what is clear of older zones goes abreast of itself. -/
theorem Stands.stepTowards_abreast (hrep : Represents s c)
    (hstands : k.Stands c scheme r before after)
    (hclear : k.ClearOf zone) (hagree : Zones.AgreeFrom zone s.zones z) (d : Direction) :
    CursorM.Abreast zone z (CursorM.stepTowards d) (CursorM.stepTowards d) k s := by
  obtain ⟨-, -, f, outer, parts, hstack, -, hshows, hindex, -⟩ := hstands
  have hlength : parts.length = f.size := hshows.length f.index f.entered f.childDepth
  refine .get ?_
  simp only [hstack, List.head?_cons]
  cases hahead : f.ahead? d with
  | none =>
      cases hleaves : k.leaving? d with
      | none => exact .pure hclear
      | some k' => exact .set (.pure (hclear.leaving hleaves))
  | some index =>
      obtain ⟨-, hlt⟩ := Frame.near_of_ahead (hlength ▸ hindex) hahead
      cases hleaf : f.leaf? with
      | some page =>
          refine .set ?_
          split
          · exact .pure (hclear.passing hstack 1)
          · exact .pure (hclear.passing hstack 1)
      | none =>
          obtain ⟨child, -, hchild, hrefs, -⟩ := hshows.child hleaf hlt
          have hbelow := (hclear.top hstack).child hchild
          simp only [hchild]
          refine .ofStore (hclear.looks hrep hrefs hbelow hagree) hclear ?_
          intro decision s' c' hgrows _
          cases decision with
          | descend =>
              refine .ofStore (PageRef.pageCopy_abreast hgrows.represents
                (hgrows.le.refs child hrefs) hbelow (hgrows.zones ▸ hagree)) hclear ?_
              rintro copy s'' c'' - ⟨-, hchildren⟩
              exact .set (.pure (hclear.entering hstack index fun m hm => (hchildren m hm).2))
          | skip => exact .set (.pure (hclear.passing hstack child.span))
          | emit item => exact .set (.pure (hclear.passing hstack child.span))

/-- A walk over what is clear of older zones goes abreast of itself, if the bounds on the steps are
large enough. -/
theorem Stands.walk_abreast (hrep : Represents s c)
    (hstands : k.Stands c scheme r before after)
    (hclear : k.ClearOf zone) (hagree : Zones.AgreeFrom zone s.zones z) (d : Direction)
    {steps steps' : Nat} (hsteps : k.work d < steps) (hsteps' : k.work d < steps') :
    CursorM.Abreast zone z (CursorM.walk (CursorM.stepTowards d) steps)
      (CursorM.walk (CursorM.stepTowards d) steps') k s := by
  induction steps generalizing steps' k s c before after with
  | zero => exact absurd hsteps (Nat.not_lt_zero _)
  | succ steps ih =>
      obtain ⟨steps', rfl⟩ := Nat.exists_eq_add_one_of_ne_zero (Nat.ne_zero_of_lt hsteps')
      refine (hstands.stepTowards_abreast hrep hclear hagree d).bind
        (hstands.stepTowards_moves hrep d) ?_
      rintro (_ | item?) k' s' c' hgrows hpost hclear'
      · obtain ⟨hless, xs, before', after', -, -, hstands'⟩ := hpost
        exact ih hgrows.represents hstands' hclear' (hgrows.zones ▸ hagree) (by omega) (by omega)
      · exact .pure hclear'

/-- To advance goes abreast of itself. -/
theorem Stands.advance_abreast (hrep : Represents s c)
    (hstands : k.Stands c scheme r before after) (hclear : k.ClearOf zone)
    (hagree : Zones.AgreeFrom zone s.zones z) (d : Direction) :
    CursorM.Abreast zone z (CursorM.advance d) (CursorM.advance d) k s := by
  have hwalk : ∀ s, Mirrors s c → (CursorM.advance d).exec k s =
      (CursorM.walk (CursorM.stepTowards d) (s.walkBound r (k.position + 1))).exec k s ∧
        k.work d < s.walkBound r (k.position + 1) := by
    intro s hrep
    refine ⟨?_, Nat.lt_of_le_of_lt (hstands.work_le d) ?_⟩
    · rw [CursorM.advance, CursorM.exec_bind, hstands.exec_stepBound]
    · exact lt_walkBound hrep hstands.tour.1 _
  obtain ⟨hexec, hbound⟩ := hwalk s hrep.toMirrors
  obtain ⟨hexec', hbound'⟩ := hwalk (s.withZones z) (hrep.toMirrors.withZones z)
  have habreast := hstands.walk_abreast hrep hclear hagree d hbound hbound'
  exact ⟨by rw [hexec, hexec', habreast.same], by rw [hexec]; exact habreast.clear⟩

/-! ## Collections -/

/-- All items that are left are collected abreast, if the bounds on their number are large
enough. -/
theorem Stands.collectWithin_abreast (hrep : Represents s c)
    (hstands : k.Stands c scheme r before after) (hclear : k.ClearOf zone)
    (hagree : Zones.AgreeFrom zone s.zones z) {bound bound' : Nat} (hbound : after.length < bound)
    (hbound' : after.length < bound') :
    ((CursorM.collectWithin CursorM.next bound').run k).run (s.withZones z) =
      ((((CursorM.collectWithin CursorM.next bound).run k).run s).1,
        (((CursorM.collectWithin CursorM.next bound).run k).run s).2.withZones z) := by
  induction bound generalizing bound' k s c before after with
  | zero => exact absurd hbound (Nat.not_lt_zero _)
  | succ bound ih =>
      obtain ⟨bound', rfl⟩ := Nat.exists_eq_add_one_of_ne_zero (Nat.ne_zero_of_lt hbound')
      have hnext : CursorM.Abreast zone z CursorM.next CursorM.next k s :=
        hstands.advance_abreast hrep hclear hagree .forward
      have hmoves : Moves CursorM.next k s c (Arrives .forward scheme r before after)
          (Strays .forward scheme r before after) := hstands.advance_moves hrep .forward
      obtain ⟨hsame, hclear'⟩ := hnext
      rw [run_collectWithin, run_collectWithin, hsame]
      rcases hmoves.cases with
        ⟨item?, k', s', c', hexec, hgrows, hpost⟩ | ⟨e, k', s', c', hexec, -⟩
      · rw [hexec] at hclear' ⊢
        cases item? with
        | none => rfl
        | some item =>
            obtain ⟨xs, n, -, before', after', ⟨rfl, -⟩, hstands'⟩ := hpost
            simp only [List.length_append, List.length_cons] at hbound hbound'
            have hrest := ih hgrows.represents hstands' hclear' (hgrows.zones ▸ hagree)
              (show after'.length < bound by omega) (show after'.length < bound' by omega)
            dsimp only
            rw [hrest]
      · rw [hexec]

/-- The items of a tree that is clear of older zones are collected abreast. -/
theorem items_abreast {policy : Policy ι} {enters : Header → Bool}
    {slot : PageBody Unit → Nat → Option ι} (hsifts : policy.Sifts enters slot)
    (hrep : Represents s c) (hr : c.refs r) (hclear : r.ClearOf zone)
    (hagree : Zones.AgreeFrom zone s.zones z) :
    StoreM.exec ((start r policy).items .forward) (s.withZones z) =
      ((StoreM.exec ((start r policy).items .forward) s).1,
        (StoreM.exec ((start r policy).items .forward) s).2.withZones z) := by
  obtain ⟨l, htours⟩ : ∃ l, ∀ parent index depth,
      c.Tours (.sifting enters slot) parent index depth r.site l := (hrep.sound r hr).exists_tour
  have hlength := (htours none 0 0).length_le (hrep.sound r hr)
  rw [PageRef.header_site] at hlength
  change l.length ≤ r.treeSize at hlength
  have hstands := stands_start hsifts.follows hr (htours none 0 0)
  have hbound : ∀ s, Mirrors s c → l.length < s.walkBound r 0 := fun s hrep => by
    have hlt := lt_walkBound hrep hr 0
    omega
  have hcollect := hstands.collectWithin_abreast hrep (clearOf_start hsifts.looksBeneath hclear)
    hagree (hbound s hrep.toMirrors) (hbound (s.withZones z) (hrep.toMirrors.withZones z))
  rw [CursorM.next] at hcollect
  rw [exec_items rfl, exec_items rfl, show (start r policy).position = 0 from rfl, hcollect]
  generalize (((CursorM.collectWithin (CursorM.advance .forward) (s.walkBound r 0)).run
    (start r policy)).run s : Id _) = outcome
  obtain ⟨⟨⟨l, _ | e⟩, k'⟩, s'⟩ := outcome <;> rfl

end Cursor
end PageTree
