import PageTree.Proofs.Pictures.Searches
import PageTree.Proofs.Posts.Listings

/-!
# Walks over pictures

What a cursor yields is told by the picture of its tree alone, for the policies that enter a
subtree or pass over it by what its reference covers: `Picture.items` are what there is to yield,
and a walk in either direction yields them in its order (`items_yields`, `items_back_yields`).
`Faces` says what is left of them ahead of a cursor; each step of a walk leaves less to do
(`Faces.stepTowards_steers`), and so a walk ends with the first item.
-/

namespace PageTree

open StoreM CursorM

variable {ι α β : Type}

/-! ## What there is to yield -/

/-- What a page yields, item by item of the page: what its slots do, or what its children do, as far
as they are entered. -/
def Look.parts (keeps : Nat × Tile × Tile → Bool) (slot : PageBody Unit → Nat → Option ι) :
    Look Unit (List (List ι)) := fun shape glimpses _ =>
  if (⟨0, 0, shape⟩ : Page Unit).isNode then
    glimpses.map fun glimpse => if keeps glimpse.1 then (glimpse.2 ()).flatten else []
  else (List.range (⟨0, 0, shape⟩ : Page Unit).arity).map fun index => (slot shape index).toList

namespace Picture

variable (keeps : Nat × Tile × Tile → Bool) (slot : PageBody Unit → Nat → Option ι)

/-- What is yielded for the items of the first page. -/
def parts (t : Picture) : List (List ι) :=
  t.search (Look.parts keeps slot) ()

/-- What is yielded for the whole tree. -/
def items (t : Picture) : List ι :=
  if keeps t.extent then (t.parts keeps slot).flatten else []

variable {keeps slot} {t t' : Picture}

theorem parts_of_isNode (hnode : (⟨0, 0, t.shape⟩ : Page Unit).isNode = true) :
    t.parts keeps slot = t.beneath.map (items keeps slot) := by
  rw [parts, search_eq, Look.parts, if_pos hnode, List.map_map]
  rfl

theorem parts_of_leaf (hleaf : (⟨0, 0, t.shape⟩ : Page Unit).isNode = false) :
    t.parts keeps slot = (List.range (⟨0, 0, t.shape⟩ : Page Unit).arity).map fun index =>
      (slot t.shape index).toList := by
  rw [parts, search_eq, Look.parts, if_neg (by simp [hleaf])]

/-- Folds are not yielded. -/
theorem Refines.items (hrefines : t.Refines t') : t'.items keeps slot = t.items keeps slot := by
  rw [Picture.items, Picture.items, Picture.parts, Picture.parts, hrefines.search, hrefines.extent]

end Picture

/-! ## Moves of a cursor -/

/-- The move keeps all pictures and gives a result with a property; unless loads are `sure` to
succeed, it may fail. -/
def CursorM.Steers (sure : Prop) (act : CursorM ι α) (k : Cursor ι) (g : Gallery)
    (post : α → Cursor ι → Gallery → Prop) : Prop :=
  (∃ a k' g', act.exec k g.store = ((.ok a, k'), g'.store) ∧ g ≤ g' ∧ g'.Sound sure ∧
      post a k' g') ∨
    ¬ sure ∧ ∃ e k' s, act.exec k g.store = ((.error e, k'), s)

namespace CursorM.Steers

variable {sure : Prop} {k : Cursor ι} {g : Gallery} {P : α → Cursor ι → Gallery → Prop}
  {Q : β → Cursor ι → Gallery → Prop}

protected theorem pure {a : α} (hsound : g.Sound sure) (hpost : P a k g) :
    Steers sure (pure a) k g P :=
  Or.inl ⟨a, k, g, rfl, Gallery.le_refl g, hsound, hpost⟩

protected theorem bind {act : CursorM ι α} {f : α → CursorM ι β} (hact : Steers sure act k g P)
    (hf : ∀ a k' g', g ≤ g' → g'.Sound sure → P a k' g' → Steers sure (f a) k' g' Q) :
    Steers sure (act >>= f) k g Q := by
  rcases hact with ⟨a, k', g', hexec, hle, hsound, hpost⟩ | ⟨hunsure, e, k', s, hexec⟩
  · rcases hf a k' g' hle hsound hpost with
      ⟨b, k'', g'', hexec', hle', hsound', hpost'⟩ | ⟨hunsure, e, k'', s, hexec'⟩
    · exact Or.inl ⟨b, k'', g'', by rw [exec_bind, hexec]; exact hexec',
        Gallery.le_trans hle hle', hsound', hpost'⟩
    · exact Or.inr ⟨hunsure, e, k'', s, by rw [exec_bind, hexec]; exact hexec'⟩
  · exact Or.inr ⟨hunsure, e, k', s, by rw [exec_bind, hexec]⟩

theorem mono {P' : α → Cursor ι → Gallery → Prop} {act : CursorM ι α}
    (hact : Steers sure act k g P) (himp : ∀ a k' g', P a k' g' → P' a k' g') :
    Steers sure act k g P' := by
  rcases hact with ⟨a, k', g', hexec, hle, hsound, hpost⟩ | herror
  · exact Or.inl ⟨a, k', g', hexec, hle, hsound, himp a k' g' hpost⟩
  · exact Or.inr herror

/-- The cursor may be looked at. -/
protected theorem get {f : Cursor ι → CursorM ι β} (hf : Steers sure (f k) k g Q) :
    Steers sure (get >>= f) k g Q :=
  hf

/-- The cursor may be replaced. -/
protected theorem set {k' : Cursor ι} {f : Unit → CursorM ι β} (hf : Steers sure (f ()) k' g Q) :
    Steers sure (set k' >>= f) k g Q :=
  hf

/-- The cursor stays where it is while the store is at work. -/
protected theorem ofStore {act : StoreM α} {R : α → Gallery → Prop} {f : α → CursorM ι β}
    (hact : Yields sure act g R)
    (hf : ∀ a g', g ≤ g' → g'.Sound sure → R a g' → Steers sure (f a) k g' Q) :
    Steers sure (CursorM.ofStore act >>= f) k g Q := by
  refine Steers.bind (P := fun a k' g' => k' = k ∧ R a g') ?_ ?_
  · rcases hact with ⟨a, g', hexec, hle, hsound, hpost⟩ | ⟨hunsure, e, s, hexec⟩
    · exact Or.inl ⟨a, k, g', by rw [exec_ofStore, hexec], hle, hsound, rfl, hpost⟩
    · exact Or.inr ⟨hunsure, e, k, s, by rw [exec_ofStore, hexec]⟩
  · rintro a _ g' hle hsound ⟨rfl, hpost⟩
    exact hf a g' hle hsound hpost

end CursorM.Steers

/-! ## What is ahead of a cursor -/

namespace Direction

/-- A list in the order in which a walk passes over it. -/
def order (d : Direction) (l : List ι) : List ι :=
  match d with
  | forward => l
  | backward => l.reverse

/-- What lies ahead of a gap. -/
def ahead (d : Direction) (parts : List (List ι)) (gap : Nat) : List ι :=
  match d with
  | forward => (parts.drop gap).flatten
  | backward => (parts.take gap).flatten.reverse

variable {d : Direction} {parts : List (List ι)} {part : List ι} {index : Nat}

/-- Past an item lies what lay behind it. -/
theorem ahead_near (hpart : parts[index]? = some part) :
    d.ahead parts (d.near index) = d.order part ++ d.ahead parts (d.far index) := by
  obtain ⟨hlt, rfl⟩ := List.getElem?_eq_some_iff.1 hpart
  cases d with
  | forward =>
      simp only [ahead, near, far, order]
      rw [List.drop_eq_getElem_cons hlt, List.flatten_cons]
  | backward =>
      simp only [ahead, near, far, order]
      rw [List.take_add_one, List.getElem?_eq_getElem hlt, Option.toList_some,
        List.flatten_append, List.flatten_singleton, List.reverse_append]

/-- Nothing lies ahead of the end. -/
theorem ahead_end {gap : Nat} (hend : gap = if d = .forward then parts.length else 0) :
    d.ahead parts gap = [] := by
  subst hend
  cases d <;> simp [ahead]

end Direction

namespace FrameNode

variable (keeps : Nat × Tile × Tile → Bool) (slot : PageBody Unit → Nat → Option ι)

/-- What is yielded for the items of a frame. -/
def Leads (g : Gallery) : FrameNode → List (List ι) → Prop
  | root r, parts => ∃ t, g.shows r t ∧ parts = [t.items keeps slot]
  | page copy, parts => ∃ t, copy.page.Draws g.shows t ∧ parts = t.parts keeps slot

variable {keeps slot} {g g' : Gallery} {f : Frame} {parts : List (List ι)} {index : Nat}

theorem Leads.mono {node : FrameNode} (hle : g ≤ g') (hleads : node.Leads keeps slot g parts) :
    node.Leads keeps slot g' parts := by
  cases node with
  | root r =>
      obtain ⟨t, hr, hparts⟩ := hleads
      exact ⟨t, hle.shows r t hr, hparts⟩
  | page copy =>
      obtain ⟨t, hdraws, hparts⟩ := hleads
      exact ⟨t, hdraws.mono hle.shows, hparts⟩

end FrameNode

/-- What is counted of a page is told by its shape. -/
theorem Page.isNode_of_shape_eq {p : LivePage} {t : Picture} (hshape : p.body.shape = t.shape) :
    (⟨0, 0, t.shape⟩ : Page Unit).isNode = p.isNode := by
  rw [← hshape]
  obtain ⟨version, stem, body⟩ := p
  cases body <;> rfl

theorem Page.arity_of_shape_eq {p : LivePage} {t : Picture} (hshape : p.body.shape = t.shape) :
    (⟨0, 0, t.shape⟩ : Page Unit).arity = p.arity := by
  rw [← hshape]
  obtain ⟨version, stem, body⟩ := p
  cases body <;> simp [Page.arity, PageBody.shape, PageBody.map]

namespace Page.Draws

variable {p : LivePage} {shows : PageRef → Picture → Prop} {t : Picture}
  {keeps : Nat × Tile × Tile → Bool} {slot : PageBody Unit → Nat → Option ι}

theorem parts_of_isNode (hdraws : p.Draws shows t) (hnode : p.isNode = true) :
    t.parts keeps slot = t.beneath.map (Picture.items keeps slot) :=
  Picture.parts_of_isNode (Page.isNode_of_shape_eq hdraws.shape ▸ hnode)

theorem parts_of_leaf (hdraws : p.Draws shows t) (hleaf : p.isNode = false) :
    t.parts keeps slot = (List.range p.arity).map fun index =>
      (slot p.body.shape index).toList := by
  rw [Picture.parts_of_leaf (Page.isNode_of_shape_eq hdraws.shape ▸ hleaf),
    Page.arity_of_shape_eq hdraws.shape, hdraws.shape]

end Page.Draws

namespace FrameNode.Leads

variable {keeps : Nat × Tile × Tile → Bool} {slot : PageBody Unit → Nat → Option ι} {g : Gallery}
  {f : Frame} {parts : List (List ι)} {index : Nat}

/-- There is a part for each item. -/
theorem length_eq (hleads : f.node.Leads keeps slot g parts) : parts.length = f.size := by
  obtain ⟨node, gap, entered, childDepth⟩ := f
  cases node with
  | root r =>
      obtain ⟨t, -, rfl⟩ := hleads
      rfl
  | page copy =>
      obtain ⟨t, hdraws, rfl⟩ := hleads
      change _ = copy.page.arity
      cases hnode : copy.page.isNode with
      | true =>
          rw [hdraws.parts_of_isNode hnode, List.length_map, ← hdraws.children.length_eq,
            Page.length_children hnode]
      | false => rw [hdraws.parts_of_leaf hnode, List.length_map, List.length_range]

/-- A slot of a leaf yields an item at most. -/
theorem slot_eq {page : LivePage} (hleads : f.node.Leads keeps slot g parts)
    (hleaf : f.leaf? = some page) (hlt : index < f.size) :
    parts[index]? = some (slot page.body.shape index).toList := by
  obtain ⟨node, gap, entered, childDepth⟩ := f
  cases node with
  | root r => cases hleaf
  | page copy =>
      simp only [Frame.leaf?, Frame.page?, Option.filter_eq_some_iff, Option.some.injEq,
        Bool.not_eq_true'] at hleaf
      obtain ⟨rfl, hnode⟩ := hleaf
      obtain ⟨t, hdraws, rfl⟩ := hleads
      change index < copy.page.arity at hlt
      rw [hdraws.parts_of_leaf hnode, List.getElem?_map, List.getElem?_range hlt]
      rfl

/-- An item of a frame that is no leaf is a child, which yields what is in its picture. -/
theorem child (hleads : f.node.Leads keeps slot g parts) (hnode : f.leaf? = none)
    (hlt : index < f.size) : ∃ child t, f.child? index = some child ∧ g.shows child t ∧
      parts[index]? = some (t.items keeps slot) ∧
      f.node.weights[index]? = some (child.treeSize + 1) := by
  obtain ⟨child, hchild, hweight⟩ := Frame.exists_child hnode hlt
  obtain ⟨node, gap, entered, childDepth⟩ := f
  cases node with
  | root r =>
      obtain ⟨t, hr, rfl⟩ := hleads
      obtain rfl : index = 0 := Nat.lt_one_iff.1 hlt
      cases hchild
      exact ⟨_, t, rfl, hr, rfl, hweight⟩
  | page copy =>
      have hisNode : copy.page.isNode = true := by
        simpa [Frame.leaf?, Frame.page?] using hnode
      obtain ⟨t, hdraws, rfl⟩ := hleads
      obtain ⟨hlt', rfl⟩ := List.getElem?_eq_some_iff.1 hchild
      have hlength := hdraws.children.length_eq
      refine ⟨_, t.beneath[index], hchild, hdraws.children.get hlt' (hlength ▸ hlt'), ?_, hweight⟩
      rw [hdraws.parts_of_isNode hisNode, List.getElem?_map, List.getElem?_eq_getElem]
      rfl

end FrameNode.Leads

/-- The frame of a page weighs less than a child that leads to it. -/
theorem Gallery.Sees.weight_lt {g : Gallery} {r : PageRef} {t : Picture} {copy : PageCopy}
    (hsees : g.Sees r t copy.page) : (FrameNode.page copy).weight < r.treeSize + 1 :=
  FrameNode.weight_lt_of_area hsees.measures.area

/-- The bound on the steps of a walk is more than what there can be to do. -/
theorem Gallery.Sound.lt_walkBound {sure : Prop} {g : Gallery} {r : PageRef} {t : Picture}
    (hsound : g.Sound sure) (hr : g.shows r t) (position : Nat) :
    r.treeSize + 2 < g.store.walkBound r position := by
  have hcells := hsound.allocated hr
  have hbase : r.treeSize + 2 ≤ g.store.depthBound r + r.span + position := by
    rw [Store.depthBound]
    omega
  have htwo : 2 ≤ g.store.depthBound r + r.span + position := by omega
  rw [Store.walkBound]
  calc r.treeSize + 2 < 2 * 2 * (r.treeSize + 2) := by omega
    _ ≤ _ := Nat.mul_le_mul (Nat.mul_le_mul htwo htwo) hbase

namespace Cursor

variable (d : Direction) (keeps : Nat × Tile × Tile → Bool) (slot : PageBody Unit → Nat → Option ι)
  (g : Gallery) (r : PageRef)

/-- What the frames around an innermost frame still yield, up to the root. -/
inductive Owes : FrameNode → List Frame → List ι → Prop where
  | root : Owes (.root r) [] []
  | page {copy f outer index parts w l} (entered : f.entered = some index)
      (leads : f.node.Leads keeps slot g parts) (weighs : f.node.weights[index]? = some w)
      (lighter : (FrameNode.page copy).weight < w) (rest : Owes f.node outer l) :
      Owes (.page copy) (f :: outer) (d.ahead parts (d.far index) ++ l)

/-- What is left ahead of a cursor in a direction. -/
structure Faces (k : Cursor ι) (l : List ι) : Prop where
  sifts : k.policy.Sifts (fun h => keeps h.extent) slot
  stack : ∃ f outer parts rest, k.stack = f :: outer ∧ f.entered = none ∧
    f.node.Leads keeps slot g parts ∧ f.index ≤ parts.length ∧
    Owes d keeps slot g r f.node outer rest ∧ l = d.ahead parts f.index ++ rest

variable {d keeps slot g r} {g' : Gallery} {k : Cursor ι} {f : Frame} {outer : List Frame}
  {parts : List (List ι)} {part l rest : List ι} {index : Nat} {node : FrameNode} {sure : Prop}
  {t : Picture}

theorem Owes.mono (hle : g ≤ g') (howes : Owes d keeps slot g r node outer l) :
    Owes d keeps slot g' r node outer l := by
  induction howes with
  | root => exact .root
  | page entered leads weighs lighter _ ih => exact .page entered (leads.mono hle) weighs lighter ih

theorem Owes.hangs (howes : Owes d keeps slot g r node outer l) : Hangs r node outer := by
  induction howes with
  | root => exact .root
  | page entered _ weighs lighter _ ih => exact .page entered weighs lighter ih

namespace Faces

theorem root_eq (hfaces : k.Faces d keeps slot g r l) : k.root? = some r := by
  obtain ⟨-, f, outer, parts, rest, hstack, -, -, -, howes, -⟩ := hfaces
  rw [root?, hstack, howes.hangs.root_eq rfl]

theorem work_le (hfaces : k.Faces d keeps slot g r l) : k.work d ≤ r.treeSize + 2 := by
  obtain ⟨-, f, outer, parts, rest, hstack, hentered, -, -, howes, -⟩ := hfaces
  rw [work, hstack, List.map_cons, List.sum_cons]
  exact howes.hangs.work_le d (Frame.work_le_weight hentered d)

/-- The cursor passes over an item of its innermost frame. -/
theorem passing (hsifts : k.policy.Sifts (fun h => keeps h.extent) slot)
    (hstack : k.stack = f :: outer) (hentered : f.entered = none)
    (hleads : f.node.Leads keeps slot g parts) (howes : Owes d keeps slot g r f.node outer rest)
    (hnear : f.index = d.near index) (hlt : index < f.size) (hpart : parts[index]? = some part)
    (n : Nat) :
    (k.passing f d n).work d < k.work d ∧ ∃ l', d.ahead parts f.index ++ rest = d.order part ++ l' ∧
      (k.passing f d n).Faces d keeps slot g r l' := by
  refine ⟨work_passing hstack hentered hnear hlt n, d.ahead parts (d.far index) ++ rest, ?_,
    hsifts, _, outer, parts, rest, stack_passing hstack hnear n, hentered, hleads, ?_, howes, rfl⟩
  · rw [hnear, Direction.ahead_near hpart, List.append_assoc]
  · rw [hleads.length_eq]
    cases d with
    | forward => exact hlt
    | backward => exact Nat.le_of_lt hlt

/-- The cursor goes back to the frame above its innermost one. -/
theorem leaving (hsifts : k.policy.Sifts (fun h => keeps h.extent) slot)
    (hstack : k.stack = f :: outer) (howes : Owes d keeps slot g r f.node outer rest) :
    (k.leaving? d = none ∧ rest = []) ∨
      ∃ k', k.leaving? d = some k' ∧ k'.work d < k.work d ∧ k'.Faces d keeps slot g r rest := by
  obtain ⟨node, gap, entered, childDepth⟩ := f
  cases howes with
  | root => exact Or.inl ⟨by simp [leaving?, hstack], rfl⟩
  | @page copy f outer index parts w l entered leads weighs lighter rest =>
      refine Or.inr ⟨{ k with stack := f.left d :: outer }, by simp [leaving?, hstack],
        work_leaving hstack entered, hsifts, f.left d, outer, parts, l, rfl, ?_⟩
      rw [Frame.left_eq entered]
      refine ⟨rfl, leads, ?_, rest, rfl⟩
      have hlt : index < f.size := by
        rw [← f.length_weights]
        exact (List.getElem?_eq_some_iff.1 weighs).1
      rw [leads.length_eq]
      cases d with
      | forward => exact hlt
      | backward => exact Nat.le_of_lt hlt

/-- The cursor enters a child from its near end. -/
theorem entering {copy : PageCopy} {m : PageRef}
    (hsifts : k.policy.Sifts (fun h => keeps h.extent) slot)
    (hstack : k.stack = f :: outer) (hentered : f.entered = none)
    (hleads : f.node.Leads keeps slot g parts) (howes : Owes d keeps slot g r f.node outer rest)
    (hnear : f.index = d.near index) (hpart : parts[index]? = some (t.parts keeps slot).flatten)
    (hw : f.node.weights[index]? = some (m.treeSize + 1)) (hsees : g.Sees m t copy.page) :
    (k.entering f d index copy).work d < k.work d ∧
      (k.entering f d index copy).Faces d keeps slot g r (d.ahead parts f.index ++ rest) := by
  have hleads' : (FrameNode.page copy).Leads keeps slot g (t.parts keeps slot) :=
    ⟨t, hsees.draws, rfl⟩
  have hlength : (t.parts keeps slot).length = copy.page.arity :=
    FrameNode.Leads.length_eq (f := Frame.page copy f.childDepth d) hleads'
  refine ⟨work_entering hstack hentered hnear hw hsees.weight_lt, hsifts, _, _, _, _,
    stack_entering hstack copy, rfl, hleads', ?_,
    .page rfl hleads hw hsees.weight_lt howes, ?_⟩
  · rw [hlength]
    cases d <;> simp [Frame.page]
  · have hall : d.ahead (t.parts keeps slot) (Frame.page copy f.childDepth d).index =
        d.order (t.parts keeps slot).flatten := by
      cases d <;> simp [Direction.ahead, Direction.order, Frame.page, ← hlength]
    rw [hall, hnear, Direction.ahead_near hpart, List.append_assoc]

/-- What a walk comes to: the first item ahead, or the end. -/
def Arrives (d : Direction) (keeps : Nat × Tile × Tile → Bool)
    (slot : PageBody Unit → Nat → Option ι) (r : PageRef) (k : Cursor ι) (l : List ι) :
    Option ι → Cursor ι → Gallery → Prop
  | none, _, _ => l = []
  | some item, k', g => ∃ l', l = item :: l' ∧ k'.work d < k.work d ∧ k'.Faces d keeps slot g r l'

open CursorM (Progress) in
/-- What a step of a walk comes to. -/
def Steps (d : Direction) (keeps : Nat × Tile × Tile → Bool)
    (slot : PageBody Unit → Nat → Option ι) (r : PageRef) (k : Cursor ι) (l : List ι) :
    Progress (Option ι) → Cursor ι → Gallery → Prop
  | .goesOn, k', g => k'.work d < k.work d ∧ k'.Faces d keeps slot g r l
  | .ends item?, k', g => Arrives d keeps slot r k l item? k' g

/-- A step of a walk passes over an item at most. -/
theorem stepTowards_steers (hsound : g.Sound sure) (hfaces : k.Faces d keeps slot g r l) :
    Steers sure (stepTowards d) k g (Steps d keeps slot r k l) := by
  obtain ⟨hsifts, f, outer, parts, rest, hstack, hentered, hleads, hindex, howes, rfl⟩ := hfaces
  have hlength : parts.length = f.size := hleads.length_eq
  refine .get ?_
  simp only [hstack, List.head?_cons]
  cases hahead : f.ahead? d with
  | none =>
      -- the innermost page has nothing more, and what is left is owed by those around it
      have hend := Frame.end_of_ahead (hlength ▸ hindex) hahead
      rw [← hlength] at hend
      rw [Direction.ahead_end hend, List.nil_append]
      rcases leaving hsifts hstack howes with ⟨hnone, hrest⟩ | ⟨k', hsome, hless, hfaces'⟩
      · simp only [hnone]
        exact .pure hsound hrest
      · simp only [hsome]
        exact .set (.pure hsound ⟨hless, hfaces'⟩)
  | some index =>
      obtain ⟨hnear, hlt⟩ := Frame.near_of_ahead (hlength ▸ hindex) hahead
      cases hleaf : f.leaf? with
      | some page =>
          obtain ⟨hless, l', hl, hfaces'⟩ := passing hsifts hstack hentered hleads howes hnear hlt
            (hleads.slot_eq hleaf hlt) 1
          refine .set ?_
          rw [hsifts.slot, hl]
          cases hslot : slot page.body.shape index with
          | none => exact .pure hsound ⟨hless, by cases d <;> exact hfaces'⟩
          | some item => exact .pure hsound ⟨l', by cases d <;> rfl, hless, hfaces'⟩
      | none =>
          obtain ⟨child, t, hchild, hshows, hpart, hw⟩ := hleads.child hleaf hlt
          simp only [hchild, hsifts.visit]
          refine .ofStore (Yielding.pure (m := StoreM)
            (P := fun visit _ => visit = .ofHeader (fun h => keeps h.extent) child.header)
            hsound rfl) ?_
          rintro _ g' hle hsound' rfl
          rw [Visit.ofHeader, (hsound.tells hshows).extent]
          cases hkeeps : keeps t.extent with
          | false =>
              -- nothing is yielded for a subtree that is passed over
              rw [Picture.items, hkeeps] at hpart
              obtain ⟨hless, l', hl, hfaces'⟩ := passing hsifts hstack hentered
                (hleads.mono hle) (howes.mono hle) hnear hlt hpart child.span
              refine .set (.pure hsound' ⟨hless, ?_⟩)
              rw [hl]
              cases d <;> exact hfaces'
          | true =>
              rw [Picture.items, if_pos hkeeps] at hpart
              refine .ofStore (PageRef.pageCopy_yields hsound' (hle.shows child t hshows)) ?_
              intro copy g'' hle' hsound'' hsees
              have hle'' := Gallery.le_trans hle hle'
              exact .set (.pure hsound'' (entering hsifts hstack hentered (hleads.mono hle'')
                (howes.mono hle'') hnear hpart hw hsees))

/-- A walk ends with the first item ahead. -/
theorem walk_steers (hsound : g.Sound sure) (hfaces : k.Faces d keeps slot g r l) {steps : Nat}
    (hsteps : k.work d < steps) :
    Steers sure (walk (stepTowards d) steps) k g (Arrives d keeps slot r k l) := by
  -- by induction on the steps that are left; each one leaves less to do
  induction steps generalizing k g with
  | zero => exact absurd hsteps (Nat.not_lt_zero _)
  | succ steps ih =>
      refine (hfaces.stepTowards_steers hsound).bind ?_
      rintro (_ | item?) k' g' hle hsound' hpost
      · obtain ⟨hless, hfaces'⟩ := hpost
        refine (ih hsound' hfaces' (by omega)).mono ?_
        rintro (_ | item) k'' g'' hpost'
        · exact hpost'
        · obtain ⟨l', hl, hless', hfaces''⟩ := hpost'
          exact ⟨l', hl, by omega, hfaces''⟩
      · exact .pure hsound' hpost

/-- To advance is to pass over the first item ahead and to give it. -/
theorem advance_steers (hsound : g.Sound sure) (hfaces : k.Faces d keeps slot g r l)
    (hr : g.shows r t) : Steers sure (advance d) k g (Arrives d keeps slot r k l) := by
  have hbound : k.work d < g.store.walkBound r (k.position + 1) :=
    Nat.lt_of_le_of_lt hfaces.work_le (hsound.lt_walkBound hr _)
  have hexec : (advance d).exec k g.store =
      (walk (stepTowards d) (g.store.walkBound r (k.position + 1))).exec k g.store := by
    rw [advance, CursorM.exec_bind, exec_stepBound hfaces.root_eq]
  unfold Steers
  rw [hexec]
  exact hfaces.walk_steers hsound hbound

/-- All that is ahead is collected. -/
theorem collectWithin_cases (hsound : g.Sound sure) (hfaces : k.Faces d keeps slot g r l)
    (hr : g.shows r t) {bound : Nat} (hbound : k.work d < bound) :
    (∃ k' g', ((collectWithin (advance d) bound).run k).run g.store = (((l, none), k'), g'.store) ∧
        g ≤ g' ∧ g'.Sound sure) ∨
      ¬ sure ∧ ∃ items e k' s,
        ((collectWithin (advance d) bound).run k).run g.store = (((items, some e), k'), s) := by
  -- each item that is collected leaves less to do, so the bound suffices
  induction bound generalizing k g l with
  | zero => exact absurd hbound (Nat.not_lt_zero _)
  | succ bound ih =>
      rw [run_collectWithin]
      rcases hfaces.advance_steers hsound hr with
        ⟨item?, k', g', hexec, hle, hsound', hpost⟩ | ⟨hunsure, e, k', s, hexec⟩
      · cases item? with
        | none =>
            obtain rfl : l = [] := hpost
            exact Or.inl ⟨k', g', by rw [hexec], hle, hsound'⟩
        | some item =>
            obtain ⟨l', rfl, hless, hfaces'⟩ := hpost
            rcases ih hsound' hfaces' (hle.shows r t hr) (by omega) with
              ⟨k'', g'', hrun, hle', hsound''⟩ | ⟨hunsure, items, e, k'', s, hrun⟩
            · refine Or.inl ⟨k'', g'', ?_, Gallery.le_trans hle hle', hsound''⟩
              simp only [hexec, hrun]
            · refine Or.inr ⟨hunsure, item :: items, e, k'', s, ?_⟩
              simp only [hexec, hrun]
      · exact Or.inr ⟨hunsure, [], e, k', s, by rw [hexec]⟩

theorem items_yields (hsound : g.Sound sure) (hfaces : k.Faces d keeps slot g r l)
    (hr : g.shows r t) : Yields sure (k.items d) g fun items _ => items = l := by
  have hbound := Nat.lt_of_le_of_lt hfaces.work_le (hsound.lt_walkBound hr k.position)
  have hexec := exec_items hfaces.root_eq d g.store
  rcases hfaces.collectWithin_cases hsound hr hbound with
    ⟨k', g', hrun, hle, hsound'⟩ | ⟨hunsure, items, e, k', s, hrun⟩
  · exact Or.inl ⟨l, g', by rw [hexec, hrun], hle, hsound', rfl⟩
  · exact Or.inr ⟨hunsure, e, s, by rw [hexec, hrun]⟩

end Faces

variable {policy : Policy ι}

/-- A walk to the end yields what there is to yield. -/
theorem start_items_yields (hsifts : policy.Sifts (fun h => keeps h.extent) slot)
    (hsound : g.Sound sure) (hr : g.shows r t) :
    Yields sure ((start r policy).items .forward) g fun items _ => items = t.items keeps slot := by
  refine Faces.items_yields hsound ⟨hsifts, .root r, [], [t.items keeps slot], [], rfl, rfl,
    ⟨t, hr, rfl⟩, Nat.zero_le _, .root, ?_⟩ hr
  simp [Direction.ahead, Frame.root]

/-- A walk back from the end yields it in reverse. -/
theorem end_items_yields (hsifts : policy.Sifts (fun h => keeps h.extent) slot)
    (hsound : g.Sound sure) (hr : g.shows r t) :
    Yields sure ((start r policy).toEnd.items .backward) g
      fun items _ => items = (t.items keeps slot).reverse := by
  refine Faces.items_yields hsound ⟨hsifts, { Frame.root r with index := 1 }, [],
    [t.items keeps slot], [], rfl, rfl, ⟨t, hr, rfl⟩, Nat.le_refl _, .root, ?_⟩ hr
  simp [Direction.ahead]

end Cursor
end PageTree
