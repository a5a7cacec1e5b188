import PageTree.Proofs.Cursor.Calls

/-!
# Cursors side by side

Two cursors resemble each other if they stand at the same place of trees that have the same sites,
whatever references and stores the trees have.  Whatever a policy looks at is the same for both,
as long as it follows from the sites (`Policy.Decides`); so a move of one gives what it gives of
the other, and they go on to resemble each other (`Seat.play_together`).
-/

namespace PageTree

open StoreM

variable {ι α β : Type} {base c c' : Chart} {s s' : Store}

/-! ## Frames that resemble each other -/

/-- Both are about a root at the same site, or about the same page. -/
inductive FrameNode.Resembles : FrameNode → FrameNode → Prop where
  | root {r r' : PageRef} (site : r'.site = r.site) : Resembles (.root r) (.root r')
  | page {copy copy' : PageCopy}
      (page : copy'.page.map PageRef.site = copy.page.map PageRef.site) :
      Resembles (.page copy) (.page copy')

/-- Both stand in the same gap of what they are about. -/
structure Frame.Resembles (f f' : Frame) : Prop where
  node : f.node.Resembles f'.node
  index : f'.index = f.index
  entered : f'.entered = f.entered
  childDepth : f'.childDepth = f.childDepth

theorem PageRef.header_eq_of_site {r r' : PageRef} (hsite : r'.site = r.site) :
    r'.header = r.header := by
  rw [← header_site r', hsite, header_site]

theorem FrameNode.Resembles.weights_eq {node node' : FrameNode} (hlike : node.Resembles node') :
    node'.weights = node.weights := by
  cases hlike with
  | @root r r' hsite =>
      have htree : r'.treeSize = r.treeSize :=
        congrArg Header.area (PageRef.header_eq_of_site hsite)
      simp only [weights, htree]
  | @page copy copy' hpage =>
      have hnode := congrArg Page.isNode hpage
      have harity := congrArg Page.arity hpage
      have hareas := congrArg (fun p => p.children.map fun n => n.header.area + 1) hpage
      simp only [Page.map_isNode, Page.map_arity] at hnode harity
      simp only [Page.map_children, List.map_map, Function.comp_def, PageRef.header_site] at hareas
      simp only [weights, hnode, harity]
      split
      · exact hareas
      · rfl

namespace Frame.Resembles

variable {f f' : Frame} {d : Direction}

theorem size_eq (hlike : f.Resembles f') : f'.size = f.size := by
  obtain ⟨node, gap, entered, childDepth⟩ := f
  obtain ⟨node', gap', entered', childDepth'⟩ := f'
  cases hlike.node with
  | @root r r' => rfl
  | @page copy copy' hpage =>
      have harity := congrArg Page.arity hpage
      rwa [Page.map_arity, Page.map_arity] at harity

theorem ahead_eq (hlike : f.Resembles f') (d : Direction) : f'.ahead? d = f.ahead? d := by
  cases d <;> simp only [Frame.ahead?, hlike.size_eq, hlike.index]

theorem past (hlike : f.Resembles f') (d : Direction) : (f.past d).Resembles (f'.past d) :=
  ⟨hlike.node, by simp only [Frame.past, hlike.index], hlike.entered, hlike.childDepth⟩

theorem left (hlike : f.Resembles f') (d : Direction) : (f.left d).Resembles (f'.left d) := by
  unfold Frame.left
  rw [hlike.entered]
  cases f.entered with
  | none => exact hlike
  | some child => exact ⟨hlike.node, rfl, rfl, hlike.childDepth⟩

theorem page_eq (hlike : f.Resembles f') :
    f'.page?.map (Page.map PageRef.site) = f.page?.map (Page.map PageRef.site) := by
  obtain ⟨node, gap, entered, childDepth⟩ := f
  obtain ⟨node', gap', entered', childDepth'⟩ := f'
  cases hlike.node with
  | root => rfl
  | page hpage => exact congrArg some hpage

/-- Both are leaves, or none is. -/
theorem leaf_cases (hlike : f.Resembles f') :
    (f.leaf? = none ∧ f'.leaf? = none) ∨ ∃ page page', f.leaf? = some page ∧
      f'.leaf? = some page' ∧ page'.map PageRef.site = page.map PageRef.site := by
  obtain ⟨node, gap, entered, childDepth⟩ := f
  obtain ⟨node', gap', entered', childDepth'⟩ := f'
  cases hlike.node with
  | root => exact Or.inl ⟨rfl, rfl⟩
  | @page copy copy' hpage =>
      have hnode := congrArg Page.isNode hpage
      simp only [Page.map_isNode] at hnode
      cases hisNode : copy.page.isNode with
      | true =>
          rw [hisNode] at hnode
          exact Or.inl ⟨by simp [Frame.leaf?, Frame.page?, hisNode],
            by simp [Frame.leaf?, Frame.page?, hnode]⟩
      | false =>
          rw [hisNode] at hnode
          exact Or.inr ⟨copy.page, copy'.page, by simp [Frame.leaf?, Frame.page?, hisNode],
            by simp [Frame.leaf?, Frame.page?, hnode], hpage⟩

theorem child_eq (hlike : f.Resembles f') (index : Nat) :
    (f'.child? index).map PageRef.site = (f.child? index).map PageRef.site := by
  obtain ⟨node, gap, entered, childDepth⟩ := f
  obtain ⟨node', gap', entered', childDepth'⟩ := f'
  cases hlike.node with
  | root hsite => exact congrArg some hsite
  | page hpage =>
      have hchildren := congrArg (fun p => p.children[index]?) hpage
      simpa [Frame.child?, Page.child?] using hchildren

theorem work_eq (hlike : f.Resembles f') (d : Direction) : f'.work d = f.work d := by
  cases d <;> simp only [Frame.work, hlike.node.weights_eq, hlike.entered, hlike.index]

end Frame.Resembles

/-! ## Cursors in use -/

namespace Cursor

/-- What a frame leads to is in use, and lies within the trees of a base chart. -/
def Leads (base c : Chart) : FrameNode → Prop
  | .root r => c.refs r ∧ base.Sound r.site
  | .page copy => ∀ m ∈ copy.page.children, c.refs m ∧ base.Sound m.site

theorem Leads.mono {node : FrameNode} (hle : c ≤ c') (hleads : Leads base c node) :
    Leads base c' node := by
  cases node with
  | root r => exact ⟨hle.refs r hleads.1, hleads.2⟩
  | page copy => exact fun m hm => ⟨hle.refs m (hleads m hm).1, (hleads m hm).2⟩

/-- The child that is next. -/
theorem Leads.child {f : Frame} {index : Nat} (hleads : Leads base c f.node)
    (hnode : f.leaf? = none) (hlt : index < f.size) :
    ∃ child, f.child? index = some child ∧ c.refs child ∧ base.Sound child.site ∧
      f.node.weights[index]? = some (child.treeSize + 1) := by
  obtain ⟨child, hchild, hw⟩ := Frame.exists_child hnode hlt
  refine ⟨child, hchild, ?_⟩
  obtain ⟨node, gap, entered, childDepth⟩ := f
  cases node with
  | root r =>
      cases hchild
      exact ⟨hleads.1, hleads.2, hw⟩
  | page copy =>
      obtain ⟨hr, hsound⟩ := hleads child (List.mem_of_getElem? hchild)
      exact ⟨hr, hsound, hw⟩

/-- The innermost frame stands in a gap, and the frames hang together. -/
def Hung (r : PageRef) (stack : List Frame) : Prop :=
  ∃ f outer, stack = f :: outer ∧ f.entered = none ∧ f.index ≤ f.size ∧ Hangs r f.node outer

namespace Hung

variable {r : PageRef} {f g : Frame} {outer : List Frame} {d : Direction} {index : Nat}

/-- The innermost frame may stand in another gap. -/
theorem setIndex (hhung : Hung r (f :: outer)) (hle : index ≤ f.size) :
    Hung r ({ f with index } :: outer) := by
  obtain ⟨f, outer, ⟨⟩, hentered, -, hhangs⟩ := hhung
  exact ⟨_, _, rfl, hentered, hle, hhangs⟩

theorem entered (hhung : Hung r (f :: outer)) : f.entered = none := by
  obtain ⟨f, outer, ⟨⟩, hentered, -⟩ := hhung
  exact hentered

/-- The frame around the innermost one has entered a child. -/
theorem exists_entered (hhung : Hung r (f :: g :: outer)) : ∃ index, g.entered = some index := by
  obtain ⟨f, outer, ⟨⟩, -, -, hhangs⟩ := hhung
  generalize f.node = node at hhangs
  cases hhangs with
  | page entered => exact ⟨_, entered⟩

theorem leaving (hhung : Hung r (f :: g :: outer)) (d : Direction) :
    Hung r (g.left d :: outer) := by
  obtain ⟨f, outer, ⟨⟩, -, -, hhangs⟩ := hhung
  generalize f.node = node at hhangs
  cases hhangs with
  | @page copy _ _ index w entered weighs lighter rest =>
      refine ⟨_, _, rfl, ?_⟩
      rw [Frame.left_eq entered]
      refine ⟨rfl, ?_, rest⟩
      have hlt : index < g.size := by
        obtain ⟨hlt, -⟩ := List.getElem?_eq_some_iff.1 weighs
        rwa [Frame.length_weights] at hlt
      cases d with
      | forward => exact hlt
      | backward => exact Nat.le_of_lt hlt

theorem entering {copy : PageCopy} {w : Nat} (hhung : Hung r (f :: outer))
    (hw : f.node.weights[index]? = some w) (hlighter : (FrameNode.page copy).weight < w) :
    Hung r (.page copy f.childDepth d :: { f with entered := some index } :: outer) := by
  obtain ⟨f, outer, ⟨⟩, -, -, hhangs⟩ := hhung
  refine ⟨_, _, rfl, rfl, ?_, .page rfl hw hlighter hhangs⟩
  cases d <;> simp [Frame.page, Frame.size]

end Hung

end Cursor

/-- A cursor in use, over a store and a chart that the store agrees with. -/
structure Seat (ι : Type) where
  cursor : Cursor ι
  store : Store
  chart : Chart

namespace Seat

open Cursor

/-- All that the cursor leads to lies within the trees of a base chart and can be had. -/
structure Sound (base : Chart) (x : Seat ι) : Prop where
  le : base ≤ x.chart
  represents : Represents x.store x.chart
  serves : Serves x.store x.chart
  hung : ∃ r, Hung r x.cursor.stack
  leads : ∀ f ∈ x.cursor.stack, Leads base x.chart f.node

namespace Sound

variable {x : Seat ι} {f g : Frame} {outer : List Frame} {d : Direction} {index n : Nat}

/-- The store may change as operations on trees change it. -/
theorem grows (hsound : x.Sound base) (hgrows : Grows x.store x.chart s c) :
    Sound base { x with store := s, chart := c } where
  le := Chart.le_trans hsound.le hgrows.le
  represents := hgrows.represents
  serves := hgrows.serves hsound.serves
  hung := hsound.hung
  leads f hf := (hsound.leads f hf).mono hgrows.le

/-- The cursor may go elsewhere among frames that are about the same. -/
theorem moved (hsound : x.Sound base) {k : Cursor ι} (hhung : ∃ r, Hung r k.stack)
    (hnodes : ∀ f ∈ k.stack, ∃ g ∈ x.cursor.stack, f.node = g.node) :
    Sound base { x with cursor := k } where
  le := hsound.le
  represents := hsound.represents
  serves := hsound.serves
  hung := hhung
  leads f hf := by
    obtain ⟨g, hg, hnode⟩ := hnodes f hf
    rw [hnode]
    exact hsound.leads g hg

theorem entered (hsound : x.Sound base) (hstack : x.cursor.stack = f :: outer) :
    f.entered = none := by
  obtain ⟨r, hhung⟩ := hsound.hung
  rw [hstack] at hhung
  exact hhung.entered

theorem index_le (hsound : x.Sound base) (hstack : x.cursor.stack = f :: outer) :
    f.index ≤ f.size := by
  obtain ⟨r, hhung⟩ := hsound.hung
  rw [hstack] at hhung
  obtain ⟨f, outer, ⟨⟩, -, hle, -⟩ := hhung
  exact hle

/-- The innermost frame may stand in another gap. -/
theorem setIndex (hsound : x.Sound base) (hstack : x.cursor.stack = f :: outer)
    (hle : index ≤ f.size) (position : Nat) :
    Sound base { x with cursor := { x.cursor.setTop { f with index } with position } } := by
  have hstack' : (x.cursor.setTop { f with index }).stack = { f with index } :: outer := by
    simp [setTop, hstack]
  obtain ⟨r, hhung⟩ := hsound.hung
  rw [hstack] at hhung
  apply hsound.moved
  · exact ⟨r, by rw [hstack']; exact hhung.setIndex hle⟩
  · intro g hg
    rw [hstack', List.mem_cons] at hg
    rcases hg with rfl | hg
    · exact ⟨f, by rw [hstack]; exact List.mem_cons_self, rfl⟩
    · exact ⟨g, by rw [hstack]; exact List.mem_cons_of_mem f hg, rfl⟩

/-- The cursor may pass over an item. -/
theorem passing (hsound : x.Sound base) (hstack : x.cursor.stack = f :: outer)
    (hnear : f.index = d.near index) (hlt : index < f.size) (n : Nat) :
    Sound base { x with cursor := x.cursor.passing f d n } := by
  have hle : d.far index ≤ f.size := by
    cases d with
    | forward => exact hlt
    | backward => exact Nat.le_of_lt hlt
  rw [Cursor.passing, Frame.past_eq hnear]
  exact hsound.setIndex hstack hle _

/-- The cursor may go back to the frame outside. -/
theorem leaving (hsound : x.Sound base) (hstack : x.cursor.stack = f :: g :: outer)
    (d : Direction) :
    Sound base { x with cursor := { x.cursor with stack := g.left d :: outer } } := by
  obtain ⟨r, hhung⟩ := hsound.hung
  rw [hstack] at hhung
  apply hsound.moved
  · exact ⟨r, hhung.leaving d⟩
  · have hnode : (g.left d).node = g.node := by
      unfold Frame.left
      split <;> rfl
    intro h hh
    rw [hstack]
    rcases List.mem_cons.1 hh with rfl | hh
    · exact ⟨g, by simp, hnode⟩
    · exact ⟨h, by simp [hh], rfl⟩

/-- The cursor may enter the page of a child. -/
theorem entering {copy : PageCopy} {child : PageRef} (hsound : x.Sound base)
    (hstack : x.cursor.stack = f :: outer) (hr : x.chart.refs child)
    (hchild : base.Sound child.site) (hw : f.node.weights[index]? = some (child.treeSize + 1))
    (hpage : x.chart.page child.site = some (copy.page.map PageRef.site))
    (hchildren : ∀ m ∈ copy.page.children, x.chart.refs m) (d : Direction) :
    Sound base { x with cursor := x.cursor.entering f d index copy } := by
  have hstack' : (x.cursor.entering f d index copy).stack =
      .page copy f.childDepth d :: { f with entered := some index } :: outer :=
    stack_entering hstack copy
  obtain ⟨r, hhung⟩ := hsound.hung
  rw [hstack] at hhung
  have hlighter := FrameNode.weight_page_lt hsound.represents hr hpage
  refine ⟨hsound.le, hsound.represents, hsound.serves, ⟨r, ?_⟩, ?_⟩
  · rw [hstack']
    exact hhung.entering hw hlighter
  · intro g hg
    rw [hstack', List.mem_cons, List.mem_cons] at hg
    rcases hg with rfl | rfl | hg
    · -- what lies beneath the page lies beneath the child in the base chart
      obtain ⟨p, hp⟩ := hchild.page
      have hsame := (Chart.page_mono hsound.le hp).symm.trans hpage
      cases hsame
      intro m hm
      refine ⟨hchildren m hm, hchild.child hp ?_⟩
      rw [Page.map_children]
      exact List.mem_map_of_mem hm
    · exact hsound.leads f (by rw [hstack]; exact List.mem_cons_self)
    · exact hsound.leads g (by rw [hstack]; exact List.mem_cons_of_mem f hg)

/-- The root of the cursor's tree. -/
theorem exists_root (hsound : x.Sound base) :
    ∃ r, x.cursor.root? = some r ∧ x.chart.refs r ∧ base.Sound r.site ∧
      ∀ d, x.cursor.work d ≤ r.treeSize + 2 := by
  obtain ⟨r, f, outer, hstack, hentered, -, hhangs⟩ := hsound.hung
  have hroot := hhangs.root_eq rfl
  obtain ⟨g, hg, hnode⟩ := Option.map_eq_some_iff.1 hroot
  have hmem : g ∈ x.cursor.stack := by
    rw [hstack]
    exact List.mem_of_getLast? hg
  have hleads := hsound.leads g hmem
  rw [hnode] at hleads
  refine ⟨r, by rw [root?, hstack, hroot], hleads.1, hleads.2, fun d => ?_⟩
  rw [work, hstack, List.map_cons, List.sum_cons]
  exact hhangs.work_le d (Frame.work_le_weight hentered d)

/-- The cursor may go to the end. -/
theorem toEnd (hsound : x.Sound base) : Sound base { x with cursor := x.cursor.toEnd } := by
  obtain ⟨r, hroot, hr, hsite, -⟩ := hsound.exists_root
  have hstack : x.cursor.toEnd.stack = [{ Frame.root r with index := 1 }] := by
    rw [Cursor.toEnd, hroot]
  refine ⟨hsound.le, hsound.represents, hsound.serves, ⟨r, _, _, hstack, rfl, Nat.le_refl 1, .root⟩,
    ?_⟩
  intro f hf
  rw [hstack, List.mem_singleton] at hf
  rw [hf]
  exact ⟨hr, hsite⟩

end Sound

/-! ## Seats that resemble each other -/

/-- The cursors stand at the same place, and their policy is the same. -/
structure Resembles (base : Chart) (policy : Policy ι) (x x' : Seat ι) : Prop where
  sound : x.Sound base
  sound' : x'.Sound base
  policy_eq : x.cursor.policy = policy
  policy_eq' : x'.cursor.policy = policy
  position : x'.cursor.position = x.cursor.position
  stack : List.Forall₂ Frame.Resembles x.cursor.stack x'.cursor.stack

namespace Resembles

variable {policy : Policy ι} {x x' : Seat ι}

theorem work_eq (hlike : Resembles base policy x x') (d : Direction) :
    x'.cursor.work d = x.cursor.work d := by
  have hall := hlike.stack
  unfold work
  generalize x.cursor.stack = fs at hall ⊢
  generalize x'.cursor.stack = fs' at hall ⊢
  induction hall with
  | nil => rfl
  | cons hlike _ ih => rw [List.map_cons, List.map_cons, List.sum_cons, List.sum_cons,
      hlike.work_eq, ih]

/-- Both have an innermost frame. -/
theorem exists_top (hlike : Resembles base policy x x') :
    ∃ f outer f' outer', x.cursor.stack = f :: outer ∧ x'.cursor.stack = f' :: outer' ∧
      f.Resembles f' ∧ List.Forall₂ Frame.Resembles outer outer' := by
  obtain ⟨r, f, outer, hstack, -⟩ := hlike.sound.hung
  have hall := hlike.stack
  rw [hstack] at hall
  obtain ⟨f', outer', hframe, houter, hstack'⟩ := List.forall₂_cons_left_iff.1 hall
  exact ⟨f, outer, f', outer', hstack, hstack', hframe, houter⟩

/-- Both are over trees with roots at the same site. -/
theorem exists_roots (hlike : Resembles base policy x x') :
    ∃ r r', x.cursor.root? = some r ∧ x'.cursor.root? = some r' ∧ r'.site = r.site := by
  obtain ⟨r, hroot, -⟩ := hlike.sound.exists_root
  obtain ⟨r', hroot', -⟩ := hlike.sound'.exists_root
  refine ⟨r, r', hroot, hroot', ?_⟩
  -- the frames of the roots are the outermost ones
  have hlast : ∀ {x : Seat ι} {r : PageRef}, x.cursor.root? = some r →
      ∃ f, x.cursor.stack.reverse.head? = some f ∧ f.node = .root r := by
    intro x r hroot
    unfold root? at hroot
    rw [List.head?_reverse]
    cases hlast : x.cursor.stack.getLast? with
    | none => simp [hlast] at hroot
    | some f =>
        refine ⟨f, rfl, ?_⟩
        rw [hlast, Option.map_some] at hroot
        split at hroot
        · next hnode =>
            cases hroot
            exact Option.some.inj hnode
        · cases hroot
  obtain ⟨f, hf, hnode⟩ := hlast hroot
  obtain ⟨f', hf', hnode'⟩ := hlast hroot'
  have hall := List.forall₂_reverse_iff.2 hlike.stack
  generalize x.cursor.stack.reverse = fs at hall hf
  generalize x'.cursor.stack.reverse = fs' at hall hf'
  cases hall with
  | nil => cases hf
  | cons hframe _ =>
      cases hf
      cases hf'
      have hlike := hframe.node
      rw [hnode, hnode'] at hlike
      cases hlike with
      | root hsite => exact hsite

/-- Both cursors may go to the end. -/
theorem toEnd (hlike : Resembles base policy x x') :
    Resembles base policy { x with cursor := x.cursor.toEnd }
      { x' with cursor := x'.cursor.toEnd } := by
  obtain ⟨r, r', hroot, hroot', hsite⟩ := hlike.exists_roots
  have hspan : r'.span = r.span := congrArg Header.span (PageRef.header_eq_of_site hsite)
  refine ⟨hlike.sound.toEnd, hlike.sound'.toEnd, ?_, ?_, ?_, ?_⟩
  all_goals simp only [Cursor.toEnd, hroot, hroot']
  · exact hlike.policy_eq
  · exact hlike.policy_eq'
  · exact hspan
  · exact .cons ⟨.root hsite, rfl, rfl, rfl⟩ .nil

/-- Both stores may change as operations on trees change them. -/
theorem grows (hlike : Resembles base policy x x') {s s' : Store} {c c' : Chart}
    (hgrows : Grows x.store x.chart s c) (hgrows' : Grows x'.store x'.chart s' c') :
    Resembles base policy { x with store := s, chart := c }
      { x' with store := s', chart := c' } :=
  ⟨hlike.sound.grows hgrows, hlike.sound'.grows hgrows', hlike.policy_eq, hlike.policy_eq',
    hlike.position, hlike.stack⟩

end Resembles

/-! ## Moves of both -/

/-- Two moves succeed with the same result, and the cursors go on to resemble each other. -/
def Together (base : Chart) (policy : Policy ι) (act act' : CursorM ι α) (x x' : Seat ι)
    (post : α → Cursor ι → Prop) : Prop :=
  ∃ a y y', act.exec x.cursor x.store = ((.ok a, y.cursor), y.store) ∧
    Grows x.store x.chart y.store y.chart ∧
    act'.exec x'.cursor x'.store = ((.ok a, y'.cursor), y'.store) ∧
    Grows x'.store x'.chart y'.store y'.chart ∧ Resembles base policy y y' ∧ post a y.cursor

namespace Together

variable {policy : Policy ι} {x x' : Seat ι} {P Q : α → Cursor ι → Prop}
  {R : β → Cursor ι → Prop}

protected theorem pure (hlike : Resembles base policy x x') {a : α} (hpost : P a x.cursor) :
    Together base policy (pure a) (pure a) x x' P :=
  ⟨a, x, x', rfl, .refl hlike.sound.represents, rfl, .refl hlike.sound'.represents, hlike, hpost⟩

/-- Moves may be traded for what is left of them. -/
theorem of_rest {act act' : CursorM ι α} {rest rest' : CursorM ι α} {y y' : Seat ι}
    (hexec : act.exec x.cursor x.store = rest.exec y.cursor y.store)
    (hgrows : Grows x.store x.chart y.store y.chart)
    (hexec' : act'.exec x'.cursor x'.store = rest'.exec y'.cursor y'.store)
    (hgrows' : Grows x'.store x'.chart y'.store y'.chart)
    (hrest : Together base policy rest rest' y y' P) : Together base policy act act' x x' P := by
  obtain ⟨a, z, z', hok, hgrew, hok', hgrew', hlike, hpost⟩ := hrest
  exact ⟨a, z, z', hexec.trans hok, hgrows.trans hgrew, hexec'.trans hok', hgrows'.trans hgrew',
    hlike, hpost⟩

protected theorem bind {m m' : CursorM ι α} {f f' : α → CursorM ι β}
    (hm : Together base policy m m' x x' P)
    (hf : ∀ a y y', Resembles base policy y y' → P a y.cursor →
      Together base policy (f a) (f' a) y y' R) :
    Together base policy (m >>= f) (m' >>= f') x x' R := by
  obtain ⟨a, y, y', hexec, hgrows, hexec', hgrows', hlike, hpost⟩ := hm
  exact of_rest (by rw [CursorM.exec_bind, hexec]) hgrows (by rw [CursorM.exec_bind, hexec'])
    hgrows' (hf a y y' hlike hpost)

/-- The cursors may be looked at. -/
protected theorem get {f f' : Cursor ι → CursorM ι β}
    (hf : Together base policy (f x.cursor) (f' x'.cursor) x x' R) :
    Together base policy (get >>= f) (get >>= f') x x' R :=
  hf

/-- The cursors may be replaced. -/
protected theorem set {k k' : Cursor ι} {f f' : Unit → CursorM ι β}
    (hf : Together base policy (f ()) (f' ()) { x with cursor := k } { x' with cursor := k' } R) :
    Together base policy (set k >>= f) (set k' >>= f') x x' R :=
  hf

/-- The cursors stay where they are while the stores are at work. -/
protected theorem ofStore {m m' : StoreM α} {f f' : α → CursorM ι β}
    {S S' : α → Store → Chart → Prop} (hlike : Resembles base policy x x')
    (hm : Runs m x.store x.chart S) (hm' : Runs m' x'.store x'.chart S')
    (hf : ∀ a s c a' s' c', Grows x.store x.chart s c → Grows x'.store x'.chart s' c' → S a s c →
      S' a' s' c' → Together base policy (f a) (f' a') { x with store := s, chart := c }
        { x' with store := s', chart := c' } R) :
    Together base policy (CursorM.ofStore m >>= f) (CursorM.ofStore m' >>= f') x x' R := by
  obtain ⟨a, s, c, hexec, hgrows, hS⟩ := hm.succeeds hlike.sound.serves
  obtain ⟨a', s', c', hexec', hgrows', hS'⟩ := hm'.succeeds hlike.sound'.serves
  have hrest := hf a s c a' s' c' hgrows hgrows' hS hS'
  refine of_rest ?_ hgrows ?_ hgrows' hrest
  · rw [CursorM.exec_bind, CursorM.exec_ofStore, hexec]
  · rw [CursorM.exec_bind, CursorM.exec_ofStore, hexec']

/-- Whether moves give an item. -/
theorem isSome {act act' : CursorM ι (Option α)} {P : Option α → Cursor ι → Prop}
    (htogether : Together base policy act act' x x' P) :
    Together base policy (do return (← act).isSome) (do return (← act').isSome) x x'
      fun _ _ => True :=
  htogether.bind fun _ _ _ hlike _ => .pure hlike trivial

/-- A look at where moves lead to; the cursors stay where they are. -/
theorem glance {act act' : CursorM ι α} (hlike : Resembles base policy x x')
    (htogether : Together base policy act act' x x' P) :
    Together base policy (CursorM.glance act) (CursorM.glance act') x x' fun _ _ => True := by
  obtain ⟨a, y, y', hexec, hgrows, hexec', hgrows', -, -⟩ := htogether
  have hglance : ∀ {act : CursorM ι α} {k k' : Cursor ι} {s s' : Store},
      act.exec k s = ((.ok a, k'), s') → (CursorM.glance act).exec k s = ((.ok a, k), s') := by
    intro act k k' s s' hexec
    change (((act.exec k s).1.1, k), (act.exec k s).2) = _
    rw [hexec]
  exact ⟨a, { x with store := y.store, chart := y.chart },
    { x' with store := y'.store, chart := y'.chart }, hglance hexec, hgrows, hglance hexec',
    hgrows', hlike.grows hgrows hgrows', trivial⟩

end Together
end Seat

/-! ## Policies that go by the sites -/

/-- What the policy decides about a child follows from the sites, within a base chart. -/
structure Policy.Decides (base : Chart) (policy : Policy ι) : Prop where
  visit : ∀ {n : Site}, base.Sound n → ∀ (above : Option (Page Site)) (index depth : Nat),
    ∃ decision, ∀ {s c} {parent : Option LivePage} {child : PageRef}, base ≤ c →
      Represents s c → c.refs child → child.site = n →
        parent.map (Page.map PageRef.site) = above →
          Runs (policy.visit parent index child depth) s c fun decision' _ _ => decision' = decision
  slot : ∀ {page page' : LivePage} (index : Nat),
    page'.map PageRef.site = page.map PageRef.site → policy.slot page' index = policy.slot page index

namespace Seat

open Cursor
open CursorM (Progress)

variable {policy : Policy ι} {x x' : Seat ι} {f f' : Frame} {outer outer' : List Frame}
  {d : Direction} {index : Nat}

/-- Both cursors may pass over an item. -/
theorem Resembles.passing (hlike : Resembles base policy x x')
    (hstack : x.cursor.stack = f :: outer) (hstack' : x'.cursor.stack = f' :: outer')
    (hframe : f.Resembles f') (houter : List.Forall₂ Frame.Resembles outer outer')
    (hnear : f.index = d.near index) (hlt : index < f.size) (n : Nat) :
    Resembles base policy { x with cursor := x.cursor.passing f d n }
      { x' with cursor := x'.cursor.passing f' d n } := by
  refine ⟨hlike.sound.passing hstack hnear hlt n,
    hlike.sound'.passing hstack' (hframe.index.trans hnear) (by rwa [hframe.size_eq]) n,
    hlike.policy_eq, hlike.policy_eq', ?_, ?_⟩
  · simp only [Cursor.passing, hlike.position]
  · simp only [Cursor.passing, setTop, hstack, hstack', List.drop_one, List.tail_cons]
    exact .cons (hframe.past d) houter

/-- What a step of a walk comes to: if it goes on, there is less to do. -/
def Lessens (d : Direction) (k : Cursor ι) : Progress α → Cursor ι → Prop
  | .goesOn, k' => k'.work d < k.work d
  | .ends _, _ => True

/-- Both cursors have the same child next. -/
theorem Resembles.exists_children (hlike : Resembles base policy x x')
    (hstack : x.cursor.stack = f :: outer) (hstack' : x'.cursor.stack = f' :: outer')
    (hframe : f.Resembles f') (hleaf : f.leaf? = none) (hleaf' : f'.leaf? = none)
    (hlt : index < f.size) :
    ∃ child child', f.child? index = some child ∧ f'.child? index = some child' ∧
      x.chart.refs child ∧ x'.chart.refs child' ∧ base.Sound child.site ∧
      child'.site = child.site ∧ f.node.weights[index]? = some (child.treeSize + 1) ∧
      f'.node.weights[index]? = some (child'.treeSize + 1) := by
  have hleads := hlike.sound.leads f (by rw [hstack]; exact List.mem_cons_self)
  have hleads' := hlike.sound'.leads f' (by rw [hstack']; exact List.mem_cons_self)
  obtain ⟨child, hchild, hr, hsound, hw⟩ := hleads.child hleaf hlt
  obtain ⟨child', hchild', hr', -, hw'⟩ := hleads'.child hleaf' (by rwa [hframe.size_eq])
  have hsite := hframe.child_eq index
  rw [hchild, hchild'] at hsite
  exact ⟨child, child', hchild, hchild', hr, hr', hsound, Option.some.inj hsite, hw, hw'⟩

/-- Both cursors enter the page of a child. -/
theorem Resembles.descend {child child' : PageRef} (hlike : Resembles base policy x x')
    (hstack : x.cursor.stack = f :: outer) (hstack' : x'.cursor.stack = f' :: outer')
    (hframe : f.Resembles f') (houter : List.Forall₂ Frame.Resembles outer outer')
    (hnear : f.index = d.near index) (hr : x.chart.refs child) (hr' : x'.chart.refs child')
    (hsound : base.Sound child.site) (hsite : child'.site = child.site)
    (hw : f.node.weights[index]? = some (child.treeSize + 1))
    (hw' : f'.node.weights[index]? = some (child'.treeSize + 1)) :
    Together base policy
      (CursorM.ofStore child.pageCopy >>= fun copy => do
        set (x.cursor.entering f d index copy)
        return (.goesOn : Progress α))
      (CursorM.ofStore child'.pageCopy >>= fun copy => do
        set (x'.cursor.entering f' d index copy)
        return .goesOn) x x' (Lessens d x.cursor) := by
  refine .ofStore hlike (PageRef.pageCopy_runs hlike.sound.represents hr)
    (PageRef.pageCopy_runs hlike.sound'.represents hr') ?_
  rintro copy s c copy' s' c' hgrows hgrows' ⟨hpage, hchildren⟩ ⟨hpage', hchildren'⟩
  -- both pages are the page of the base chart
  have hsame : copy'.page.map PageRef.site = copy.page.map PageRef.site := by
    obtain ⟨p, hp⟩ := hsound.page
    rw [hsite] at hpage'
    have hle := Chart.le_trans hlike.sound.le hgrows.le
    have hle' := Chart.le_trans hlike.sound'.le hgrows'.le
    rw [Chart.page_mono hle hp] at hpage
    rw [Chart.page_mono hle' hp] at hpage'
    exact (Option.some.inj hpage').symm.trans (Option.some.inj hpage)
  have hlike' := hlike.grows hgrows hgrows'
  have hentering := hlike'.sound.entering hstack (hgrows.le.refs _ hr) hsound hw hpage hchildren d
  have hentering' := hlike'.sound'.entering hstack' (hgrows'.le.refs _ hr') (hsite ▸ hsound) hw'
    hpage' hchildren' d
  have hentered := hlike.sound.entered hstack
  refine .set (.pure ⟨hentering, hentering', hlike.policy_eq, hlike.policy_eq', hlike.position, ?_⟩
    (work_entering hstack hentered hnear hw
      (FrameNode.weight_page_lt hgrows.represents (hgrows.le.refs _ hr) hpage)))
  show List.Forall₂ _ (x.cursor.entering f d index copy).stack
    (x'.cursor.entering f' d index copy').stack
  rw [stack_entering hstack, stack_entering hstack']
  refine .cons ⟨.page hsame, ?_, rfl, by rw [Frame.page, Frame.page, hframe.childDepth]⟩
    (.cons ⟨hframe.node, hframe.index, rfl, hframe.childDepth⟩ houter)
  have harity := congrArg Page.arity hsame
  rw [Page.map_arity, Page.map_arity] at harity
  rw [Frame.page, Frame.page, harity]

/-- Both cursors go back to the frame outside, or there is none. -/
theorem Resembles.leave (hlike : Resembles base policy x x') (hstack : x.cursor.stack = f :: outer)
    (hstack' : x'.cursor.stack = f' :: outer') (houter : List.Forall₂ Frame.Resembles outer outer')
    (d : Direction) (a : α) :
    Together base policy
      (match x.cursor.leaving? d with
        | none => pure (.ends a)
        | some k => do
          set k
          return .goesOn)
      (match x'.cursor.leaving? d with
        | none => pure (.ends a)
        | some k => do
          set k
          return .goesOn) x x' (Lessens d x.cursor) := by
  cases houter with
  | nil =>
      simp only [leaving?, hstack, hstack']
      exact .pure hlike trivial
  | @cons g g' outer outer' hframe' houter =>
      have hless : ({ x.cursor with stack := g.left d :: outer } : Cursor ι).work d <
          x.cursor.work d := by
        obtain ⟨r, hhung⟩ := hlike.sound.hung
        rw [hstack] at hhung
        obtain ⟨index, hentered⟩ := hhung.exists_entered
        exact work_leaving hstack hentered
      simp only [leaving?, hstack, hstack']
      exact .set (.pure ⟨hlike.sound.leaving hstack d, hlike.sound'.leaving hstack' d,
        hlike.policy_eq, hlike.policy_eq', hlike.position, .cons (hframe'.left d) houter⟩ hless)

/-- A step towards the next item. -/
theorem stepTowards_together (hlike : Resembles base policy x x') (hdecides : policy.Decides base)
    (d : Direction) : Together base policy (CursorM.stepTowards d) (CursorM.stepTowards d) x x'
      (Lessens d x.cursor) := by
  -- The innermost frames resemble each other, so both steps come to the same case.
  obtain ⟨f, outer, f', outer', hstack, hstack', hframe, houter⟩ := hlike.exists_top
  refine .get ?_
  simp only [hstack, hstack', List.head?_cons, hframe.ahead_eq]
  cases hahead : f.ahead? d with
  | none =>
      exact hlike.leave hstack hstack' houter d none
  | some index =>
      obtain ⟨hnear, hlt⟩ := Frame.near_of_ahead (hlike.sound.index_le hstack) hahead
      have hentered := hlike.sound.entered hstack
      have hless := work_passing hstack hentered hnear hlt
      have hpassing := hlike.passing hstack hstack' hframe houter hnear hlt
      rcases hframe.leaf_cases with ⟨hleaf, hleaf'⟩ | ⟨page, page', hleaf, hleaf', hpage⟩
      · obtain ⟨child, child', hchild, hchild', hr, hr', hsound, hsite, hw, hw'⟩ :=
          hlike.exists_children hstack hstack' hframe hleaf hleaf' hlt
        have hspan : child'.span = child.span :=
          congrArg Header.span (PageRef.header_eq_of_site hsite)
        obtain ⟨decision, hdecide⟩ :=
          hdecides.visit hsound (f.page?.map (Page.map PageRef.site)) index f.childDepth
        simp only [hleaf, hleaf', hchild, hchild', hlike.policy_eq, hlike.policy_eq',
          hframe.childDepth]
        refine .ofStore hlike (hdecide hlike.sound.le hlike.sound.represents hr rfl rfl)
          (hdecide hlike.sound'.le hlike.sound'.represents hr' hsite hframe.page_eq) ?_
        intro decided s c decided' s' c' hgrows hgrows' hdecided hdecided'
        have hlike' := hlike.grows hgrows hgrows'
        rw [hdecided, hdecided']
        cases decision with
        | skip =>
            dsimp only
            rw [hspan]
            exact .set (.pure (hlike'.passing hstack hstack' hframe houter hnear hlt _) (hless _))
        | emit item =>
            dsimp only
            rw [hspan]
            exact .set (.pure (hlike'.passing hstack hstack' hframe houter hnear hlt _) trivial)
        | descend =>
            exact hlike'.descend hstack hstack' hframe houter hnear (hgrows.le.refs _ hr)
              (hgrows'.le.refs _ hr') hsound hsite hw hw'
      · have hslot := hdecides.slot index hpage
        simp only [hleaf, hleaf', hlike.policy_eq, hlike.policy_eq']
        refine .set ?_
        rw [hslot]
        cases policy.slot page index with
        | none => exact .pure (hpassing 1) (hless 1)
        | some item => exact .pure (hpassing 1) trivial

/-- A step of a skip. -/
theorem stepTo_together (hlike : Resembles base policy x x') (target : Nat) :
    Together base policy (CursorM.stepTo target) (CursorM.stepTo target) x x'
      (Lessens .forward x.cursor) := by
  obtain ⟨f, outer, f', outer', hstack, hstack', hframe, houter⟩ := hlike.exists_top
  refine .get ?_
  rw [hlike.position]
  by_cases hdone : target ≤ x.cursor.position
  · simp only [if_pos hdone]
    exact .pure hlike trivial
  simp only [if_neg hdone, hstack, hstack', List.head?_cons, hframe.ahead_eq]
  cases hahead : f.ahead? .forward with
  | none => exact hlike.leave hstack hstack' houter .forward ()
  | some index =>
      obtain ⟨hnear, hlt⟩ := Frame.near_of_ahead (hlike.sound.index_le hstack) hahead
      have hentered := hlike.sound.entered hstack
      rcases hframe.leaf_cases with ⟨hleaf, hleaf'⟩ | ⟨page, page', hleaf, hleaf', hpage⟩
      · obtain ⟨child, child', hchild, hchild', hr, hr', hsound, hsite, hw, hw'⟩ :=
          hlike.exists_children hstack hstack' hframe hleaf hleaf' hlt
        have hspan : child'.span = child.span :=
          congrArg Header.span (PageRef.header_eq_of_site hsite)
        simp only [hleaf, hleaf', hchild, hchild', hspan]
        -- the children have one header, so both are passed over or both are entered
        by_cases hwhole : child.span ≤ target - x.cursor.position
        · simp only [if_pos hwhole]
          exact .set (.pure (hlike.passing hstack hstack' hframe houter hnear hlt _)
            (work_passing hstack hentered hnear hlt _))
        · simp only [if_neg hwhole]
          exact hlike.descend hstack hstack' hframe houter hnear hr hr' hsound hsite hw hw'
      · have harity := congrArg Page.arity hpage
        rw [Page.map_arity, Page.map_arity, ← Frame.size_of_leaf hleaf] at harity
        have hsize := Frame.size_of_leaf hleaf
        obtain rfl : index = f.index := hnear.symm
        simp only [hleaf, hleaf', harity, ← hsize]
        refine .set (.pure ⟨hlike.sound.setIndex hstack (by omega) _,
          hlike.sound'.setIndex hstack' (by rw [hframe.size_eq]; omega) _, hlike.policy_eq,
          hlike.policy_eq', rfl, ?_⟩ ?_)
        · simp only [setTop, hstack, hstack', List.drop_one, List.tail_cons]
          exact .cons ⟨hframe.node, rfl, hframe.entered, hframe.childDepth⟩ houter
        · exact work_onward hstack hentered (by omega) (by omega)

/-- Steps that each leave less to do, until there is a result. -/
theorem walk_together {step : CursorM ι (Progress α)}
    (hstep : ∀ {x x' : Seat ι}, Resembles base policy x x' →
      Together base policy step step x x' (Lessens d x.cursor))
    (hlike : Resembles base policy x x') {steps steps' : Nat} (hsteps : x.cursor.work d < steps)
    (hsteps' : x.cursor.work d < steps') :
    Together base policy (CursorM.walk step steps) (CursorM.walk step steps') x x'
      fun _ _ => True := by
  -- By induction on the steps of one walk; what is left to do bounds the steps of both, so neither
  -- runs out of steps before the other has come to an end.
  induction steps generalizing steps' x x' with
  | zero => exact absurd hsteps (Nat.not_lt_zero _)
  | succ steps ih =>
      obtain ⟨steps', rfl⟩ := Nat.exists_eq_add_one_of_ne_zero (Nat.ne_zero_of_lt hsteps')
      refine (hstep hlike).bind ?_
      intro progress y y' hlike' hless
      cases progress with
      | ends a => exact .pure hlike' trivial
      | goesOn =>
          have hless' : y.cursor.work d < x.cursor.work d := hless
          exact ih hlike' (by omega) (by omega)

/-- A whole walk. -/
theorem walk_stepBound_together {step : CursorM ι (Progress α)}
    (hstep : ∀ {x x' : Seat ι}, Resembles base policy x x' →
      Together base policy step step x x' (Lessens d x.cursor))
    (hlike : Resembles base policy x x') (count : Nat) :
    Together base policy (CursorM.stepBound count >>= CursorM.walk step)
      (CursorM.stepBound count >>= CursorM.walk step) x x' fun _ _ => True := by
  have hbound : ∀ {x : Seat ι}, x.Sound base → ∃ bound, x.cursor.work d < bound ∧
      (CursorM.stepBound count).exec x.cursor x.store = ((.ok bound, x.cursor), x.store) := by
    intro x hsound
    obtain ⟨r, hroot, hr, -, hwork⟩ := hsound.exists_root
    have hlt := lt_walkBound hsound.represents.toMirrors hr (x.cursor.position + count)
    refine ⟨_, Nat.lt_of_le_of_lt (hwork d) hlt, ?_⟩
    simp only [CursorM.stepBound, CursorM.exec_bind, CursorM.exec_ofStore, exec_get,
      CursorM.exec_get, hroot, CursorM.exec_pure]
  -- the bounds differ with the sizes of the stores, but both are large enough
  obtain ⟨bound, hlt, hexec⟩ := hbound hlike.sound
  obtain ⟨bound', hlt', hexec'⟩ := hbound hlike.sound'
  rw [hlike.work_eq] at hlt'
  exact .of_rest (by rw [CursorM.exec_bind, hexec]) (.refl hlike.sound.represents)
    (by rw [CursorM.exec_bind, hexec']) (.refl hlike.sound'.represents)
    (walk_together hstep hlike hlt hlt')

theorem advance_together (hdecides : policy.Decides base) (hlike : Resembles base policy x x')
    (d : Direction) :
    Together base policy (CursorM.advance d) (CursorM.advance d) x x' fun _ _ => True :=
  walk_stepBound_together (fun hlike => stepTowards_together hlike hdecides d) hlike 1

theorem skip_together (hlike : Resembles base policy x x') (count : Nat) :
    Together base policy (CursorM.skip count) (CursorM.skip count) x x' fun _ _ => True := by
  have hskip : ∀ k : Cursor ι, (CursorM.skip count : CursorM ι Nat) = (do
      let before := (← get).position
      (CursorM.stepBound count >>= CursorM.walk (CursorM.stepTo (before + count)))
      return (← get).position - before) := by
    intro k
    simp only [CursorM.skip, bind_assoc]
  rw [hskip x.cursor]
  refine .get ?_
  rw [hlike.position]
  refine (walk_stepBound_together (fun hlike => stepTo_together hlike _) hlike count).bind ?_
  intro _ y y' hlike' _
  refine .get ?_
  rw [hlike'.position]
  exact .pure hlike' trivial

/-! ## Calls -/

/-- A call that does not open the cursor over another tree. -/
theorem call_together (hdecides : policy.Decides base) (hlike : Resembles base policy x x')
    {call : CursorCall} (hstays : call.root? = none) :
    Together base policy call.make call.make x x' fun _ _ => True := by
  have hadvance := advance_together hdecides hlike
  have hglance : ∀ d, Together base policy (CursorM.glance (CursorM.advance d))
      (CursorM.glance (CursorM.advance d)) x x' fun _ _ => True :=
    fun d => (hadvance d).glance hlike
  have hanswer : ∀ {β : Type} {act act' : CursorM ι β} (f : β → CursorAnswer ι),
      Together base policy act act' x x' (fun _ _ => True) →
        Together base policy (do return f (← act)) (do return f (← act')) x x' fun _ _ => True :=
    fun _ hact => hact.bind fun _ _ _ hlike' _ => .pure hlike' trivial
  cases call with
  | next => exact hanswer .item (hadvance .forward)
  | previous => exact hanswer .item (hadvance .backward)
  | skip count => exact hanswer .count (skip_together hlike count)
  | head => exact hanswer .item (hglance .forward)
  | step => exact hanswer .flag (hadvance .forward).isSome
  | hasNext => exact hanswer .flag (hglance .forward).isSome
  | hasPrevious => exact hanswer .flag (hglance .backward).isSome
  | toEnd =>
      refine .get (.set (.pure ?_ trivial))
      exact hlike.toEnd
  | reopen root => cases hstays

/-- Calls that do not open the cursor over another tree. -/
theorem play_together (hdecides : policy.Decides base) {calls : List CursorCall}
    (hstays : ∀ call ∈ calls, call.root? = none) (hlike : Resembles base policy x x') :
    Together base policy (CursorM.play calls) (CursorM.play calls) x x' fun _ _ => True := by
  induction calls generalizing x x' with
  | nil => exact .pure hlike trivial
  | cons call calls ih =>
      refine (call_together hdecides hlike (hstays call List.mem_cons_self)).bind ?_
      intro answer y y' hlike' _
      refine .get ?_
      rw [Cursor.nextIndex, Cursor.nextIndex, hlike'.position]
      refine (ih (fun call hcall => hstays call (List.mem_cons_of_mem _ hcall)) hlike').bind ?_
      exact fun _ _ _ hlike'' _ => .pure hlike'' trivial

/-- New cursors over trees at the same site, whose pages can be had, resemble each other. -/
theorem resembles_start (policy : Policy ι) {r r' : PageRef} (hsound : base.Sound r.site)
    (hsite : r'.site = r.site) (hle : base ≤ c) (hle' : base ≤ c') (hrep : Represents s c)
    (hrep' : Represents s' c') (hserves : Serves s c) (hserves' : Serves s' c') (hr : c.refs r)
    (hr' : c'.refs r') :
    Resembles base policy ⟨start r policy, s, c⟩ ⟨start r' policy, s', c'⟩ := by
  have hseat : ∀ {s c} {r : PageRef}, base ≤ c → Represents s c → Serves s c → c.refs r →
      base.Sound r.site → Sound base ⟨start r policy, s, c⟩ := by
    intro s c r hle hrep hserves hr hsound
    refine ⟨hle, hrep, hserves, ⟨r, _, _, rfl, rfl, Nat.zero_le _, .root⟩, ?_⟩
    intro f hf
    rw [List.mem_singleton.1 hf]
    exact ⟨hr, hsound⟩
  exact ⟨hseat hle hrep hserves hr hsound, hseat hle' hrep' hserves' hr' (hsite ▸ hsound), rfl, rfl,
    rfl, .cons ⟨.root hsite, rfl, rfl, rfl⟩ .nil⟩

end Seat

namespace Cursor

variable {policy : Policy ι} {r r' : PageRef} {calls : List CursorCall}

/-- Calls of a new cursor make no more of a store than operations on trees make of it. -/
theorem play_start_grows (hdecides : policy.Decides c) (hsound : c.Sound r.site)
    (hrep : Represents s c) (hserves : Serves s c) (hr : c.refs r)
    (hstays : ∀ call ∈ calls, call.root? = none) :
    ∃ c', Grows s c ((CursorM.play calls).exec (start r policy) s).2 c' := by
  have hlike := Seat.resembles_start policy hsound rfl (Chart.le_refl c)
    (Chart.le_refl c) hrep hrep hserves hserves hr hr
  obtain ⟨_, y, _, hexec, hgrows, -⟩ := Seat.play_together hdecides hstays hlike
  exact ⟨y.chart, by rw [hexec]; exact hgrows⟩

/-- New cursors over trees at the same site give the same answers to calls. -/
theorem play_start_eq (hdecides : policy.Decides base) (hsound : base.Sound r.site)
    (hsite : r'.site = r.site) (hle : base ≤ c) (hle' : base ≤ c') (hrep : Represents s c)
    (hrep' : Represents s' c') (hserves : Serves s c) (hserves' : Serves s' c') (hr : c.refs r)
    (hr' : c'.refs r') (hstays : ∀ call ∈ calls, call.root? = none) :
    ∃ answers, ((CursorM.play calls).exec (start r policy) s).1.1 = .ok answers ∧
      ((CursorM.play calls).exec (start r' policy) s').1.1 = .ok answers := by
  have hlike := Seat.resembles_start policy hsound hsite hle hle' hrep hrep' hserves
    hserves' hr hr'
  obtain ⟨answers, y, y', hexec, -, hexec', -⟩ := Seat.play_together hdecides hstays hlike
  exact ⟨answers, by rw [hexec], by rw [hexec']⟩

end Cursor
end PageTree
