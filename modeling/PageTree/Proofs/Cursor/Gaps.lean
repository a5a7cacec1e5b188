import PageTree.Proofs.Cursor.Stands

/-!
# Gaps next to each other

A walk passes over stretches from one gap to another (`Direction.Travels`).  Here are the ways in
which a gap of a frame leads to another one: past an item, into a child and out of a page.
-/

namespace PageTree

open StoreM

variable {ι : Type}

namespace Direction

variable {l l' xs before after before' after' : List (Stretch ι)}

/-- A walk passes over stretches from one gap to another. -/
def Travels (d : Direction) (before after xs before' after' : List (Stretch ι)) : Prop :=
  match d with
  | forward => after = xs ++ after' ∧ before' = before ++ xs
  | backward => before = before' ++ xs.reverse ∧ after' = xs.reverse ++ after

/-- What a walk has before it, in the order in which it passes over it. -/
def rest (d : Direction) (before after : List (Stretch ι)) : List (Stretch ι) :=
  match d with
  | forward => after
  | backward => before.reverse

theorem Travels.refl (d : Direction) (before after : List (Stretch ι)) :
    d.Travels before after [] before after := by
  cases d <;> simp [Travels]

theorem Travels.trans {d : Direction} {ys before'' after'' : List (Stretch ι)}
    (htravels : d.Travels before after xs before' after')
    (htravels' : d.Travels before' after' ys before'' after'') :
    d.Travels before after (xs ++ ys) before'' after'' := by
  cases d with
  | forward =>
      obtain ⟨rfl, rfl⟩ := htravels
      obtain ⟨rfl, rfl⟩ := htravels'
      exact ⟨(List.append_assoc _ _ _).symm, List.append_assoc _ _ _⟩
  | backward =>
      obtain ⟨rfl, rfl⟩ := htravels
      obtain ⟨rfl, rfl⟩ := htravels'
      simp [Travels]

theorem Travels.rest_eq {d : Direction} (htravels : d.Travels before after xs before' after') :
    d.rest before after = xs ++ d.rest before' after' := by
  cases d with
  | forward => exact htravels.1
  | backward => simp [rest, htravels.1]

/-- The gap before an item, as seen by a walk. -/
def near (d : Direction) (index : Nat) : Nat :=
  match d with
  | forward => index
  | backward => index + 1

/-- The gap behind an item, as seen by a walk. -/
def far (d : Direction) (index : Nat) : Nat :=
  match d with
  | forward => index + 1
  | backward => index

end Direction

namespace Frame

variable {f : Frame} {d : Direction} {index w : Nat}

/-- The item ahead is the one next to the gap. -/
theorem near_of_ahead (hle : f.index ≤ f.size) (hahead : f.ahead? d = some index) :
    f.index = d.near index ∧ index < f.size := by
  cases d with
  | forward =>
      simp only [ahead?, Option.ite_none_right_eq_some] at hahead
      obtain ⟨hlt, ⟨⟩⟩ := hahead
      exact ⟨rfl, hlt⟩
  | backward =>
      simp only [ahead?, Option.ite_none_left_eq_some] at hahead
      obtain ⟨hpos, ⟨⟩⟩ := hahead
      simp only [Direction.near]
      omega

/-- Without an item ahead the gap is at an end. -/
theorem end_of_ahead (hle : f.index ≤ f.size) (hahead : f.ahead? d = none) :
    f.index = if d = .forward then f.size else 0 := by
  cases d with
  | forward =>
      simp only [ahead?, ite_eq_right_iff, reduceCtorEq, imp_false, Nat.not_lt] at hahead
      exact Nat.le_antisymm hle hahead
  | backward => simpa [ahead?] using hahead

theorem past_eq (hnear : f.index = d.near index) :
    f.past d = { f with index := d.far index } := by
  cases d <;> simp_all [past, Direction.move, Direction.near, Direction.far]

theorem left_eq (hentered : f.entered = some index) :
    f.left d = { f with index := d.far index, entered := none } := by
  cases d <;> simp [left, hentered, Direction.far]

/-- What is left once an item has been passed is what is left once it has been entered. -/
theorem work_far (hentered : f.entered = some index) (d : Direction) :
    ({ f with index := d.far index, entered := none } : Frame).work d = f.work d := by
  cases d <;> simp [work, hentered, Direction.far]

/-- An item ahead weighs what is left to do for it. -/
theorem work_near (hentered : f.entered = none) (hnear : f.index = d.near index)
    (hw : f.node.weights[index]? = some w) :
    f.work d = ({ f with entered := some index } : Frame).work d + w := by
  obtain ⟨hlt, rfl⟩ := List.getElem?_eq_some_iff.1 hw
  cases d with
  | forward =>
      simp only [work, hentered, hnear, Direction.near, Option.elim_none, Option.elim_some,
        List.drop_eq_getElem_cons hlt, List.sum_cons]
      omega
  | backward =>
      simp only [work, hentered, hnear, Direction.near, Option.elim_none, Option.elim_some,
        List.take_add_one, List.getElem?_eq_getElem hlt, Option.toList_some, List.sum_append,
        List.sum_singleton, id]
      omega

/-- To pass over an item leaves less to do by its weight. -/
theorem work_past (hentered : f.entered = none) (hnear : f.index = d.near index)
    (hw : f.node.weights[index]? = some w) :
    f.work d = ({ f with index := d.far index } : Frame).work d + w := by
  rw [work_near hentered hnear hw]
  cases d <;> simp [work, hentered, Direction.far]

end Frame

/-! ## Moves of the innermost frame -/

namespace Cursor

variable {k : Cursor ι} {f : Frame} {outer : List Frame} {d : Direction} {index w : Nat}

theorem stack_passing (hstack : k.stack = f :: outer) (hnear : f.index = d.near index) (n : Nat) :
    (k.passing f d n).stack = { f with index := d.far index } :: outer := by
  simp [Cursor.passing, setTop, hstack, Frame.past_eq hnear]

theorem stack_entering (hstack : k.stack = f :: outer) (copy : PageCopy) :
    (k.entering f d index copy).stack =
      .page copy f.childDepth d :: { f with entered := some index } :: outer := by
  simp [Cursor.entering, hstack]

/-- To pass over an item leaves less to do. -/
theorem work_passing (hstack : k.stack = f :: outer) (hentered : f.entered = none)
    (hnear : f.index = d.near index) (hlt : index < f.size) (n : Nat) :
    (k.passing f d n).work d < k.work d := by
  obtain ⟨w, hw, hpos⟩ := Frame.weight_pos hlt
  have hpassed := Frame.work_past hentered hnear hw
  simp only [work, hstack, stack_passing hstack hnear, List.map_cons, List.sum_cons]
  omega

/-- To go back to the frame outside leaves less to do. -/
theorem work_leaving {g : Frame} (hstack : k.stack = f :: g :: outer)
    (hentered : g.entered = some index) :
    ({ k with stack := g.left d :: outer } : Cursor ι).work d < k.work d := by
  have hleft := Frame.work_far hentered d
  have hpos : 0 < f.work d := by cases d <;> simp [Frame.work]
  simp only [work, hstack, List.map_cons, List.sum_cons, Frame.left_eq hentered, hleft]
  omega

/-- To enter a page leaves less to do, if the page weighs less than the child. -/
theorem work_entering {copy : PageCopy} (hstack : k.stack = f :: outer)
    (hentered : f.entered = none) (hnear : f.index = d.near index)
    (hw : f.node.weights[index]? = some w) (hlighter : (FrameNode.page copy).weight < w) :
    (k.entering f d index copy).work d < k.work d := by
  have hpassed := Frame.work_near hentered hnear hw
  have hwhole := Frame.work_le_weight (f := Frame.page copy f.childDepth d) rfl d
  change _ ≤ (FrameNode.page copy).weight at hwhole
  simp only [work, hstack, stack_entering hstack, List.map_cons, List.sum_cons]
  omega

/-- To pass over some items on the way forward leaves less to do. -/
theorem work_onward {i : Nat} (hstack : k.stack = f :: outer) (hentered : f.entered = none)
    (hlt : f.index < i) (hle : i ≤ f.size) :
    (k.setTop { f with index := i }).work .forward < k.work .forward := by
  obtain ⟨w, hw, hpos⟩ := Frame.weight_pos (Nat.lt_of_lt_of_le hlt hle)
  obtain ⟨hlt', rfl⟩ := List.getElem?_eq_some_iff.1 hw
  have hnext := List.drop_eq_getElem_cons hlt'
  have hrest := congrArg List.sum
    (List.take_append_drop (i - (f.index + 1)) (f.node.weights.drop (f.index + 1)))
  rw [List.drop_drop, Nat.add_sub_cancel' hlt, List.sum_append] at hrest
  simp only [work, setTop, hstack, List.drop_one, List.tail_cons, List.map_cons, List.sum_cons,
    Frame.work, hentered, Option.elim_none, hnext]
  omega

end Cursor

/-! ## Gaps within frames -/

namespace Cursor

variable {c c' : Chart} {scheme : Scheme ι} {policy : Policy ι} {r : PageRef} {node : FrameNode}
  {outer : List Frame} {before after : List (Stretch ι)} {parts : List (List (Stretch ι))}
  {part : List (Stretch ι)} {index index' : Nat}

theorem take_succ_flatten (hpart : parts[index]? = some part) :
    (parts.take (index + 1)).flatten = (parts.take index).flatten ++ part := by
  obtain ⟨hlt, rfl⟩ := List.getElem?_eq_some_iff.1 hpart
  rw [List.take_add_one, List.getElem?_eq_getElem hlt, Option.toList_some, List.flatten_append,
    List.flatten_singleton]

theorem drop_flatten (hpart : parts[index]? = some part) :
    (parts.drop index).flatten = part ++ (parts.drop (index + 1)).flatten := by
  obtain ⟨hlt, rfl⟩ := List.getElem?_eq_some_iff.1 hpart
  rw [List.drop_eq_getElem_cons hlt, List.flatten_cons]

namespace Within

/-- A gap further on in a frame. -/
theorem forth (hwithin : Within c scheme r node outer (parts.take index).flatten
      (parts.drop index).flatten before after) (hle : index ≤ index') :
    ∃ after', after = ((parts.drop index).take (index' - index)).flatten ++ after' ∧
      Within c scheme r node outer (parts.take index').flatten (parts.drop index').flatten
        (before ++ ((parts.drop index).take (index' - index)).flatten) after' := by
  obtain ⟨count, rfl⟩ := Nat.exists_eq_add_of_le hle
  obtain ⟨front, back, rfl, rfl, hmove⟩ := hwithin.move
  have htake : (parts.take (index + count)).flatten =
      (parts.take index).flatten ++ ((parts.drop index).take count).flatten := by
    rw [List.take_add, List.flatten_append]
  have hdrop : (parts.drop index).flatten =
      ((parts.drop index).take count).flatten ++ (parts.drop (index + count)).flatten := by
    rw [← List.drop_drop, ← List.flatten_append, List.take_append_drop]
  rw [Nat.add_sub_cancel_left]
  refine ⟨(parts.drop (index + count)).flatten ++ back, by rw [hdrop, List.append_assoc], ?_⟩
  rw [List.append_assoc, ← htake]
  refine hmove _ _ ?_
  rw [htake, hdrop, List.append_assoc]

/-- A gap further back in a frame. -/
theorem back (hwithin : Within c scheme r node outer (parts.take (index + 1)).flatten
      (parts.drop (index + 1)).flatten before after) (hpart : parts[index]? = some part) :
    ∃ before', before = before' ++ part ∧
      Within c scheme r node outer (parts.take index).flatten (parts.drop index).flatten
        before' (part ++ after) := by
  obtain ⟨front, back, rfl, rfl, hmove⟩ := hwithin.move
  rw [take_succ_flatten hpart]
  refine ⟨front ++ (parts.take index).flatten, (List.append_assoc _ _ _).symm, ?_⟩
  rw [← List.append_assoc, ← drop_flatten hpart]
  refine hmove _ _ ?_
  rw [take_succ_flatten hpart, drop_flatten hpart, List.append_assoc]

/-- The gap behind an item of a single stretch. -/
theorem pass {d : Direction} {x : Stretch ι}
    (hwithin : Within c scheme r node outer (parts.take (d.near index)).flatten
      (parts.drop (d.near index)).flatten before after) (hpart : parts[index]? = some [x]) :
    ∃ before' after', d.Travels before after [x] before' after' ∧
      Within c scheme r node outer (parts.take (d.far index)).flatten
        (parts.drop (d.far index)).flatten before' after' := by
  cases d with
  | forward =>
      simp only [Direction.near] at hwithin
      obtain ⟨after', hafter, hwithin'⟩ := hwithin.forth (Nat.le_succ index)
      have hpassed : ((parts.drop index).take (index + 1 - index)).flatten = [x] := by
        obtain ⟨hlt, hx⟩ := List.getElem?_eq_some_iff.1 hpart
        rw [Nat.add_sub_cancel_left, List.drop_eq_getElem_cons hlt, hx]
        rfl
      rw [hpassed] at hafter hwithin'
      exact ⟨before ++ [x], after', ⟨hafter, rfl⟩, hwithin'⟩
  | backward =>
      obtain ⟨before', hbefore, hwithin'⟩ := hwithin.back hpart
      exact ⟨before', [x] ++ after, ⟨hbefore, rfl⟩, hwithin'⟩

/-- The same gap, from within a child that is entered from its near end. -/
theorem enter {f : Frame} {copy : PageCopy} {d : Direction} {w : Nat}
    {parts' : List (List (Stretch ι))}
    (hwithin : Within c scheme r f.node outer (parts.take (d.near index)).flatten
      (parts.drop (d.near index)).flatten before after)
    (hshows : f.node.Shows c scheme f.childDepth parts) (hpart : parts[index]? = some part)
    (hw : f.node.weights[index]? = some w) (hlighter : (FrameNode.page copy).weight < w)
    (hshows' : (FrameNode.page copy).Shows c scheme (f.childDepth + 1) parts')
    (hparts' : parts'.flatten = part) :
    Within c scheme r (.page copy) ({ f with entered := some index } :: outer)
      (parts'.take (Frame.page copy f.childDepth d).index).flatten
      (parts'.drop (Frame.page copy f.childDepth d).index).flatten before after := by
  have hlength : parts'.length = copy.page.arity := hshows'.length 0 none 0
  cases d with
  | forward =>
      refine .page rfl hshows ?_ hw hlighter ?_
      · simpa [Frame.page, hparts'] using hpart
      · simpa [Frame.page, hparts', ← drop_flatten hpart, Direction.near] using hwithin
  | backward =>
      have hall : parts'.take copy.page.arity = parts' := List.take_of_length_le (by omega)
      have hnone : parts'.drop copy.page.arity = [] := List.drop_of_length_le (by omega)
      refine .page rfl hshows ?_ hw hlighter ?_
      · simpa [Frame.page, hall, hnone, hparts'] using hpart
      · simpa [Frame.page, hall, hnone, hparts', ← take_succ_flatten hpart, Direction.near]
          using hwithin

/-- The same gap, from the frame above, at the end of an inner frame. -/
theorem leave {copy : PageCopy} {f : Frame} {d : Direction}
    (hwithin : Within c scheme r (.page copy) (f :: outer) (parts.take index').flatten
      (parts.drop index').flatten before after)
    (hend : index' = if d = .forward then parts.length else 0) :
    ∃ index parts', f.entered = some index ∧ f.node.Shows c scheme f.childDepth parts' ∧
      d.far index ≤ parts'.length ∧
      Within c scheme r f.node outer (parts'.take (d.far index)).flatten
        (parts'.drop (d.far index)).flatten before after := by
  cases hwithin with
  | @page _ _ _ _ _ _ _ index parts' w entered shows part weighs lighter rest =>
      obtain ⟨hlt, -⟩ := List.getElem?_eq_some_iff.1 part
      cases d with
      | forward =>
          obtain rfl : index' = parts.length := by simpa using hend
          rw [List.drop_length, List.flatten_nil, List.append_nil] at part
          rw [List.drop_length, List.flatten_nil, List.nil_append, ← take_succ_flatten part] at rest
          exact ⟨index, parts', entered, shows, hlt, rest⟩
      | backward =>
          obtain rfl : index' = 0 := by simpa using hend
          rw [List.take_zero, List.flatten_nil, List.nil_append] at part
          rw [List.take_zero, List.flatten_nil, List.append_nil, ← drop_flatten part] at rest
          exact ⟨index, parts', entered, shows, Nat.le_of_lt hlt, rest⟩

end Within
end Cursor

/-! ## Items -/

namespace FrameNode

variable {s : Store} {c : Chart} {scheme : Scheme ι} {f : Frame} {page : LivePage}
  {parts : List (List (Stretch ι))} {index : Nat}

/-- A slot of a leaf is a stretch of one entry. -/
theorem Shows.slot (hshows : f.node.Shows c scheme f.childDepth parts)
    (hleaf : f.leaf? = some page) (hlt : index < f.size) :
    parts[index]? = some [⟨1, scheme.slot page.body.shape index⟩] ∧
      f.node.weights[index]? = some 1 := by
  obtain ⟨node, gap, entered, childDepth⟩ := f
  cases node with
  | root r => cases hleaf
  | page copy =>
      simp only [Frame.leaf?, Frame.page?, Option.filter_eq_some_iff, Option.some.injEq,
        Bool.not_eq_true'] at hleaf
      obtain ⟨rfl, hnode⟩ := hleaf
      change index < copy.page.arity at hlt
      rw [(shows_of_leaf hnode).1 hshows, weights_of_leaf hnode]
      exact ⟨by simp [Chart.slotStretches, hlt], by simp [hlt]⟩

/-- An item of a frame that is no leaf is a child. -/
theorem Shows.child (hshows : f.node.Shows c scheme f.childDepth parts)
    (hnode : f.leaf? = none) (hlt : index < f.size) :
    ∃ child part, f.child? index = some child ∧ c.refs child ∧ parts[index]? = some part ∧
      c.Tours scheme (f.page?.map (Page.map PageRef.site)) index f.childDepth child.site part ∧
      f.node.weights[index]? = some (child.treeSize + 1) := by
  obtain ⟨node, gap, entered, childDepth⟩ := f
  cases node with
  | root r =>
      obtain ⟨hr, hdepth, l, rfl, htours⟩ := hshows
      change childDepth = 0 at hdepth
      obtain rfl : index = 0 := Nat.lt_one_iff.1 hlt
      subst hdepth
      exact ⟨r, l, rfl, hr, rfl, htours, rfl⟩
  | page copy =>
      have hisNode : copy.page.isNode = true := by
        simpa [Frame.leaf?, Frame.page?] using hnode
      change index < copy.page.arity at hlt
      obtain ⟨hrefs, hlength, htours⟩ := (shows_of_isNode hisNode).1 hshows
      have hlt' : index < copy.page.children.length := by
        rwa [Page.length_children hisNode]
      refine ⟨copy.page.children[index], parts.get ⟨index, hlength ▸ hlt'⟩, ?_,
        hrefs _ (List.getElem_mem hlt'), List.getElem?_eq_getElem _, htours index hlt' _, ?_⟩
      · exact List.getElem?_eq_getElem hlt'
      · rw [weights_of_isNode hisNode, List.getElem?_map, List.getElem?_eq_getElem hlt']
        rfl

/-- The frame of a page weighs less than a child that measures it. -/
theorem weight_lt_of_area {r : PageRef} {copy : PageCopy}
    (harea : r.treeSize = copy.page.stored.area) :
    (FrameNode.page copy).weight < r.treeSize + 1 := by
  rw [Page.area_eq_sum] at harea
  have harity := copy.page.stored.arity_le_size
  rw [show copy.page.stored.arity = copy.page.arity from Page.map_arity _ _] at harity
  rw [weight]
  cases hnode : copy.page.isNode with
  | true =>
      -- a child weighs one more than the area of its tree, which is what the parent counts for it
      have hsum : ∀ l : List PageRef, (l.map fun m => m.treeSize + 1).sum =
          ((l.map PageRef.header).map Header.area).sum + l.length := by
        intro l
        induction l with
        | nil => rfl
        | cons m l ih =>
            simp only [List.map_cons, List.sum_cons, List.length_cons, ih]
            change m.header.area + 1 + _ = _
            omega
      rw [weights_of_isNode hnode, hsum, Page.length_children hnode, ← Page.stored_children]
      omega
  | false =>
      rw [weights_of_leaf hnode, List.sum_replicate_nat, Nat.mul_one]
      omega

/-- The frame of a page weighs less than a child that leads to it. -/
theorem weight_page_lt {r : PageRef} {copy : PageCopy} (hrep : Represents s c) (hr : c.refs r)
    (hpage : c.page r.site = some (copy.page.map PageRef.site)) :
    (FrameNode.page copy).weight < r.treeSize + 1 := by
  have harea := ((hrep.sound r hr).describes hpage).area_eq
  rw [PageRef.header_site, Page.map_site_header] at harea
  exact weight_lt_of_area harea

end FrameNode

/-- What a tour of a child comes to: the child is passed as a whole, or its page is entered. -/
theorem Chart.Tours.cases {c : Chart} {scheme : Scheme ι} {policy : Policy ι}
    {parent : Option (Page Site)} {index depth : Nat} {n : Site} {l : List (Stretch ι)}
    (hfollows : policy.Follows scheme) (htours : c.Tours scheme parent index depth n l) :
    (scheme.visit c parent index n depth .skip ∧ l = [⟨n.header.span, none⟩]) ∨
      (∃ item, scheme.visit c parent index n depth (.emit item) ∧
        l = [⟨n.header.span, some item⟩]) ∨
      scheme.visit c parent index n depth .descend ∧ ∀ c' copy, c ≤ c' →
        c'.page n = some (copy.page.map PageRef.site) → (∀ m ∈ copy.page.children, c'.refs m) →
          ∃ parts, (FrameNode.page copy).Shows c' scheme (depth + 1) parts ∧
            parts.flatten = l := by
  cases htours with
  | skip visit => exact Or.inl ⟨visit, rfl⟩
  | emit visit => exact Or.inr (Or.inl ⟨_, visit, rfl⟩)
  | leaf visit page isLeaf =>
      refine Or.inr (Or.inr ⟨visit, ?_⟩)
      intro c' copy hle hpage hrefs
      rw [Chart.page_mono hle page] at hpage
      cases hpage
      refine ⟨_, (FrameNode.shows_of_leaf (by simpa using isLeaf)).2 rfl, ?_⟩
      simp only [Page.map_body, PageBody.shape_map, Page.map_arity]
      rw [← List.flatMap_def]
      exact List.flatMap_singleton' _
  | node visit page isNode parts length children =>
      refine Or.inr (Or.inr ⟨visit, ?_⟩)
      intro c' copy hle hpage hrefs
      rw [Chart.page_mono hle page] at hpage
      cases hpage
      rw [Page.map_children, List.length_map] at length
      refine ⟨parts, (FrameNode.shows_of_isNode (by simpa using isNode)).2 ⟨hrefs, length, ?_⟩, rfl⟩
      intro i h h'
      have htours := children i (by simpa using h) h'
      simp only [Page.map_children, List.get_eq_getElem, List.getElem_map] at htours
      exact htours.mono hfollows hle

end PageTree
