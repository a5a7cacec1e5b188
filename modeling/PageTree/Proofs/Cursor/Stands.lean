import PageTree.Cursor.Basic
import PageTree.Proofs.Cursor.Tours

/-!
# Where a cursor stands

A cursor stands in a gap between stretches: `Cursor.Stands k c scheme root before after` says that
its frames are pages on the way from the root to the gap, with `before` and `after` on either
side.  The index of a frame whose child has been entered is not a part of it, since the cursor sets
that index only when it leaves the child.
-/

namespace PageTree

open StoreM

variable {ι : Type}

/-! ## Frames -/

namespace FrameNode

/-- What is left to do for each item: at most so many steps. -/
def weights : FrameNode → List Nat
  | root r => [r.treeSize + 1]
  | page copy =>
    if copy.page.isNode then copy.page.children.map fun m => m.treeSize + 1
    else List.replicate copy.page.arity 1

/-- What is left to do for the whole frame. -/
def weight (node : FrameNode) : Nat :=
  node.weights.sum + 1

/-- What lies beneath the items, from left to right. -/
def Shows (c : Chart) (scheme : Scheme ι) (depth : Nat) :
    FrameNode → List (List (Stretch ι)) → Prop
  | root r, parts => c.refs r ∧ depth = 0 ∧
      ∃ l, parts = [l] ∧ c.Tours scheme none 0 0 r.site l
  | page copy, parts =>
    if copy.page.isNode then
      (∀ m ∈ copy.page.children, c.refs m) ∧ copy.page.children.length = parts.length ∧
        ∀ i h h', c.Tours scheme (some (copy.page.map PageRef.site)) i depth
          (copy.page.children.get ⟨i, h⟩).site (parts.get ⟨i, h'⟩)
    else
      parts = (Chart.slotStretches scheme copy.page.body.shape copy.page.arity).map fun x => [x]

variable {c c' : Chart} {scheme : Scheme ι} {policy : Policy ι} {depth : Nat} {node : FrameNode}
  {copy : PageCopy} {parts : List (List (Stretch ι))}

theorem weights_of_isNode (hnode : copy.page.isNode = true) :
    (page copy).weights = copy.page.children.map fun m => m.treeSize + 1 :=
  if_pos hnode

theorem weights_of_leaf (hleaf : copy.page.isNode = false) :
    (page copy).weights = List.replicate copy.page.arity 1 :=
  if_neg (by simp [hleaf])

theorem shows_of_isNode (hnode : copy.page.isNode = true) :
    (page copy).Shows c scheme depth parts ↔
      (∀ m ∈ copy.page.children, c.refs m) ∧ copy.page.children.length = parts.length ∧
        ∀ i h h', c.Tours scheme (some (copy.page.map PageRef.site)) i depth
          (copy.page.children.get ⟨i, h⟩).site (parts.get ⟨i, h'⟩) :=
  iff_of_eq (if_pos hnode)

theorem shows_of_leaf (hleaf : copy.page.isNode = false) :
    (page copy).Shows c scheme depth parts ↔
      parts = (Chart.slotStretches scheme copy.page.body.shape copy.page.arity).map fun x => [x] :=
  iff_of_eq (if_neg (by simp [hleaf]))

theorem Shows.mono (hfollows : policy.Follows scheme) (hle : c ≤ c')
    (hshows : node.Shows c scheme depth parts) : node.Shows c' scheme depth parts := by
  cases node with
  | root r =>
      obtain ⟨hr, hdepth, l, hparts, htours⟩ := hshows
      exact ⟨hle.refs r hr, hdepth, l, hparts, htours.mono hfollows hle⟩
  | page copy =>
      cases hnode : copy.page.isNode with
      | true =>
          rw [shows_of_isNode hnode] at hshows ⊢
          exact ⟨fun m hm => hle.refs m (hshows.1 m hm), hshows.2.1,
            fun i h h' => (hshows.2.2 i h h').mono hfollows hle⟩
      | false =>
          rw [shows_of_leaf hnode] at hshows ⊢
          exact hshows

/-- The items of a frame. -/
theorem Shows.length (hshows : node.Shows c scheme depth parts) (index : Nat)
    (entered : Option Nat) (childDepth : Nat) :
    parts.length = (⟨node, index, entered, childDepth⟩ : Frame).size := by
  cases node with
  | root r =>
      obtain ⟨-, -, l, rfl, -⟩ := hshows
      rfl
  | page copy =>
      change parts.length = copy.page.arity
      cases hnode : copy.page.isNode with
      | true => rw [← ((shows_of_isNode hnode).1 hshows).2.1, Page.length_children hnode]
      | false => simp [(shows_of_leaf hnode).1 hshows, Chart.slotStretches]

end FrameNode

/-- The number of steps that are left before the frame is left in a direction. -/
def Frame.work (f : Frame) : Direction → Nat
  | .forward => (f.node.weights.drop (f.entered.elim f.index (· + 1))).sum + 1
  | .backward => (f.node.weights.take (f.entered.elim f.index id)).sum + 1

/-- There is a weight for each item. -/
theorem Frame.length_weights (f : Frame) : f.node.weights.length = f.size := by
  obtain ⟨node, gap, entered, childDepth⟩ := f
  cases node with
  | root r => rfl
  | page copy =>
      change (FrameNode.page copy).weights.length = copy.page.arity
      cases hnode : copy.page.isNode with
      | true => rw [FrameNode.weights_of_isNode hnode, List.length_map, Page.length_children hnode]
      | false => rw [FrameNode.weights_of_leaf hnode, List.length_replicate]

/-- Every item weighs something. -/
theorem Frame.weight_pos {f : Frame} {index : Nat} (hlt : index < f.size) :
    ∃ w, f.node.weights[index]? = some w ∧ 0 < w := by
  obtain ⟨node, gap, entered, childDepth⟩ := f
  cases node with
  | root r =>
      obtain rfl : index = 0 := Nat.lt_one_iff.1 hlt
      exact ⟨_, rfl, Nat.succ_pos _⟩
  | page copy =>
      change index < copy.page.arity at hlt
      cases hnode : copy.page.isNode with
      | true =>
          rw [← Page.length_children hnode] at hlt
          exact ⟨copy.page.children[index].treeSize + 1, by
            simp [FrameNode.weights_of_isNode hnode, hlt], Nat.succ_pos _⟩
      | false => exact ⟨1, by simp [FrameNode.weights_of_leaf hnode, hlt], Nat.one_pos⟩

/-- An item of a frame that is no leaf is a child. -/
theorem Frame.exists_child {f : Frame} {index : Nat} (hnode : f.leaf? = none)
    (hlt : index < f.size) : ∃ child, f.child? index = some child ∧
      f.node.weights[index]? = some (child.treeSize + 1) := by
  obtain ⟨node, gap, entered, childDepth⟩ := f
  cases node with
  | root r =>
      obtain rfl : index = 0 := Nat.lt_one_iff.1 hlt
      exact ⟨r, rfl, rfl⟩
  | page copy =>
      have hisNode : copy.page.isNode = true := by
        simpa [Frame.leaf?, Frame.page?] using hnode
      change index < copy.page.arity at hlt
      rw [← Page.length_children hisNode] at hlt
      refine ⟨copy.page.children[index], List.getElem?_eq_getElem hlt, ?_⟩
      rw [FrameNode.weights_of_isNode hisNode, List.getElem?_map, List.getElem?_eq_getElem hlt]
      rfl

/-- What is left of a frame is at most all of it. -/
theorem Frame.work_le_weight {f : Frame} (hentered : f.entered = none) (d : Direction) :
    f.work d ≤ f.node.weight := by
  have hsum := congrArg List.sum (List.take_append_drop f.index f.node.weights)
  rw [List.sum_append] at hsum
  cases d with
  | forward =>
      simp only [work, hentered, Option.elim_none, FrameNode.weight]
      omega
  | backward =>
      simp only [work, hentered, Option.elim_none, FrameNode.weight]
      omega

/-- What is left of a frame that has entered a child is less than the child. -/
theorem Frame.work_le {f : Frame} {index w : Nat} (hentered : f.entered = some index)
    (hw : f.node.weights[index]? = some w) (d : Direction) : f.work d + w ≤ f.node.weight := by
  have hsplit : f.node.weights =
      f.node.weights.take index ++ w :: f.node.weights.drop (index + 1) := by
    obtain ⟨hlt, rfl⟩ := List.getElem?_eq_some_iff.1 hw
    rw [List.getElem_cons_drop, List.take_append_drop]
  have hsum := congrArg List.sum hsplit
  rw [List.sum_append, List.sum_cons] at hsum
  cases d with
  | forward =>
      simp only [work, hentered, Option.elim_some, FrameNode.weight]
      omega
  | backward =>
      simp only [work, hentered, Option.elim_some, id, FrameNode.weight]
      omega

namespace Cursor

/-- The number of steps that are left in a direction. -/
def work (k : Cursor ι) (d : Direction) : Nat :=
  (k.stack.map fun f => f.work d).sum

/-! ## Frames within frames -/

/-- What an innermost frame is about hangs in frames around it, up to the root: each of them has
entered a child that weighs more than the frame inside. -/
inductive Hangs (r : PageRef) : FrameNode → List Frame → Prop where
  | root : Hangs r (.root r) []
  | page {copy f outer index w} (entered : f.entered = some index)
      (weighs : f.node.weights[index]? = some w) (lighter : (FrameNode.page copy).weight < w)
      (rest : Hangs r f.node outer) : Hangs r (.page copy) (f :: outer)

namespace Hangs

variable {r : PageRef} {node : FrameNode} {outer : List Frame}

/-- The outermost frame is that of the root. -/
theorem root_eq {f : Frame} (hnode : f.node = node) (hhangs : Hangs r node outer) :
    (f :: outer).getLast?.map Frame.node = some (.root r) := by
  induction hhangs generalizing f with
  | root => simp [hnode]
  | page _ _ _ _ ih =>
      rw [List.getLast?_cons_cons]
      exact ih rfl

/-- What is left to do is not more than the size of the tree. -/
theorem work_le (hhangs : Hangs r node outer) (d : Direction) {w : Nat} (hle : w ≤ node.weight) :
    w + (outer.map fun f => f.work d).sum ≤ r.treeSize + 2 := by
  induction hhangs generalizing w with
  | root => simpa [FrameNode.weight, FrameNode.weights] using hle
  | @page copy f outer index w' entered weighs lighter _ ih =>
      have hwork := f.work_le entered weighs d
      rw [List.map_cons, List.sum_cons, ← Nat.add_assoc]
      exact ih (by omega)

end Hangs

/-- A gap in what an innermost frame is about, seen from the whole tree: what lies on either side
of it within the frame, and what lies there within the tree. -/
inductive Within (c : Chart) (scheme : Scheme ι) (r : PageRef) :
    FrameNode → List Frame → List (Stretch ι) → List (Stretch ι) →
      List (Stretch ι) → List (Stretch ι) → Prop where
  | root {before after} : Within c scheme r (.root r) [] before after before after
  | page {copy f outer before after allBefore allAfter index parts w}
      (entered : f.entered = some index) (shows : f.node.Shows c scheme f.childDepth parts)
      (part : parts[index]? = some (before ++ after)) (weighs : f.node.weights[index]? = some w)
      (lighter : (FrameNode.page copy).weight < w)
      (rest : Within c scheme r f.node outer ((parts.take index).flatten ++ before)
        (after ++ (parts.drop (index + 1)).flatten) allBefore allAfter) :
      Within c scheme r (.page copy) (f :: outer) before after allBefore allAfter

variable {c c' : Chart} {scheme : Scheme ι} {policy : Policy ι} {r : PageRef} {node : FrameNode}
  {outer : List Frame} {before after allBefore allAfter : List (Stretch ι)}

namespace Within

theorem mono (hfollows : policy.Follows scheme) (hle : c ≤ c')
    (hwithin : Within c scheme r node outer before after allBefore allAfter) :
    Within c' scheme r node outer before after allBefore allAfter := by
  induction hwithin with
  | root => exact root
  | page entered shows part weighs lighter _ ih =>
      exact page entered (shows.mono hfollows hle) part weighs lighter ih

/-- The gap may be another of the same frame. -/
theorem move (hwithin : Within c scheme r node outer before after allBefore allAfter) :
    ∃ front back, allBefore = front ++ before ∧ allAfter = after ++ back ∧
      ∀ before' after', before' ++ after' = before ++ after →
        Within c scheme r node outer before' after' (front ++ before') (after' ++ back) := by
  induction hwithin with
  | root =>
      refine ⟨[], [], rfl, (List.append_nil _).symm, ?_⟩
      intro before' after' _
      rw [List.nil_append, List.append_nil]
      exact root
  | @page copy f outer before after allBefore allAfter index parts w entered shows part weighs
      lighter _ ih =>
      obtain ⟨front, back, rfl, rfl, hmove⟩ := ih
      refine ⟨front ++ (parts.take index).flatten, (parts.drop (index + 1)).flatten ++ back,
        (List.append_assoc _ _ _).symm, List.append_assoc _ _ _, ?_⟩
      intro before' after' hsame
      rw [← hsame] at part
      rw [List.append_assoc, ← List.append_assoc after']
      refine page entered shows part weighs lighter (hmove _ _ ?_)
      rw [List.append_assoc, ← List.append_assoc before', hsame]
      simp only [List.append_assoc]

/-- What lies on either side is all that lies beneath the root. -/
theorem tour {depth : Nat} {parts : List (List (Stretch ι))}
    (hwithin : Within c scheme r node outer before after allBefore allAfter)
    (hshows : node.Shows c scheme depth parts) (hparts : parts.flatten = before ++ after) :
    c.refs r ∧ c.Tours scheme none 0 0 r.site (allBefore ++ allAfter) := by
  induction hwithin generalizing depth parts with
  | root =>
      obtain ⟨hr, -, l, rfl, htours⟩ := hshows
      rw [← hparts, List.flatten_singleton]
      exact ⟨hr, htours⟩
  | @page copy f outer before after allBefore allAfter index parts' w entered shows part weighs
      lighter _ ih =>
      refine ih shows ?_
      obtain ⟨hlt, hpart⟩ := List.getElem?_eq_some_iff.1 part
      have hsplit : parts' = parts'.take index ++ (before ++ after) :: parts'.drop (index + 1) := by
        rw [← hpart, List.getElem_cons_drop, List.take_append_drop]
      have hflat := congrArg List.flatten hsplit
      rw [List.flatten_append, List.flatten_cons] at hflat
      simpa only [List.append_assoc] using hflat

theorem hangs (hwithin : Within c scheme r node outer before after allBefore allAfter) :
    Hangs r node outer := by
  induction hwithin with
  | root => exact .root
  | page entered _ _ weighs lighter _ ih => exact .page entered weighs lighter ih

end Within

/-- The cursor stands in a gap of a tree. -/
structure Stands (k : Cursor ι) (c : Chart) (scheme : Scheme ι) (r : PageRef)
    (before after : List (Stretch ι)) : Prop where
  follows : k.policy.Follows scheme
  position : k.position = Stretch.total before
  stack : ∃ f outer parts, k.stack = f :: outer ∧ f.entered = none ∧
    f.node.Shows c scheme f.childDepth parts ∧ f.index ≤ parts.length ∧
    Within c scheme r f.node outer (parts.take f.index).flatten (parts.drop f.index).flatten
      before after

namespace Stands

variable {k : Cursor ι}

theorem mono (hstands : k.Stands c scheme r before after) (hle : c ≤ c') :
    k.Stands c' scheme r before after := by
  obtain ⟨hfollows, hposition, f, outer, parts, hstack, hentered, hshows, hindex, hwithin⟩ := hstands
  exact ⟨hfollows, hposition, f, outer, parts, hstack, hentered, hshows.mono hfollows hle, hindex,
    hwithin.mono hfollows hle⟩

theorem root_eq (hstands : k.Stands c scheme r before after) : k.root? = some r := by
  obtain ⟨-, -, f, outer, parts, hstack, -, -, -, hwithin⟩ := hstands
  rw [root?, hstack, hwithin.hangs.root_eq rfl]

theorem tour (hstands : k.Stands c scheme r before after) :
    c.refs r ∧ c.Tours scheme none 0 0 r.site (before ++ after) := by
  obtain ⟨-, -, f, outer, parts, -, -, hshows, -, hwithin⟩ := hstands
  refine hwithin.tour hshows ?_
  rw [← List.flatten_append, List.take_append_drop]

theorem work_le (hstands : k.Stands c scheme r before after) (d : Direction) :
    k.work d ≤ r.treeSize + 2 := by
  obtain ⟨-, -, f, outer, parts, hstack, hentered, -, -, hwithin⟩ := hstands
  rw [work, hstack, List.map_cons, List.sum_cons]
  exact hwithin.hangs.work_le d (Frame.work_le_weight hentered d)

end Stands

/-- The cursor stands in a gap, seen from its innermost frame: the stretches of its items, and the
frames that it hangs in. -/
structure StandsIn (k : Cursor ι) (c : Chart) (scheme : Scheme ι) (r : PageRef) (f : Frame)
    (outer : List Frame) (parts : List (List (Stretch ι))) (before after : List (Stretch ι)) :
    Prop where
  follows : k.policy.Follows scheme
  position : k.position = Stretch.total before
  stack : k.stack = f :: outer
  entered : f.entered = none
  shows : f.node.Shows c scheme f.childDepth parts
  index_le : f.index ≤ parts.length
  within : Within c scheme r f.node outer (parts.take f.index).flatten
    (parts.drop f.index).flatten before after

theorem Stands.exists_in {k : Cursor ι} (hstands : k.Stands c scheme r before after) :
    ∃ f outer parts, k.StandsIn c scheme r f outer parts before after := by
  obtain ⟨hfollows, hposition, f, outer, parts, hstack, hentered, hshows, hindex, hwithin⟩ := hstands
  exact ⟨f, outer, parts, hfollows, hposition, hstack, hentered, hshows, hindex, hwithin⟩

namespace StandsIn

variable {k : Cursor ι} {f : Frame} {parts : List (List (Stretch ι))}

theorem stands (hin : k.StandsIn c scheme r f outer parts before after) :
    k.Stands c scheme r before after :=
  ⟨hin.follows, hin.position, f, outer, parts, hin.stack, hin.entered, hin.shows, hin.index_le,
    hin.within⟩

theorem mono (hin : k.StandsIn c scheme r f outer parts before after) (hle : c ≤ c') :
    k.StandsIn c' scheme r f outer parts before after :=
  { hin with
    shows := hin.shows.mono hin.follows hle
    within := hin.within.mono hin.follows hle }

theorem length_eq (hin : k.StandsIn c scheme r f outer parts before after) :
    parts.length = f.size :=
  hin.shows.length f.index f.entered f.childDepth

end StandsIn

/-- A new cursor stands before all that lies beneath its root. -/
theorem stands_start (hfollows : policy.Follows scheme) (hr : c.refs r)
    (htours : c.Tours scheme none 0 0 r.site after) :
    (start r policy).Stands c scheme r [] after := by
  refine ⟨hfollows, rfl, .root r, [], [after], rfl, rfl, ⟨hr, rfl, after, rfl, htours⟩,
    Nat.zero_le _, ?_⟩
  simpa [Frame.root] using (Within.root : Within c scheme r (.root r) [] [] after [] after)

/-- A cursor at the end stands behind all that lies beneath its root. -/
theorem Stands.toEnd {s : Store} {k : Cursor ι} (hrep : Represents s c)
    (hstands : k.Stands c scheme r before after) :
    k.toEnd.Stands c scheme r (before ++ after) [] := by
  obtain ⟨hr, htours⟩ := hstands.tour
  have htotal := htours.total (hrep.sound r hr)
  rw [PageRef.header_site] at htotal
  rw [Cursor.toEnd, hstands.root_eq]
  refine ⟨hstands.follows, htotal.symm, { Frame.root r with index := 1 }, [],
    [before ++ after], rfl, rfl, ⟨hr, rfl, _, rfl, htours⟩, Nat.le_refl _, ?_⟩
  simpa [Frame.root] using
    (Within.root : Within c scheme r (.root r) [] (before ++ after) [] (before ++ after) [])

end Cursor
end PageTree
