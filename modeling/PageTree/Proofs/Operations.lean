import PageTree.Client.OrderedMap
import PageTree.Client.PlaneMap
import PageTree.Client.Register
import PageTree.Proofs.Contents

/-!
# Operations of clients

An `Operation` is what a client does to a tree: it computes a new tree from a snapshot of a trunk
and, for some operations, a value that is given back.  Each operation makes of the content of the
tree what it is meant to make of it, and gives back what the content had (`Operation.run_cases`).
-/

namespace PageTree

open StoreM

/-- What a client does to a tree. -/
inductive Operation where
  | put (key value : Value)
  | remove (key : Value)
  /-- Removes the first entries. -/
  | drop (lower : Nat)
  /-- Keeps only the first entries. -/
  | take (upper : Nat)
  /-- Sets the value of a register. -/
  | set (value : Value)
  /-- Stores a value under a key at a point of the plane. -/
  | putAt (key : Value) (x y : Nat) (value : Value)
  | removeAt (key : Value) (x y : Nat)
  | move (key : Value) (oldX oldY newX newY : Nat) (value : Value)
  | clear
  /-- Moves pages out of the zones that are older than the post of the trunk. -/
  | evacuate
  /-- Folds all values. -/
  | reduce (f : PageRef.Folding)

namespace Operation

/-- Computes a new tree from a snapshot, and the value that is given back. -/
def run [PageLoader] (snapshot : Trunk) : Operation → StoreM (Tree × Option Value)
  | put key value => do
    let old ← BTree.find? snapshot.tree.root key
    return (← BTree.update snapshot.tree key value snapshot.version snapshot.post, old)
  | remove key => do
    let old ← BTree.find? snapshot.tree.root key
    return (← BTree.remove snapshot.tree key snapshot.version snapshot.post, old)
  | drop lower => do
    return (← BTree.drop snapshot.tree lower snapshot.version snapshot.post, none)
  | take upper => do
    return (← BTree.take snapshot.tree upper snapshot.version snapshot.post, none)
  | set value => do
    let old ← UTree.get snapshot.tree
    return (← UTree.update snapshot.tree value snapshot.version snapshot.post, some old)
  | putAt key x y value => do
    let old ← PlaneMap.valueNear? snapshot.tree key x y
    return (← QTree.update snapshot.tree key x y value snapshot.version snapshot.post, old)
  | removeAt key x y => do
    let old ← QTree.get? snapshot.tree key x y
    return (← QTree.remove snapshot.tree key x y snapshot.version snapshot.post, old)
  | move key oldX oldY newX newY value => do
    return (← QTree.move snapshot.tree key oldX oldY newX newY value snapshot.version
      snapshot.post, none)
  | clear => do
    return (← snapshot.tree.cleared snapshot.version, none)
  | evacuate => do
    return (← snapshot.tree.evacuated snapshot.post snapshot.version, none)
  | reduce f => do
    let tree ← snapshot.tree.reduced f snapshot.version
    return (tree, some tree.fold)

/-- The operation is one on trees of a kind. -/
def Suits (kind : TreeKind) : Operation → Prop
  | put _ _ | remove _ | drop _ | take _ => kind = .btree
  | set _ => kind = .utree
  | putAt _ _ _ _ | removeAt _ _ _ | move _ _ _ _ _ _ => kind = .qtree
  | clear | evacuate | reduce _ => True

instance (kind : TreeKind) (op : Operation) : Decidable (op.Suits kind) :=
  match op with
  | put _ _ | remove _ | drop _ | take _ => inferInstanceAs (Decidable (kind = .btree))
  | set _ => inferInstanceAs (Decidable (kind = .utree))
  | putAt _ _ _ _ | removeAt _ _ _ | move _ _ _ _ _ _ =>
    inferInstanceAs (Decidable (kind = .qtree))
  | clear | evacuate | reduce _ => inferInstanceAs (Decidable True)

/-- What the operation makes of a content. -/
def apply : Operation → Content → Content
  | put key value, .listing es => .listing (Listing.update key value es)
  | remove key, .listing es => .listing (Listing.erase key es)
  | drop lower, .listing es => .listing (es.drop lower)
  | take upper, .listing es => .listing (es.take upper)
  | set value, .register _ => .register value
  | putAt key x y value, .plane f => .plane (f.put key x y value)
  | removeAt key x y, .plane f => .plane (f.eraseAt key x y)
  | move key oldX oldY newX newY value, .plane f =>
    .plane (f.move key oldX oldY newX newY value)
  | clear, content => .empty content.kind
  | _, content => content

/-- The value given back is the one that the content had for the operation to change.  A fold is
not a part of the content. -/
def Answers : Operation → Content → Option Value → Prop
  | put key _, .listing es, answer => answer = Listing.lookup key es
  | remove key, .listing es, answer => answer = Listing.lookup key es
  | set _, .register old, answer => answer = some old
  | putAt key _ _ _, .plane f, answer => answer = f.value? key
  | removeAt key x y, .plane f, answer => answer = f.valueAt? key x y
  | reduce _, _, _ => True
  | _, _, answer => answer = none

@[simp] theorem kind_apply (op : Operation) (content : Content) :
    (op.apply content).kind = content.kind := by
  cases op <;> cases content <;> rfl

/-! ## Clients run operations -/

/-- The new tree alone, where an operation gives nothing back. -/
def runSilently (snapshot : Trunk) (op : Operation) : StoreM (Tree × Unit) := do
  return ((← op.run snapshot).1, ())

/-- A put of a defined value, or else the removal that stands in for it. -/
theorem orderedMap_put (key value : Value) :
    OrderedMap.put key value =
      if value.isDefined then
        ClientM.updateTree (fun snapshot => (put key value).run snapshot)
          fun old => ClientM.tell (.update key value (Value.ofOption old))
      else OrderedMap.remove key :=
  rfl

theorem orderedMap_remove (key : Value) :
    OrderedMap.remove key =
      ClientM.updateTree (fun snapshot => (remove key).run snapshot) fun
        | some old => ClientM.tell (.remove key old)
        | none => pure () :=
  rfl

theorem planeMap_put (key : Value) (x y : Nat) (value : Value) :
    PlaneMap.put key x y value =
      ClientM.updateTree (fun snapshot => (putAt key x y value).run snapshot)
        ClientM.tellNoMore :=
  rfl

theorem planeMap_remove (key : Value) (x y : Nat) :
    PlaneMap.remove key x y =
      ClientM.updateTree (fun snapshot => (removeAt key x y).run snapshot) ClientM.tellNoMore :=
  rfl

theorem orderedMap_drop (lower : Nat) :
    OrderedMap.drop lower =
      ClientM.updateTree (fun snapshot => (drop lower).runSilently snapshot)
        fun _ => ClientM.tell (.drop lower) := by
  simp [OrderedMap.drop, runSilently, run]

theorem orderedMap_take (upper : Nat) :
    OrderedMap.take upper =
      ClientM.updateTree (fun snapshot => (take upper).runSilently snapshot)
        fun _ => ClientM.tell (.take upper) := by
  simp [OrderedMap.take, runSilently, run]

theorem planeMap_move (key : Value) (oldX oldY newX newY : Nat) (value : Value) :
    PlaneMap.move key oldX oldY newX newY value =
      ClientM.updateTree
        (fun snapshot => (move key oldX oldY newX newY value).runSilently snapshot)
        ClientM.tellNoMore := by
  simp [PlaneMap.move, runSilently, run]

theorem register_set (value : Value) :
    Register.set value =
      ClientM.updateTree
        (fun snapshot => do
          let (tree, old) ← (set value).run snapshot
          return (tree, Value.ofOption old))
        ClientM.tellNoMore := by
  simp [Register.set, run, Value.ofOption]

theorem clientM_evacuate (post : Nat) :
    ClientM.evacuate post =
      (do
        ClientM.setTrunk ((← ClientM.trunk).raisePost post)
        ClientM.updateTree (fun snapshot => evacuate.runSilently snapshot) ClientM.tellNoMore) := by
  simp [ClientM.evacuate, runSilently, run]

theorem clientM_reduced (f : PageRef.Folding) :
    ClientM.reduced f =
      ClientM.updateTree
        (fun snapshot => do
          let (tree, fold) ← (reduce f).run snapshot
          return (tree, Value.ofOption fold))
        ClientM.tellNoMore := by
  simp [ClientM.reduced, run, Value.ofOption]
/-! ## Contents -/

variable {α β : Type} {s : Store} {c : Chart} {snapshot : Trunk} {content : Content} {op : Operation}

/-- What the operation makes of a tree. -/
def Makes (op : Operation) (snapshot : Trunk) (content : Content) (c : Chart)
    (result : Tree × Option Value) : Prop :=
  snapshot.tree.Rerooted result.1 ∧ c.Has snapshot.version result.1 (op.apply content) ∧
    op.Answers content result.2

/-- The value of a key of the plane wherever it lies. -/
theorem valueNear_runs {f : Plane} {version x y : Nat} {t : Tree} (hrep : Represents s c)
    (hcontains : QTree.Contains c version t f) (key : Value) (hx : x ≤ maxCoordinate)
    (hy : y ≤ maxCoordinate) :
    Runs (PlaneMap.valueNear? t key x y) s c fun found _ _ => found = f.value? key := by
  unfold PlaneMap.valueNear?
  refine Runs.bind (QTree.get_runs hrep hcontains key hx hy) ?_
  rintro found s' c' hgrows rfl
  cases hspot : f key with
  | none =>
      simp only [Plane.valueAt?, hspot, Option.filter_none, Option.map_none]
      refine Runs.bind (QTree.entry_runs hgrows.represents (hcontains.mono hgrows.le) key) ?_
      rintro found s'' c'' hgrows' rfl
      refine Runs.pure hgrows'.represents ?_
      simp [ Plane.entry?, Plane.value?, hspot]
  | some spot =>
      by_cases hat : spot.x = x ∧ spot.y = y
      · simp only [Plane.valueAt?, hspot, Option.filter_some, hat, and_self, decide_true, if_true,
          Option.map_some]
        exact Runs.pure hgrows.represents (by simp [Plane.value?, hspot])
      · simp only [Plane.valueAt?, hspot, Option.filter_some, hat, decide_false,
          Bool.false_eq_true, if_false, Option.map_none]
        refine Runs.bind (QTree.entry_runs hgrows.represents (hcontains.mono hgrows.le) key) ?_
        rintro found s'' c'' hgrows' rfl
        refine Runs.pure hgrows'.represents ?_
        simp [ Plane.entry?, Plane.value?, hspot]

/-- An operation that gives nothing back. -/
theorem runs_silently {m : StoreM Tree} {content' : Content}
    (hm : Runs m s c fun t _ c' =>
      snapshot.tree.Rerooted t ∧ c'.Has snapshot.version t content') :
    Runs (do return (← m, (none : Option Value))) s c fun result _ c' =>
      snapshot.tree.Rerooted result.1 ∧ c'.Has snapshot.version result.1 content' ∧
        result.2 = none := by
  refine Runs.bind hm ?_
  rintro t s' c' hgrows ⟨hrerooted, hhas⟩
  exact Runs.pure hgrows.represents ⟨hrerooted, hhas, rfl⟩

/-- An operation that looks first and gives back what it has found. -/
theorem runs_after {look : StoreM (Option Value)} {m : StoreM Tree} {answer : Option Value}
    {content' : Content} (hhas : c.Has snapshot.version snapshot.tree content)
    (hlook : Runs look s c fun found _ _ => found = answer)
    (hm : ∀ s' c', Represents s' c' → c'.Has snapshot.version snapshot.tree content →
      Runs m s' c' fun t _ c'' =>
        snapshot.tree.Rerooted t ∧ c''.Has snapshot.version t content') :
    Runs (do
        let old ← look
        return (← m, old)) s c fun result _ c' =>
      snapshot.tree.Rerooted result.1 ∧ c'.Has snapshot.version result.1 content' ∧
        result.2 = answer := by
  refine Runs.bind hlook ?_
  rintro found s' c' hgrows rfl
  refine Runs.bind (hm s' c' hgrows.represents (hhas.mono hgrows.le)) ?_
  rintro t s'' c'' hgrows' ⟨hrerooted, hhas'⟩
  exact Runs.pure hgrows'.represents ⟨hrerooted, hhas', rfl⟩

/-- The operation is refused. -/
def Refuses (m : StoreM α) (s : Store) : Prop :=
  ∃ reason, exec m s = (.error (.invalidArgument reason), s)

theorem Refuses.bind {m : StoreM α} (hrefuses : Refuses m s) (f : α → StoreM β) :
    Refuses (m >>= f) s := by
  obtain ⟨reason, hexec⟩ := hrefuses
  exact ⟨reason, by rw [exec_bind, hexec]⟩

/-- What comes after a step that is taken may be refused. -/
theorem Refuses.after {m : StoreM α} {f : α → StoreM β} {a : α} (hexec : exec m s = (.ok a, s))
    (hrefuses : Refuses (f a) s) : Refuses (m >>= f) s := by
  obtain ⟨reason, hexec'⟩ := hrefuses
  exact ⟨reason, by rw [exec_bind, hexec]; exact hexec'⟩

/-- An operation on trees of any kind. -/
theorem run_common (hrep : Represents s c)
    (hhas : c.Has snapshot.version snapshot.tree content) (op : Operation)
    (hop : op = .clear ∨ op = .evacuate ∨ ∃ f, op = .reduce f)
    (hfolds : ∀ f, op = .reduce f → c.foldings f) :
    Runs (op.run snapshot) s c fun result _ c' => op.Makes snapshot content c' result := by
  rcases hop with rfl | rfl | ⟨f, rfl⟩
  · have hcleared := runs_silently (Tree.cleared_runs hrep hhas)
    cases content <;> exact hcleared
  · have hevacuated := runs_silently (Tree.evacuated_runs hrep hhas snapshot.post)
    cases content <;> exact hevacuated
  · refine Runs.bind (Tree.reduced_runs hrep hhas (hfolds f rfl)) ?_
    rintro t s' c' hgrows ⟨hrerooted, hhas', -⟩
    refine Runs.pure hgrows.represents ⟨hrerooted, ?_, ?_⟩
    · cases content <;> exact hhas'
    · cases content <;> trivial

/-- An operation on a B-tree. -/
theorem run_listing {es : List Entry} (hrep : Represents s c)
    (hhas : c.Has snapshot.version snapshot.tree (.listing es)) (hsuits : op.Suits .btree)
    (hfolds : ∀ f, op = .reduce f → c.foldings f) :
    Runs (op.run snapshot) s c fun result _ c' => op.Makes snapshot (.listing es) c' result := by
  have hroot := BTree.Contains.root hhas
  cases op with
  | put key value =>
      refine runs_after hhas (BTree.find_runs hrep key hroot) ?_
      intro s' c' hrep' hhas'
      exact (BTree.update_runs hrep' hhas' key value snapshot.post).mono
        fun _ _ _ _ hpost => ⟨hpost.1, hpost.2.1⟩
  | remove key =>
      refine runs_after hhas (BTree.find_runs hrep key hroot) ?_
      intro s' c' hrep' hhas'
      exact (BTree.update_runs hrep' hhas' key .absent snapshot.post).mono
        fun _ _ _ _ hpost => ⟨hpost.1, hpost.2.1⟩
  | drop lower => exact runs_silently (BTree.drop_runs hrep hhas lower snapshot.post)
  | take upper => exact runs_silently (BTree.take_runs hrep hhas upper snapshot.post)
  | clear => exact run_common hrep hhas _ (Or.inl rfl) hfolds
  | evacuate => exact run_common hrep hhas _ (Or.inr (Or.inl rfl)) hfolds
  | reduce f => exact run_common hrep hhas _ (Or.inr (Or.inr ⟨f, rfl⟩)) hfolds
  | set | putAt | removeAt | move => cases hsuits

/-- An operation on a U-tree. -/
theorem run_register {old : Value} (hrep : Represents s c)
    (hhas : c.Has snapshot.version snapshot.tree (.register old)) (hsuits : op.Suits .utree)
    (hfolds : ∀ f, op = .reduce f → c.foldings f) :
    Runs (op.run snapshot) s c fun result _ c' => op.Makes snapshot (.register old) c' result := by
  cases op with
  | set value =>
      refine Runs.bind (UTree.get_runs hrep hhas) ?_
      rintro found s' c' hgrows rfl
      have hcontains := UTree.Contains.mono hgrows.le hhas
      refine Runs.bind (UTree.update_runs hgrows.represents hcontains value snapshot.post) ?_
      rintro t s'' c'' hgrows' ⟨hrerooted, hhas'⟩
      exact Runs.pure hgrows'.represents ⟨hrerooted, hhas', rfl⟩
  | clear => exact run_common hrep hhas _ (Or.inl rfl) hfolds
  | evacuate => exact run_common hrep hhas _ (Or.inr (Or.inl rfl)) hfolds
  | reduce f => exact run_common hrep hhas _ (Or.inr (Or.inr ⟨f, rfl⟩)) hfolds
  | put | remove | drop | take | putAt | removeAt | move => cases hsuits

/-- An operation on a Q-tree is refused where a point is none of the plane. -/
theorem run_plane {f : Plane} (hrep : Represents s c)
    (hhas : c.Has snapshot.version snapshot.tree (.plane f)) (hsuits : op.Suits .qtree)
    (hfolds : ∀ f, op = .reduce f → c.foldings f) :
    Refuses (op.run snapshot) s ∨
      Runs (op.run snapshot) s c fun result _ c' => op.Makes snapshot (.plane f) c' result := by
  cases op with
  | putAt key x y value =>
      rcases QTree.pointAt_cases x y s with ⟨hx, hy, -⟩ | hrefuses
      · refine Or.inr (runs_after hhas (valueNear_runs hrep hhas key hx hy) ?_)
        intro s' c' hrep' hhas'
        exact QTree.update_runs hrep' hhas' key value snapshot.post hx hy
      · exact Or.inl (((Refuses.bind hrefuses _).bind _).bind _)
  | removeAt key x y =>
      rcases QTree.pointAt_cases x y s with ⟨hx, hy, -⟩ | hrefuses
      · refine Or.inr (runs_after hhas (QTree.get_runs hrep hhas key hx hy) ?_)
        intro s' c' hrep' hhas'
        exact QTree.remove_runs hrep' hhas' key snapshot.post hx hy
      · exact Or.inl ((Refuses.bind hrefuses _).bind _)
  | move key oldX oldY newX newY value =>
      rcases QTree.pointAt_cases oldX oldY s with ⟨holdX, holdY, hold⟩ | hrefuses
      · rcases QTree.pointAt_cases newX newY s with ⟨hx, hy, -⟩ | hrefuses
        · exact Or.inr (runs_silently
            (QTree.move_runs hrep hhas key value snapshot.post hx hy holdX holdY))
        · exact Or.inl ((Refuses.after hold (Refuses.bind hrefuses _)).bind _)
      · exact Or.inl ((Refuses.bind hrefuses _).bind _)
  | clear => exact Or.inr (run_common hrep hhas _ (Or.inl rfl) hfolds)
  | evacuate => exact Or.inr (run_common hrep hhas _ (Or.inr (Or.inl rfl)) hfolds)
  | reduce f => exact Or.inr (run_common hrep hhas _ (Or.inr (Or.inr ⟨f, rfl⟩)) hfolds)
  | put | remove | drop | take | set => cases hsuits

/-- An operation makes of the content what it is meant to make, unless it is refused. -/
theorem run_cases (hrep : Represents s c)
    (hhas : c.Has snapshot.version snapshot.tree content) (hsuits : op.Suits content.kind)
    (hfolds : ∀ f, op = .reduce f → c.foldings f) :
    Refuses (op.run snapshot) s ∨
      Runs (op.run snapshot) s c fun result _ c' => op.Makes snapshot content c' result := by
  cases content with
  | listing es => exact Or.inr (run_listing hrep hhas hsuits hfolds)
  | register old => exact Or.inr (run_register hrep hhas hsuits hfolds)
  | plane f => exact run_plane hrep hhas hsuits hfolds

section Outcomes

variable {s' : Store} (hrep : Represents s c)
  (hhas : c.Has snapshot.version snapshot.tree content) (hsuits : op.Suits content.kind)
  (hfolds : ∀ f, op = .reduce f → c.foldings f)
include hrep hhas hsuits hfolds

/-- What an operation gives is what it is meant to make. -/
theorem makes_of_run {result : Tree × Option Value}
    (hexec : exec (op.run snapshot) s = (.ok result, s')) :
    ∃ c', Grows s c s' c' ∧ op.Makes snapshot content c' result := by
  rcases run_cases hrep hhas hsuits hfolds with ⟨reason, hrefused⟩ | hruns
  · rw [hrefused] at hexec
    cases hexec
  · exact hruns.of_ok hexec

/-- An operation fails because a page cannot be had, or because it is refused. -/
theorem fails_of_run {e : StoreError} (hexec : exec (op.run snapshot) s = (.error e, s')) :
    ∃ c', Grows s c s' c' ∧ (e.IsLoadFailure ∨ ∃ reason, e = .invalidArgument reason) := by
  rcases run_cases hrep hhas hsuits hfolds with ⟨reason, hrefused⟩ | hruns
  · rw [hrefused] at hexec
    cases hexec
    exact ⟨c, .refl hrep, Or.inr ⟨reason, rfl⟩⟩
  · obtain ⟨c', hgrows, hfail, -⟩ := hruns.of_error hexec
    exact ⟨c', hgrows, Or.inl hfail⟩

end Outcomes

end Operation
end PageTree
