import PageTree.Proofs.Posts.Least

/-!
# Operations leave older zones alone

Every operation that changes a tree rebuilds the pages that depend on a zone before the post of the
trunk, so a new root is clear of the older zones (`Operation.run_clears`).  Evacuating is the
operation that does nothing else (`Operation.evacuate_clears`), and folding values makes no page
depend on a zone that the page before did not depend on.
-/

namespace PageTree

open StoreM

variable {α β γ δ : Type} {s s' : Store} {c : Chart} {kind : TreeKind}
  {stem version zone post : Nat} {r : PageRef}

/-! ## What results have in common -/

/-- Every result of the operation has a property. -/
def StoreM.Ensures (m : StoreM α) (P : α → Prop) : Prop :=
  ∀ s a s', exec m s = (.ok a, s') → P a

namespace StoreM.Ensures

variable {P : α → Prop} {Q : β → Prop}

protected theorem pure {a : α} (ha : P a) : Ensures (pure a) P := by
  rintro s a' s' ⟨⟩
  exact ha

theorem throw (e : StoreError) : Ensures (throw e) P := by
  rintro s a' s' ⟨⟩

protected theorem bind {m : StoreM α} {f : α → StoreM β} (hm : Ensures m P)
    (hf : ∀ a, P a → Ensures (f a) Q) : Ensures (m >>= f) Q := by
  intro s b s' hexec
  rw [exec_bind] at hexec
  split at hexec
  · next a s₁ hfirst => exact hf a (hm s a s₁ hfirst) s₁ b s' hexec
  · cases hexec

/-- What comes before does not matter. -/
theorem after {m : StoreM α} {f : α → StoreM β} (hf : ∀ a, Ensures (f a) Q) :
    Ensures (m >>= f) Q :=
  Ensures.bind (P := fun _ => True) (fun _ _ _ _ => trivial) fun a _ => hf a

protected theorem ite {p : Prop} [Decidable p] {m m' : StoreM α} (hthen : p → Ensures m P)
    (helse : ¬ p → Ensures m' P) : Ensures (if p then m else m') P := by
  split
  · next hp => exact hthen hp
  · next hp => exact helse hp

theorem naming {m : StoreM α} (r : PageRef) (hm : Ensures m P) : Ensures (r.naming m) P := by
  intro s a s' hexec
  rw [PageRef.exec_naming] at hexec
  split at hexec
  · next a' s₁ hfirst =>
      cases hexec
      exact hm s a s' hfirst
  · cases hexec

theorem listMapM {f : α → StoreM β} (l : List α) (hf : ∀ a ∈ l, Ensures (f a) Q) :
    Ensures (l.mapM f) fun bs => ∀ b ∈ bs, Q b := by
  induction l with
  | nil => exact .pure fun b hb => absurd hb List.not_mem_nil
  | cons a l ih =>
      rw [List.mapM_cons]
      refine .bind (hf a List.mem_cons_self) fun b hb => ?_
      refine .bind (ih fun a' ha' => hf a' (List.mem_cons_of_mem a ha')) fun bs hbs => ?_
      exact .pure fun b' hb' => (List.mem_cons.1 hb').elim (fun heq => heq ▸ hb) (hbs b')

theorem mapChildren {f : γ → StoreM δ} {R : δ → Prop} (p : Page γ) (version : Nat)
    (hf : ∀ m ∈ p.children, Ensures (f m) R) :
    Ensures (p.mapChildren version f) fun p' => ∀ m ∈ p'.children, R m := by
  rw [Page.mapChildren_eq]
  refine .bind (listMapM p.children hf) fun children hchildren => .pure fun m hm => ?_
  exact hchildren m (Page.mem_of_mem_withChildren hm)

end StoreM.Ensures

/-- What all results have in common holds of the result of a run. -/
theorem Runs.ensuring {m : StoreM α} {P : α → Store → Chart → Prop} {Q : α → Prop}
    (hruns : Runs m s c P) (hm : Ensures m Q) : Runs m s c fun a s' c' => P a s' c' ∧ Q a := by
  rcases hruns.tallied with
    ⟨a, s', c', hexec, hgrows, hsame, ha⟩ | ⟨e, s', c', hexec, hgrows, hfail, hlacks⟩
  · exact Runs.ok hexec hgrows hsame ⟨ha, hm s a s' hexec⟩
  · exact Runs.error hexec hgrows hfail hlacks

/-! ## Rebuilding pages -/

namespace PageRef

/-- A new page is clear of older zones if its children are. -/
theorem ofPage_ensures {page : LivePage} (fold : Value)
    (hchildren : ∀ m ∈ page.children, m.ClearOf zone) :
    Ensures (ofPage page fold) (ClearOf zone) := by
  intro s r s' hexec
  rw [exec_ofPage] at hexec
  cases hexec
  exact ClearOf.of_children (Header.describes_ofPage _ _) (fun hcommitted => by cases hcommitted)
    hchildren

theorem evacuatedWithin_ensures (depth : Nat) (r : PageRef) :
    Ensures (evacuatedWithin zone version depth r) (ClearOf zone) := by
  induction depth generalizing r with
  | zero => exact .throw _
  | succ depth ih =>
      unfold evacuatedWithin
      refine .ite ?_ ?_
      · intro hclear
        refine .pure ?_
        rwa [Bool.or_eq_true, decide_eq_true_eq, decide_eq_true_eq] at hclear
      · intro _
        refine .naming r (.after fun page => ?_)
        exact .bind (.mapChildren page version fun m _ => ih m) fun page' hchildren =>
          ofPage_ensures r.fold hchildren

/-- No page of an evacuated subtree depends on an older zone. -/
theorem evacuated_ensures (r : PageRef) :
    Ensures (r.evacuated zone version) (ClearOf zone) :=
  .after fun _ => evacuatedWithin_ensures _ r

/-- What is beneath a page in use that is clear of older zones is clear of them too. -/
theorem ClearOf.children {page : LivePage} (hclear : r.ClearOf zone) (hrep : Mirrors s c)
    (hr : c.refs r) (hpage : c.page r.site = some (page.map site)) :
    ∀ m ∈ page.children, m.ClearOf zone := by
  have hdesc := (hrep.sound r hr).describes hpage
  rw [header_site, Page.map_site_header] at hdesc
  exact fun m hm => hclear.child hdesc hm

/-- A subtree is clear of older zones with all that lies beneath it. -/
theorem inherited_clearOf (version zone : Nat) :
    Inherited version fun r _ => r.ClearOf zone where
  mono _ hclear := hclear
  child hrep hr hpage hclear := hclear.children hrep hr hpage
  made hmade _ hchildren := by
    refine ClearOf.of_children ?_ (fun hcommitted => ?_) hchildren
    · rw [hmade.header]
      exact Header.describes_ofPage _ _
    · rw [hmade.uncommitted] at hcommitted
      cases hcommitted
  refolded _ hheader hclear := by
    rw [ClearOf, post, hheader]
    exact hclear

/-- Folding values takes a subtree that is clear of older zones to one that is. -/
theorem reduced_clears {f : Folding} (hrep : Represents s c) (hf : c.foldings f)
    (hfit : c.Fit kind stem version r) (hclear : r.ClearOf zone) :
    Runs (r.reduced f version) s c fun r' _ c' =>
      c'.Likeness kind stem version r.site r' ∧ r'.ClearOf zone :=
  (reduced_keeps (inherited_clearOf version zone) hrep hf hfit hclear).mono
    fun _ _ _ _ hpost => ⟨hpost.1.1, hpost.2⟩

end PageRef

/-! ## Changing trees -/

/-- A tree keeps its root, or its new root is clear of the zones before some zone. -/
def Tree.KeepsOrClears (zone : Nat) (t t' : Tree) : Prop :=
  t'.root = t.root ∨ t'.root.ClearOf zone

variable {t : Tree} {snapshot : Trunk} {op : Operation}

theorem Tree.withRoot_keepsOrClears (hclear : r.ClearOf zone) :
    t.KeepsOrClears zone (t.withRoot r) := by
  unfold Tree.withRoot
  split
  · exact Or.inl rfl
  · exact Or.inr hclear

/-- The root that a change ends with has been evacuated. -/
theorem Tree.withRoot_ensures (r : PageRef) :
    Ensures (do return t.withRoot (← r.evacuated zone version)) (t.KeepsOrClears zone) :=
  .bind (PageRef.evacuated_ensures r) fun _ hclear => .pure (t.withRoot_keepsOrClears hclear)

/-- A tree with a root that is clear of older zones, also where that is the root it had. -/
theorem Tree.withRoot_clears {m : StoreM PageRef} {content : Content}
    (hhas : c.Has version t content) (hm : Runs m s c fun r _ c' =>
      c'.Likeness t.seed.kind t.seed.stem version t.root.site r ∧ r.ClearOf zone) :
    Runs (do return t.withRoot (← m)) s c fun t' _ _ => t'.root.ClearOf zone := by
  exact (Tree.withRoot_runs_of (P := fun r _ => r.ClearOf zone) hhas hm).mono
    fun _ _ _ _ hpost => hpost.2.2.2

theorem BTree.rebalanced_ensures (r : PageRef) :
    Ensures (BTree.rebalanced t r version zone) (t.KeepsOrClears zone) :=
  .ite (fun _ => .pure (Or.inl rfl)) fun _ => .after fun r' => Tree.withRoot_ensures r'

theorem QTree.rebalanced_ensures (r : PageRef) :
    Ensures (QTree.rebalanced t r version zone) (t.KeepsOrClears zone) :=
  .ite (fun _ => .pure (Or.inl rfl)) fun _ => .after fun r' => Tree.withRoot_ensures r'

theorem UTree.update_ensures (value : Value) :
    Ensures (UTree.update t value version zone) (t.KeepsOrClears zone) :=
  .after fun _ => .ite (fun _ => .pure (Or.inl rfl)) fun _ =>
    .after fun r => Tree.withRoot_ensures r

theorem QTree.relocate_ensures (key : Value) (old new : Point) (value : Value) :
    Ensures (QTree.relocate t key old new value version zone) (t.KeepsOrClears zone) := by
  have hlast : ∀ r, Ensures (do
      QTree.rebalanced t (← QTree.updated r key new value version) version zone)
      (t.KeepsOrClears zone) :=
    fun r => .after fun r' => QTree.rebalanced_ensures r'
  refine .after fun r => ?_
  dsimp only
  exact .ite (fun _ => .after fun r' => hlast r') fun _ => .after fun r' => hlast r'

/-- What follows the search for the key elsewhere. -/
theorem QTree.putAfterSearch_ensures (key : Value) (point : Point) (value : Value)
    (elsewhere : Option Slot) : Ensures (match elsewhere with
      | some slot => QTree.relocate t key (.ofSlot slot) point value version zone
      | none => do
        QTree.rebalanced t (← QTree.updated t.root key point value version) version zone)
      (t.KeepsOrClears zone) := by
  cases elsewhere with
  | some slot => exact QTree.relocate_ensures key _ point value
  | none => exact .after fun r => QTree.rebalanced_ensures r

theorem QTree.update_ensures (key : Value) (x y : Nat) (value : Value) :
    Ensures (QTree.update t key x y value version zone) (t.KeepsOrClears zone) := by
  refine .after fun point => ?_
  dsimp only
  refine .ite (fun _ => .after fun found => ?_) fun _ =>
    .after (QTree.putAfterSearch_ensures key point value)
  cases found with
  | some slot => exact .after (QTree.putAfterSearch_ensures key point value)
  | none => exact .after (QTree.putAfterSearch_ensures key point value)

theorem QTree.move_ensures (key : Value) (oldX oldY newX newY : Nat) (value : Value) :
    Ensures (QTree.move t key oldX oldY newX newY value version zone) (t.KeepsOrClears zone) := by
  have hlast : ∀ old new (isThere : Bool), Ensures (do
      if isThere then QTree.relocate t key old new value version zone
      else QTree.update t key newX newY value version zone) (t.KeepsOrClears zone) :=
    fun old new isThere => .ite (fun _ => QTree.relocate_ensures key old new value) fun _ =>
      QTree.update_ensures key newX newY value
  refine .after fun old => .after fun new => ?_
  dsimp only
  exact .ite (fun _ => .after fun isThere => hlast old new isThere) fun _ =>
    .after fun _ => .after fun isThere => hlast old new isThere

theorem Tree.cleared_ensures : Ensures (t.cleared version) (t.KeepsOrClears zone) := by
  refine .after fun page => .ite (fun _ => .pure (Or.inl rfl)) fun _ => ?_
  refine .bind (PageRef.ofPage_ensures .absent fun m hm => ?_) fun r hclear =>
    .pure (t.withRoot_keepsOrClears hclear)
  generalize t.kind = kind at hm
  cases kind <;> cases hm

namespace Operation

/-- What gives a tree back gives nothing else that matters. -/
theorem ensures_tree {m : StoreM Tree} {answer : Option Value} {P : Tree → Prop}
    (hm : Ensures m P) : Ensures (do return (← m, answer)) fun result => P result.1 :=
  .bind hm fun _ ht => .pure ht

/-- Every operation but a fold keeps the root, or the new root is clear of the zones before the
post of the trunk. -/
theorem run_ensures (hop : ∀ f, op ≠ .reduce f) :
    Ensures (op.run snapshot) fun result =>
      snapshot.tree.KeepsOrClears snapshot.post result.1 := by
  cases op with
  | put | remove =>
      exact .after fun _ => ensures_tree (.after fun r => BTree.rebalanced_ensures r)
  | drop | take => exact ensures_tree (.after fun r => BTree.rebalanced_ensures r)
  | set value => exact .after fun _ => ensures_tree (UTree.update_ensures value)
  | putAt key x y value => exact .after fun _ => ensures_tree (QTree.update_ensures key x y value)
  | removeAt =>
      exact .after fun _ =>
        ensures_tree (.after fun _ => .after fun r => QTree.rebalanced_ensures r)
  | move key oldX oldY newX newY value =>
      exact ensures_tree (QTree.move_ensures key oldX oldY newX newY value)
  | clear => exact ensures_tree Tree.cleared_ensures
  | evacuate => exact ensures_tree (Tree.withRoot_ensures _)
  | reduce f => exact absurd rfl (hop f)

/-- A tree is given back with something beside it. -/
theorem runs_tree {m : StoreM Tree} {P : Tree → Prop} (hm : Runs m s c fun t _ _ => P t)
    (answer : Tree → Tree × Option Value) (hanswer : ∀ t, (answer t).1 = t := by intro; rfl) :
    Runs (do return answer (← m)) s c fun result _ _ => P result.1 := by
  refine Runs.bind hm ?_
  intro t s' c' hgrows ht
  exact Runs.pure hgrows.represents (by rw [hanswer]; exact ht)

/-- Evacuating leaves a tree that is clear of the zones before the post of the trunk. -/
theorem evacuate_clears {content : Content} {result : Tree × Option Value} (hrep : Represents s c)
    (hhas : c.Has snapshot.version snapshot.tree content)
    (hexec : exec (evacuate.run snapshot) s = (.ok result, s')) :
    result.1.root.ClearOf snapshot.post := by
  have hruns := Tree.withRoot_clears hhas
    ((PageRef.evacuated_runs hrep snapshot.post hhas.fit).ensuring (PageRef.evacuated_ensures _))
  obtain ⟨_, -, hclear⟩ := (runs_tree hruns fun t => (t, none)).of_ok hexec
  exact hclear

/-- Folding values leaves a tree that is clear of older zones so. -/
theorem reduce_clears {content : Content} {f : PageRef.Folding} {result : Tree × Option Value}
    (hrep : Represents s c) (hhas : c.Has snapshot.version snapshot.tree content)
    (hclear : snapshot.tree.root.ClearOf zone)
    (hexec : exec ((reduce f).run snapshot) s = (.ok result, s')) :
    result.1.root.ClearOf zone := by
  -- the operation may be the first that folds with `f`
  have hhas' := hhas.mono (c.le_allow fun g => g = f)
  have hruns := Tree.withRoot_clears hhas'
    (PageRef.reduced_clears (hrep.allow _) (Or.inr rfl) hhas'.fit hclear)
  obtain ⟨_, -, hclear'⟩ := (runs_tree hruns fun t => (t, some t.fold)).of_ok hexec
  exact hclear'

/-- An operation leaves a tree clear of older zones that was, if they are before the post of the
trunk. -/
theorem run_clears {content : Content} {result : Tree × Option Value} (hrep : Represents s c)
    (hhas : c.Has snapshot.version snapshot.tree content)
    (hclear : snapshot.tree.root.ClearOf zone) (hpost : zone ≤ snapshot.post)
    (hexec : exec (op.run snapshot) s = (.ok result, s')) : result.1.root.ClearOf zone := by
  by_cases hop : ∃ f, op = .reduce f
  · obtain ⟨f, rfl⟩ := hop
    exact reduce_clears hrep hhas hclear hexec
  · rcases run_ensures (fun f hf => hop ⟨f, hf⟩) s result s' hexec with hkept | hnew
    · rw [hkept]
      exact hclear
    · exact hnew.mono hpost

end Operation
end PageTree
