import PageTree.Mutation
import PageTree.Proofs.Conduct.Commits
import PageTree.Proofs.Conduct.Cursors

/-!
# What operations on trees leave alone

Of a store, operations on trees touch the memory and the counters; the zones, the settings and
the clocks they leave alone, whether they come to a result or fail.  `Spares act` says so of an
operation from any store on, whatever the store holds.  To spare a store is a conduct (`sparing`),
and what does not come under it, the loading of whole trees, is put together from operations that
spare a store.
-/

namespace PageTree

variable {α β γ σ ε : Type}

open StoreM

/-! ## Sparing a store -/

/-- All of a store but its memory and its counters. -/
def Store.outside (s : Store) : Settings × Bool × Zones × Timestamp × Nat × Nat :=
  (s.settings, s.takesPart, s.zones, s.now, s.uptime, s.lastCommit)

/-- Operations that can be watched for what they do to a store. -/
class Watched (m : Type → Type) [Monad m] where
  /-- The operation leaves all of the store alone but its memory and its counters. -/
  Spares {α : Type} (act : m α) : Prop
  ofPure {α : Type} (a : α) : Spares (pure a : m α)
  ofBind {α β : Type} {act : m α} {f : α → m β} :
    Spares act → (∀ a, Spares (f a)) → Spares (act >>= f)

export Watched (Spares)

instance : Watched (StateM Store) where
  Spares act := ∀ s, (act.run s).2.outside = s.outside
  ofPure _ _ := rfl
  ofBind hact hf s := (hf (_ : _ × Store).1 _).trans (hact s)

instance {m : Type → Type} [Monad m] [Watched m] : Watched (StateT σ m) where
  Spares act := ∀ state, Spares (act.run state)
  ofPure a state := Watched.ofPure (a, state)
  ofBind hact hf state := Watched.ofBind (hact state) fun result => hf result.1 result.2

instance {m : Type → Type} [Monad m] [Watched m] : Watched (ExceptT ε m) where
  Spares act := Spares act.run
  ofPure a := Watched.ofPure (Except.ok a)
  ofBind := by
    intro α β act f hact hf
    refine Watched.ofBind hact fun outcome => ?_
    cases outcome with
    | error e => exact Watched.ofPure (Except.error e)
    | ok a => exact hf a

namespace Watched.Spares

section

variable {m : Type → Type} [Monad m] [Watched m]

protected theorem bind {act : m α} {f : α → m β} (hact : Spares act)
    (hf : ∀ a, Spares (f a)) : Spares (act >>= f) :=
  Watched.ofBind hact hf

protected theorem pure (a : α) : Spares (pure a : m α) :=
  Watched.ofPure a

protected theorem ite {p : Prop} [Decidable p] {act act' : m α} (hact : Spares act)
    (hact' : Spares act') : Spares (if p then act else act') := by
  split
  · exact hact
  · exact hact'

theorem listMapM [LawfulMonad m] {f : α → m β} (hf : ∀ a, Spares (f a)) (l : List α) :
    Spares (l.mapM f) := by
  induction l with
  | nil => exact .pure []
  | cons a l ih =>
      rw [List.mapM_cons]
      exact .bind (hf a) fun _ => .bind ih fun _ => .pure _

theorem listForM {f : α → m PUnit} (hf : ∀ a, Spares (f a)) (l : List α) :
    Spares (l.forM f) := by
  induction l with
  | nil => exact .pure _
  | cons a l ih => exact .bind (hf a) fun _ => ih

theorem listFoldlM {f : β → α → m β} (hf : ∀ b a, Spares (f b a)) (l : List α) (b : β) :
    Spares (l.foldlM f b) := by
  induction l generalizing b with
  | nil => exact .pure _
  | cons a l ih =>
      rw [List.foldlM_cons]
      exact .bind (hf b a) fun b => ih b

theorem mapChildren [LawfulMonad m] {f : β → m γ} (hf : ∀ r, Spares (f r)) (p : Page β)
    (version : Nat) : Spares (p.mapChildren version f) := by
  rw [Page.mapChildren_eq]
  exact .bind (.listMapM hf p.children) fun _ => .pure _

end

protected theorem throw (e : StoreError) : Spares (throw e : StoreM α) := fun _ => rfl

protected theorem get : Spares (get : StoreM Store) := fun _ => rfl

protected theorem tryCatch {act : StoreM α} {f : StoreError → StoreM α} (hact : Spares act)
    (hf : ∀ e, Spares (f e)) : Spares (tryCatch act f) := by
  intro s
  have hs : (exec act s).2.outside = s.outside := hact s
  show (exec (tryCatch act f) s).2.outside = s.outside
  rw [exec_tryCatch]
  generalize exec act s = outcome at hs
  obtain ⟨e | _, s'⟩ := outcome
  · exact (hf e s').trans hs
  · exact hs

theorem ofZones (f : Zones → Except StoreError α) : Spares (ofZones f) := by
  intro s
  show (exec (StoreM.ofZones f) s).2.outside = s.outside
  rw [exec_ofZones]

end Watched.Spares

/-! ## Pages and references -/

namespace PageRef

theorem withFold_spares {r : PageRef} {fold : Value} : Spares (r.withFold fold) :=
  fun _ => rfl

theorem takeFault_spares : Spares takeFault :=
  fun _ => rfl

theorem describe_spares {r : PageRef} : Spares r.describe := fun _ => rfl

theorem naming_spares {r : PageRef} {act : StoreM α} (hact : Spares act) :
    Spares (r.naming act) :=
  .tryCatch hact fun _ => .bind describe_spares fun _ => .throw _

theorem readPage_spares {r : PageRef} : Spares r.readPage := by
  refine .bind takeFault_spares fun failing => .ite (.throw _) (.bind .get fun s => ?_)
  split
  · exact .bind (fun _ => rfl : Spares countLoadFailure) fun _ => .throw _
  · exact .bind (fun _ => rfl : Spares countLoad) fun _ => .mapChildren (fun _ _ => rfl) _ _

theorem load_spares {r : PageRef} : Spares r.load := by
  refine .ite (.bind describe_spares fun _ => .throw _) ?_
  refine .bind readPage_spares fun page => .ite (.throw _) ?_
  exact (fun _ => rfl : Spares (r.keep page))

theorem pageCopy_spares {r : PageRef} : Spares r.pageCopy := by
  refine .bind (fun _ => rfl : Spares r.hold) fun hold => ?_
  split
  · exact .bind (fun _ => rfl : Spares countHit) fun _ => .pure _
  · exact naming_spares (.bind (.ofZones _) fun _ => load_spares)

theorem page_spares {r : PageRef} : Spares r.page :=
  .bind pageCopy_spares fun _ => .pure _

theorem loadTreeWithin_spares {depth : Nat} {r : PageRef} :
    Spares (loadTreeWithin depth r) := by
  induction depth generalizing r with
  | zero => exact .throw _
  | succ depth ih =>
      refine .bind (fun _ => rfl : Spares r.hold) fun hold => ?_
      split
      · exact .bind (fun _ => rfl : Spares (modify _ : StoreM Unit))
          fun _ => .listForM (fun _ => ih) _
      · exact .bind (naming_spares load_spares) fun _ => .listForM (fun _ => ih) _

theorem loadTree_spares {r : PageRef} : Spares r.loadTree :=
  .bind (.ofZones _) fun _ => .bind .get fun _ => loadTreeWithin_spares

end PageRef

/-! ## The conduct -/

/-- To change nothing of a store but its memory and its counters. -/
def sparing : Conduct where
  Later s s' := s'.outside = s.outside
  Fails s _ s' := s'.outside = s.outside
  Tracks _ _ := True
  later_refl _ := rfl
  later_trans hlater hlater' := hlater'.trans hlater
  fails_later hlater hfails := hfails.trans hlater
  refused _ := rfl
  named _ hfails := hfails
  tracks_later _ _ := trivial
  tracks_fails _ _ := trivial
  tracks_held _ _ _ _ := trivial
  found {s r _ _} _ hexec := by
    have hspared : (exec r.pageCopy s).2.outside = s.outside := PageRef.pageCopy_spares s
    rw [hexec] at hspared
    exact ⟨hspared, fun _ _ => trivial⟩
  notFound {s r _ _} _ hexec := by
    have hspared : (exec r.pageCopy s).2.outside = s.outside := PageRef.pageCopy_spares s
    rwa [hexec] at hspared
  copied hexec := by
    cases hexec
    rfl
  made _ hexec := by
    cases hexec
    exact ⟨rfl, trivial⟩
  refolded _ hexec := by
    cases hexec
    exact ⟨rfl, trivial⟩

/-- What obeys the conduct spares a store. -/
theorem Watched.Spares.of_allows {act : StoreM α} (hact : ∀ s, sparing.Allows act s) :
    Spares act := by
  intro s
  show (exec act s).2.outside = s.outside
  rcases (hact s).cases with ⟨a, s', hexec, hlater, -⟩ | ⟨e, s', hexec, hfails⟩
  · rw [hexec]
    exact hlater
  · rw [hexec]
    exact hfails

/-- A cursor may hold anything. -/
theorem sparing_carries (k : Cursor σ) (s : Store) : sparing.Carries k.policy s k :=
  ⟨rfl, fun _ _ _ _ => trivial⟩

/-- A cursor is opened again under its policy. -/
theorem Cursor.reopened_spares (k : Cursor σ) (root : PageRef) (s : Store) :
    (exec (k.reopened root) s).2.outside = s.outside ∧
      ∀ k', (exec (k.reopened root) s).1 = .ok k' → k'.policy = k.policy := by
  have hobeys : sparing.Obeys (k.reopened root) s fun k' s' => sparing.Carries k.policy s' k' :=
    reopened_obeys trivial
  rcases hobeys.cases with ⟨k₁, s', hexec, hlater, hk⟩ | ⟨e, s', hexec, hfails⟩
  · rw [hexec]
    refine ⟨hlater, ?_⟩
    rintro k' ⟨⟩
    exact hk.policy
  · rw [hexec]
    exact ⟨hfails, nofun⟩

/-! ## Trees -/

namespace PageRef

theorem commitInto_spares {ω : Type} [Sink ω] {r : PageRef} {diff : DiffWriter ω} :
    Spares (r.commitInto diff) :=
  .of_allows fun _ => (commitInto_obeys (fun _ _ => rfl) trivial).allows

theorem pairCommitted_spares {r counterpart : PageRef} :
    Spares (r.pairCommitted counterpart) :=
  .of_allows fun _ => (pairCommitted_obeys trivial).allows

end PageRef

namespace Tree

variable {t : Tree} {version : Nat}

theorem cleared_spares : Spares (t.cleared version) :=
  .of_allows fun _ => (cleared_obeys trivial).allows

theorem withCommittedRoot_spares {root : PageRef} : Spares (t.withCommittedRoot root) :=
  .ite (.pure _) (.bind .get fun _ => .pure _)

theorem buildDiff_spares {zone base : Nat} : Spares (t.buildDiff zone base version) :=
  .bind PageRef.commitInto_spares fun _ =>
    .bind withCommittedRoot_spares fun _ => .pure _

theorem committed_spares {zone base : Nat} : Spares (t.committed zone base version) :=
  .bind (.bind PageRef.commitInto_spares fun _ => .pure _) fun _ =>
    withCommittedRoot_spares

theorem evacuated_spares {post : Nat} : Spares (t.evacuated post version) :=
  .of_allows fun _ => (evacuated_obeys trivial).allows

theorem rebased_spares {pairs : PageRef.CommitPairs} : Spares (t.rebased pairs) :=
  .of_allows fun _ => (rebased_obeys trivial fun _ _ => trivial).allows

theorem loaded_spares : Spares t.loaded :=
  .bind PageRef.loadTree_spares fun _ => .pure _

end Tree

theorem Operation.run_spares (snapshot : Trunk) (op : Operation) : Spares (op.run snapshot) :=
  .of_allows fun _ => (op.run_obeys snapshot trivial).allows

theorem Query.run_spares (t : Tree) (query : Query) : Spares (query.run t) :=
  .of_allows fun _ => query.run_obeys t trivial

/-! ## Changes written down -/

theorem parseValue_spares {text : String} : Spares (StoreM.parseValue text) := by
  unfold StoreM.parseValue
  split
  · exact .pure _
  · exact .throw _

theorem Mutation.apply_spares {t : Tree} {mutation : Mutation} :
    Spares (mutation.apply t) := by
  -- what a tree is changed to is computed as by an operation on it
  have hchange : ∀ {act : StoreM Tree} {t : Tree},
      (∀ s, sparing.Obeys act s (sparing.Follows t)) → Spares act :=
    fun hact => .of_allows fun s => (hact s).allows
  cases mutation with
  | put =>
      exact .bind parseValue_spares fun _ => .bind parseValue_spares
        fun _ => hchange fun _ => BTree.update_obeys trivial
  | remove => exact .bind parseValue_spares fun _ => hchange fun _ => BTree.update_obeys trivial
  | drop => exact hchange fun _ => BTree.drop_obeys trivial
  | take => exact hchange fun _ => BTree.take_obeys trivial
  | fill => exact .listFoldlM (fun _ _ => hchange fun _ => BTree.update_obeys trivial) _ _
  | set => exact .bind parseValue_spares fun _ => hchange fun _ => UTree.update_obeys trivial
  | putAt =>
      exact .bind parseValue_spares fun _ => .bind parseValue_spares
        fun _ => hchange fun _ => QTree.update_obeys trivial
  | removeAt => exact .bind parseValue_spares fun _ => hchange fun _ => QTree.remove_obeys trivial
  | move =>
      exact .bind parseValue_spares fun _ => .bind parseValue_spares
        fun _ => hchange fun _ => QTree.move_obeys trivial
  | fillGrid => exact .listFoldlM (fun _ _ => hchange fun _ => QTree.update_obeys trivial) _ _
  | clear => exact Tree.cleared_spares
  | commit => exact Tree.committed_spares
  | uncommit => exact hchange fun _ => Tree.uncommitted_obeys trivial
  | evacuate => exact Tree.evacuated_spares
  | load => exact Tree.loaded_spares
  | reduce => exact .bind parseValue_spares fun _ => hchange fun _ => Tree.reduced_obeys trivial
  | withFold =>
      exact .bind parseValue_spares fun _ =>
        .bind PageRef.withFold_spares fun _ => .pure _
  | setResident | setTransient => exact .pure _

end PageTree
