import PageTree.Proofs.BTree.Unchanged
import PageTree.Proofs.Client.Observers

/-!
# Changes that no one is told of

A client tells a change of a map from none by the root of the tree that it has computed.  A B-tree
that has come from an empty one, in memory or through any life of the clients that share it, keeps
its root through a change that leaves its entries as they are; so the client swaps nothing in and
tells its observer nothing (`BTree.same_iff_unchanged`).  Only a drop from a map without entries
goes unnoticed: it replaces the root and is told of.
-/

namespace PageTree

open StoreM

variable {α : Type}

namespace ClientM

/-- An update by which the tree is the same swaps nothing in and tells nothing. -/
theorem outcome?_updateTree_same {op : Trunk → StoreM (Tree × α)} {notify : α → ClientStepM Unit}
    {w : Scene} {tree : Tree} {a : α} {s : Store}
    (hexec : StoreM.exec (op w.client.trunk) w.store = (.ok (tree, a), s))
    (hsame : tree.same w.client.trunk.tree = true) :
    outcome? (updateTree op notify) w = some (.ok a, ⟨{ w.client with attempts := 1 }, s⟩) := by
  have hattempt : exec (attemptUpdate (fun snapshot => ofStore (op snapshot)) notify)
      w.begun.counted = (.ok (some a), ⟨{ w.client with attempts := 1 }, s⟩) := by
    rw [attemptUpdate, exec_bind]
    show exec (ofStore (op w.client.trunk) >>= _) w.begun.counted = _
    have hcomputed : exec (ofStore (op w.client.trunk)) w.begun.counted =
        (.ok (tree, a), ⟨{ w.client with attempts := 1 }, s⟩) := by
      rw [exec_ofStore, show w.begun.counted.store = w.store from rfl, hexec]
      rfl
    rw [exec_bind, hcomputed]
    show exec (swap w.client.trunk tree a notify) _ = _
    rw [swap, if_pos hsame]
    rfl
  refine (update_repeats _ _).outcome?_iff.2 ⟨1, ?_⟩
  rw [rounds, exec_round, hattempt]

end ClientM

namespace BTree

variable {s s' : Store} {version : Nat} {t t' : Tree} {es : List Entry}

/-! ## Trees that come from an empty one -/

/-- A B-tree that has come from an empty one, and a version at which it may be changed. -/
inductive Reached (s : Store) (version : Nat) (t : Tree) : Prop where
  /-- Any steps have been taken in memory, at any versions and in any order. -/
  | steps {start : Store} {stem : Nat} {created updated : Timestamp} {steps : List (Nat × Step)}
      {trees : List Tree}
      (run : exec (do applySteps [← Tree.empty ⟨.btree, stem, created, updated⟩] steps) start =
        (.ok trees, s))
      (made : t ∈ trees)
  /-- Clients have shared the tree, committed it, let go of its pages and opened it again. -/
  | lives {allowed : Operation → Prop} {seed : Seed} {x : System} {past : List System}
      (lives : System.Lives allowed seed x past) (store : x.store = s)
      (current : x.trunk.version = version) (tree : x.trunk.tree = t) (kind : t.kind = .btree)

theorem Reached.changeable (hreached : Reached s version t) :
    ∃ es, Changeable s version t es := by
  cases hreached with
  | @steps start stem created updated steps trees run made =>
      have hruns : Succeeds
          (do applySteps [← Tree.empty ⟨.btree, stem, created, updated⟩] steps) start
          fun trees s => ∀ t ∈ trees, ∃ es, Settled s t es := by
        apply Succeeding.bind (empty_settled start ⟨.btree, stem, created, updated⟩ rfl)
        intro t₀ s₀ _ hsettled
        apply applySteps_succeeds
        exact fun t ht => ⟨[], by rwa [List.mem_singleton.1 ht]⟩
      obtain ⟨trees', s', hexec, -, hall⟩ := hruns
      cases run.symm.trans hexec
      obtain ⟨es, hsettled⟩ := hall t made
      exact ⟨es, .memory hsettled⟩
  | lives lives store current tree kind =>
      subst store current tree
      obtain ⟨origin, c, hx, -⟩ := lives.coherent
      obtain ⟨es, hcontains⟩ := hx.has.listing kind
      exact ⟨es, .zones hx.represents hcontains⟩

/-! ## What a client asks for -/

/-- What a client computes to make a change. -/
def Change.operation : Change → Operation
  | update key value => .put key value
  | remove key => .remove key
  | drop lower => .drop lower
  | take upper => .take upper
  | clear => .clear

/-- What is asked of a client's map to make a change. -/
def Change.ask : Change → ClientM Unit
  | update key value => discard (OrderedMap.put key value)
  | remove key => discard (OrderedMap.remove key)
  | drop lower => OrderedMap.drop lower
  | take upper => OrderedMap.take upper
  | clear => discard ClientM.clear

/-- To look a key up leaves a tree as it is. -/
theorem Changeable.found (hready : Changeable s version t es) {key : Value} {found : Option Value}
    (hexec : exec (find? t.root key) s = (.ok found, s')) : Changeable s' version t es := by
  cases hready with
  | memory settled =>
      have hroot : Root s t.seed.stem version t.root es := settled.root
      obtain ⟨-, _, _, hexec', hkeeps, -⟩ := find_runs (w := s) rfl key hroot
      cases hexec.symm.trans hexec'
      exact .memory (settled.keep hkeeps)
  | zones represents contains =>
      have hruns : Runs (find? t.root key) s _ _ := find_runs represents key contains.root
      obtain ⟨c', hgrows, -⟩ := hruns.of_ok hexec
      exact .zones hgrows.represents (contains.mono hgrows.le)

/-- What a client computes where nothing is to change is the tree itself. -/
theorem Changeable.run_same (hready : Changeable s version t es) {change : Change}
    (hkeyed : change ≠ .clear) {post : Nat} {result : Tree × Option Value}
    (hexec : exec (change.operation.run ⟨t, version, post⟩) s = (.ok result, s'))
    (hstays : change.onListing es = es) (hover : ¬ change.Overreaches es) :
    result.1.same t = true := by
  -- where the old value is looked up first, the change starts from what that leaves
  have happly : ∃ s₁ s₂, Changeable s₁ version t es ∧
      exec (change.apply t version post) s₁ = (.ok result.1, s₂) := by
    have hafter : ∀ {key : Value} {m : StoreM Tree},
        exec (do
          let old ← find? t.root key
          return (← m, old)) s = (.ok result, s') →
        ∃ s₁ s₂, Changeable s₁ version t es ∧ exec m s₁ = (.ok result.1, s₂) := by
      intro key m hexec
      rw [exec_bind] at hexec
      split at hexec
      · next old s₁ hfound =>
          rw [exec_bind] at hexec
          split at hexec
          · next t' s₂ hmade =>
              cases hexec
              exact ⟨s₁, _, hready.found hfound, hmade⟩
          · cases hexec
      · cases hexec
    have halone : ∀ {m : StoreM Tree},
        exec (do return (← m, (none : Option Value))) s = (.ok result, s') →
          ∃ s₁ s₂, Changeable s₁ version t es ∧ exec m s₁ = (.ok result.1, s₂) := by
      intro m hexec
      rw [exec_bind] at hexec
      split at hexec
      · next t' s₁ hmade =>
          cases hexec
          exact ⟨s, _, hready, hmade⟩
      · cases hexec
    cases change with
    | update key value => exact hafter hexec
    | remove key => exact hafter hexec
    | drop lower => exact halone hexec
    | take upper => exact halone hexec
    | clear => exact absurd rfl hkeyed
  obtain ⟨s₁, s₂, hready₁, hexec₁⟩ := happly
  exact (hready₁.same_iff hkeyed hexec₁).2 ⟨hstays, hover⟩

/-- A client that computes the tree that it has installs nothing and tells nothing. -/
theorem Change.ask_same {change : Change} (hkeyed : change ≠ .clear) {client : Client}
    {result : Tree × Option Value}
    (hexec : exec (change.operation.run client.trunk) s = (.ok result, s'))
    (hsame : result.1.same client.trunk.tree = true) :
    ClientM.outcome? change.ask ⟨client, s⟩ =
      some (.ok (), ⟨{ client with attempts := 1 }, s'⟩) := by
  -- a request that gives the value before, and one that gives nothing
  have hdiscard : ∀ {call : ClientM (Option Value)},
      call = change.operation.request .none →
      ClientM.outcome? (discard call) ⟨client, s⟩ =
        some (.ok (), ⟨{ client with attempts := 1 }, s'⟩) := by
    rintro _ rfl
    have hasked : ClientM.outcome? (change.operation.request .none) ⟨client, s⟩ =
        some (.ok result.2, ⟨{ client with attempts := 1 }, s'⟩) :=
      ClientM.outcome?_updateTree_same (w := ⟨client, s⟩) hexec hsame
    show ClientM.outcome? (change.operation.request .none >>= fun _ => pure ()) _ = _
    rw [ClientM.outcome?_bind, hasked]
    rfl
  have hsilent : ∀ notify : Unit → ClientStepM Unit,
      ClientM.outcome? (ClientM.updateTree
        (fun snapshot => change.operation.runSilently snapshot) notify) ⟨client, s⟩ =
        some (.ok (), ⟨{ client with attempts := 1 }, s'⟩) := by
    intro notify
    have hrun : exec (change.operation.runSilently client.trunk) s =
        (.ok (result.1, ()), s') := by
      rw [Operation.runSilently, exec_bind, hexec]
      rfl
    exact ClientM.outcome?_updateTree_same (w := ⟨client, s⟩) hrun hsame
  cases change with
  | update key value => exact hdiscard (OrderedMap.put_eq key value)
  | remove key => exact hdiscard (OrderedMap.remove_eq key)
  | drop lower =>
      rw [Change.ask, Operation.orderedMap_drop]
      exact hsilent _
  | take upper =>
      rw [Change.ask, Operation.orderedMap_take]
      exact hsilent _
  | clear => exact absurd rfl hkeyed

/-! ## Roots tell changes -/

/-- Whatever a B-tree has come through from an empty one, an update, a removal, a drop or a take
gives the tree itself, known by its root, if and only if it leaves the entries as they are, unless
it drops entries from where there are none.  A client then goes on with the trunk that it had, and
its observer is told nothing. -/
theorem same_iff_unchanged (hreached : Reached s version t) {change : Change}
    (hkeyed : change ≠ .clear) (post : Nat) :
    ∃ es, Changeable s version t es ∧
      (∀ t' s', exec (change.apply t version post) s = (.ok t', s') →
        Changeable s' version t' (change.onListing es) ∧
          (t'.same t = true ↔ change.onListing es = es ∧ ¬ change.Overreaches es)) ∧
      (change.onListing es = es → ¬ change.Overreaches es →
        ∀ client : Client, client.trunk = ⟨t, version, post⟩ →
          ∀ result s', exec (change.operation.run client.trunk) s = (.ok result, s') →
            ClientM.outcome? change.ask ⟨client, s⟩ =
              some (.ok (), ⟨{ client with attempts := 1 }, s'⟩)) := by
  obtain ⟨es, hready⟩ := hreached.changeable
  refine ⟨es, hready, fun t' s' hexec => ?_, ?_⟩
  · exact ⟨(hready.change hexec).1, hready.same_iff hkeyed hexec⟩
  · intro hstays hover client htrunk result s' hexec
    apply Change.ask_same hkeyed hexec
    rw [htrunk] at hexec ⊢
    exact hready.run_same hkeyed hexec hstays hover

/-- An entry is stored in an empty tree.  To keep the first three entries of the tree that is made
changes nothing; to drop an entry from the empty one replaces its root all the same. -/
theorem same_iff_unchanged_one :
    ∃ empty one s, Reached s 2 empty ∧ Reached s 2 one ∧
      (∃ t s', exec (Change.apply one 2 0 (.take 3)) s = (.ok t, s') ∧ t.same one = true) ∧
      ∃ t s', exec (Change.apply empty 2 0 (.drop 1)) s = (.ok t, s') ∧ t.span = 0 ∧
        t.same empty = false := by
  have hrun := exec_eq_ok (m := do
      applySteps [← Tree.empty ⟨.btree, 1, ⟨0⟩, ⟨0⟩⟩]
        [(0, .change (.update (.int 1) (.int 10)) 1 0)])
    (s := .create Settings.forTrials false ⟨0⟩) (by decide +kernel)
  have hempty : Reached _ 2 _ := .steps hrun (List.head_mem (by decide +kernel))
  have hone : Reached _ 2 _ := .steps hrun (List.getLast_mem (by decide +kernel))
  refine ⟨_, _, _, hempty, hone, ⟨_, _, exec_eq_ok (by decide +kernel), ?_⟩,
    _, _, exec_eq_ok (by decide +kernel), by decide +kernel, ?_⟩
  · obtain ⟨es, hready, hchange, -⟩ :=
      same_iff_unchanged hone (show Change.take 3 ≠ .clear by decide) 0
    refine ((hchange _ _ (exec_eq_ok (by decide +kernel))).2).2 ⟨?_, id⟩
    apply List.take_of_length_le
    rw [← hready.span]
    decide +kernel
  · obtain ⟨es, hready, hchange, -⟩ :=
      same_iff_unchanged hempty (show Change.drop 1 ≠ .clear by decide) 0
    rw [← Bool.not_eq_true, ((hchange _ _ (exec_eq_ok (by decide +kernel))).2)]
    refine fun hstays => hstays.2 ⟨by decide, List.length_eq_zero_iff.1 ?_⟩
    rw [← hready.span]
    decide +kernel

end BTree
end PageTree
