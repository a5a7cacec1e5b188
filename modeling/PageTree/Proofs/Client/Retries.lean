import PageTree.Client.Trial
import PageTree.Client.Register
import PageTree.Proofs.References

/-!
# Operations that are retried

An operation of a client is a series of attempts, and each finds what the one before has left.
An attempt that was overtaken is followed by another; so is one that failed, if the error is
not fatal and retries are left.  `Retried` is such a series with all that happens between its
attempts: after the last failure that the settings let pass, and at no other point, the client
gives up the entries of the tree if the policy lets it.

The loop of an update has no bound, so an operation may go on for ever and have no outcome.
`ClientM.rounds` follows it for so many rounds, and it comes to what some number of rounds comes to
(`outcome?_repeating_iff`).  `Settles attempt` says how a series ends: with the first result, with
a fatal error or with the failure that finds no retry left, and with nothing else; a series that
has no end is overtaken without end (`reads_and_updates_settle`).
-/

namespace PageTree

variable {α β : Type}

open StoreM

/-- A client and the store that it works on. -/
structure Scene where
  client : Client
  store : Store

namespace Scene

/-- How often an operation is retried. -/
def maxRetries (w : Scene) : Nat := w.store.settings.maxRetries

/-- The policy lets the client give up the entries of its tree. -/
def mayReset (w : Scene) : Bool :=
  w.store.settings.failurePolicy.allowsReset w.client.trunk.tree.isTransient

/-- One attempt more has been begun. -/
def counted (w : Scene) : Scene :=
  { w with client := { w.client with attempts := w.client.attempts + 1 } }

/-- No attempt has been begun yet. -/
def begun (w : Scene) : Scene :=
  { w with client := { w.client with attempts := 0 } }

/-- The client has another tree in its trunk. -/
def withTree (w : Scene) (t : Tree) : Scene :=
  { w with client := { w.client with trunk := { w.client.trunk with tree := t } } }

@[simp] theorem maxRetries_counted (w : Scene) : w.counted.maxRetries = w.maxRetries := rfl

end Scene

namespace ClientM

/-! ## Taking steps of a client -/

/-- The outcome of a step, and what it leaves. -/
def exec (act : ClientStepM α) (w : Scene) : Except StoreError α × Scene :=
  let ((outcome, client), store) := (act.run.run w.client).run w.store
  (outcome, ⟨client, store⟩)

@[simp] theorem exec_pure (a : α) (w : Scene) : exec (pure a) w = (.ok a, w) := rfl

theorem exec_bind (act : ClientStepM α) (f : α → ClientStepM β) (w : Scene) :
    exec (act >>= f) w =
      match exec act w with
      | (.ok a, w') => exec (f a) w'
      | (.error e, w') => (.error e, w') := by
  simp only [exec, ExceptT.run_bind, StateT.run_bind]
  generalize ((act.run.run w.client).run w.store : Id _) = outcome
  obtain ⟨⟨_ | _, client⟩, store⟩ := outcome <;> rfl

@[simp] theorem exec_throw (e : StoreError) (w : Scene) :
    exec (throw e : ClientStepM α) w = (.error e, w) := rfl

theorem exec_ofStore (act : StoreM α) (w : Scene) :
    exec (ofStore act) w =
      ((StoreM.exec act w.store).1, ⟨w.client, (StoreM.exec act w.store).2⟩) := rfl

theorem exec_attempting (act : ClientStepM α) (w : Scene) :
    exec (attempting act) w = (.ok (exec act w).1, (exec act w).2) := rfl

theorem exec_ignoring (act : ClientStepM α) (w : Scene) :
    exec (ignoring act) w = (.ok (), (exec act w).2) := rfl

/-! ## Operations of a client -/

/-- The outcome of an operation, and what it leaves; none if it goes on for ever. -/
def outcome? (act : ClientM α) (w : Scene) : Option (Except StoreError α × Scene) :=
  ((act.run.run w.client).run w.store).map fun run => (run.1.1, ⟨run.1.2, run.2⟩)

theorem outcome?_liftM (act : ClientStepM α) (w : Scene) :
    outcome? (liftM act) w = some (exec act w) := rfl

theorem outcome?_bind (act : ClientM α) (f : α → ClientM β) (w : Scene) :
    outcome? (act >>= f) w =
      match outcome? act w with
      | some (.ok a, w') => outcome? (f a) w'
      | some (.error e, w') => some (.error e, w')
      | none => none := by
  simp only [outcome?, ExceptT.run_bind, StateT.run_bind]
  generalize ((act.run.run w.client).run w.store : Option _) = outcome
  obtain _ | ⟨⟨_ | _, client⟩, store⟩ := outcome <;> rfl

/-! ## Operations that cannot fail -/

/-- The operation comes to a result wherever it begins. -/
def NeverFails (act : ClientStepM α) : Prop :=
  ∀ w, ∃ a w', exec act w = (.ok a, w')

namespace NeverFails

protected theorem pure (a : α) : NeverFails (pure a) := fun w => ⟨a, w, rfl⟩

protected theorem bind {act : ClientStepM α} {f : α → ClientStepM β} (hact : NeverFails act)
    (hf : ∀ a, NeverFails (f a)) : NeverFails (act >>= f) := by
  intro w
  obtain ⟨a, w', hexec⟩ := hact w
  obtain ⟨b, w'', hexec'⟩ := hf a w'
  exact ⟨b, w'', by rw [exec_bind, hexec]; exact hexec'⟩

theorem tell (event : Event) : NeverFails (tell event) := by
  refine .bind (fun w => ⟨w.client, w, rfl⟩ : NeverFails (get : ClientStepM Client)) fun client => ?_
  split
  · exact fun w => ⟨(), _, rfl⟩
  · exact .pure _

theorem didChange (new old : Tree) : NeverFails (didChange new old) := by
  refine .bind (tell _) fun _ => .bind ?_ fun request => ?_
  · refine .bind (fun w => ⟨w.store, w, rfl⟩ : NeverFails (ofStore get)) fun s => ?_
    split <;> exact .pure _
  · cases request with
    | none => exact .pure _
    | some request => exact fun w => ⟨(), _, rfl⟩

end NeverFails
end ClientM

/-! ## Giving up -/

/-- The entries of the tree have been given up: a tree without entries has taken its place, those
who watch have been told, and the commit has been made that the store then asks for.  A tree
known to have none stays. -/
def Scene.Clears (w w' : Scene) : Prop :=
  ∃ t s, StoreM.exec (w.client.trunk.tree.cleared w.client.trunk.version) w.store = (.ok t, s) ∧
    (w.client.trunk.tree.root.id < w.store.cells.size → t.span = 0) ∧
    w' = if t.same w.client.trunk.tree then ⟨w.client, s⟩
      else (ClientM.exec (do
        ClientM.tell .clear
        ClientM.didChange t w.client.trunk.tree) (Scene.withTree ⟨w.client, s⟩ t)).2

/-- What a client does when it gives up: it clears the tree if and only if the policy lets it. -/
def Scene.GivesUp (w w' : Scene) : Prop :=
  if w.mayReset then w.Clears w' else w' = w

/-- Clearing a tree gives one without entries. -/
theorem Tree.exec_cleared (t : Tree) (version : Nat) (s : Store) :
    ∃ t' s', StoreM.exec (t.cleared version) s = (.ok t', s') ∧
      (t.root.id < s.cells.size → t'.span = 0) := by
  unfold cleared
  rw [StoreM.exec_bind]
  show ∃ t' s', StoreM.exec (if t.span = 0 && _ then _ else _) s = _ ∧ _
  split
  · next hempty =>
      rw [Bool.and_eq_true] at hempty
      exact ⟨t, s, rfl, fun _ => of_decide_eq_true hempty.1⟩
  · rw [StoreM.exec_bind, PageRef.exec_ofPage]
    refine ⟨_, _, rfl, fun hfresh => ?_⟩
    unfold withRoot
    rw [if_neg]
    · show (Page.empty t.kind t.seed.stem version : LivePage).stored.span = 0
      cases t.kind <;> rfl
    · simp [PageRef.same]
      omega

/-- A trunk that has not moved since a snapshot takes the tree that was computed from it. -/
theorem Trunk.updateTree_self (t : Trunk) (tree : Tree) :
    t.updateTree t.tree tree t.version = (true, { t with tree }) := by
  simp [updateTree, isAt, Tree.same, PageRef.same]

/-- What it leaves to give up the entries is one thing. -/
theorem Scene.GivesUp.unique {w w₁ w₂ : Scene} (h₁ : w.GivesUp w₁) (h₂ : w.GivesUp w₂) :
    w₁ = w₂ := by
  unfold GivesUp at h₁ h₂
  by_cases hreset : w.mayReset
  · rw [if_pos hreset] at h₁ h₂
    obtain ⟨t, s, hexec, -, rfl⟩ := h₁
    obtain ⟨t', s', hexec', -, rfl⟩ := h₂
    cases hexec.symm.trans hexec'
    rfl
  · rw [if_neg hreset] at h₁ h₂
    rw [h₁, h₂]

namespace ClientM

/-- What a client does with the tree that clearing gives: it swaps the tree in and tells of it,
unless it is the tree that there was. -/
theorem exec_clear_of_cleared {w : Scene} {t : Tree} {s : Store}
    (hexec : StoreM.exec (w.client.trunk.tree.cleared w.client.trunk.version) w.store = (.ok t, s)) :
    exec clear w =
      if t.same w.client.trunk.tree then (.ok false, ⟨w.client, s⟩)
      else (.ok true, (exec (do
        tell .clear
        didChange t w.client.trunk.tree) (Scene.withTree ⟨w.client, s⟩ t)).2) := by
  have hcleared : exec (ofStore (w.client.trunk.tree.cleared w.client.trunk.version)) w =
      (.ok t, ⟨w.client, s⟩) := by
    rw [exec_ofStore, hexec]
  have hclear : exec clear w =
      exec (if t.same w.client.trunk.tree then pure false else do
        setTrunk (w.client.trunk.updateTree w.client.trunk.tree t w.client.trunk.version).2
        tell .clear
        didChange t w.client.trunk.tree
        return true) ⟨w.client, s⟩ := by
    unfold clear
    rw [exec_bind]
    show exec (ofStore _ >>= _) w = _
    rw [exec_bind, hcleared]
  cases hsame : t.same w.client.trunk.tree with
  | true => rw [hclear, hsame, if_pos rfl, if_pos rfl, exec_pure]
  | false =>
      -- what follows the swap cannot fail
      obtain ⟨b, w', hrest⟩ := (NeverFails.tell .clear).bind
        (fun _ => NeverFails.didChange t w.client.trunk.tree) (Scene.withTree ⟨w.client, s⟩ t)
      rw [hclear, hsame, if_neg Bool.false_ne_true, if_neg Bool.false_ne_true,
        Trunk.updateTree_self, hrest]
      show exec (do
        tell .clear
        didChange t w.client.trunk.tree
        return true) (Scene.withTree ⟨w.client, s⟩ t) = _
      rw [exec_bind] at hrest ⊢
      split at hrest
      · next w'' htold =>
          rw [exec_bind, hrest]
          rfl
      · cases hrest

theorem exec_clear (w : Scene) : ∃ b w', exec clear w = (.ok b, w') ∧ w.Clears w' := by
  obtain ⟨t, s, hexec, hspan⟩ := w.client.trunk.tree.exec_cleared w.client.trunk.version w.store
  rw [exec_clear_of_cleared hexec]
  cases hsame : t.same w.client.trunk.tree with
  | true => exact ⟨false, _, rfl, t, s, hexec, hspan, by rw [hsame, if_pos rfl]⟩
  | false => exact ⟨true, _, rfl, t, s, hexec, hspan, by rw [hsame, if_neg Bool.false_ne_true]⟩

theorem exec_giveUp (w : Scene) : ∃ w', exec giveUp w = (.ok (), w') ∧ w.GivesUp w' := by
  obtain ⟨b, w', hexec, hclears⟩ := exec_clear w
  have hgiveUp : exec giveUp w = exec (if w.mayReset then ignoring clear else pure ()) w := rfl
  rw [hgiveUp]
  unfold Scene.GivesUp
  cases w.mayReset with
  | true => exact ⟨w', by rw [if_pos rfl, exec_ignoring, hexec], hclears⟩
  | false => exact ⟨w, rfl, rfl⟩

/-! ## Attempts in rounds -/

theorem givesUp_iff {w w' : Scene} : w.GivesUp w' ↔ exec giveUp w = (.ok (), w') := by
  obtain ⟨w₁, hexec, hgivesUp⟩ := exec_giveUp w
  constructor
  · intro h
    rw [hexec, hgivesUp.unique h]
  · intro h
    cases hexec.symm.trans h
    exact hgivesUp

/-- What a client does with a failure that leaves so many retries. -/
theorem exec_pass (e : StoreError) (left : Nat) (w : Scene) :
    exec (pass e left) w =
      if e.isFatal then (.error e, w) else if left = 0 then exec giveUp w else (.ok (), w) := by
  unfold pass
  cases e.isFatal <;> cases left <;> rfl

section

variable {attempt : ClientStepM (Option α)} {n left : Nat} {w : Scene}
  {run : Except StoreError α × Scene}

theorem exec_round (attempt : ClientStepM (Option α)) (left : Nat) (w : Scene) :
    exec (round attempt left) w =
      match exec attempt w.counted, left with
      | (.ok (some a), w'), _ => (.ok (.inl a), w')
      | (.ok none, w'), left => (.ok (.inr left), w')
      | (.error e, w'), 0 => (.error e, w')
      | (.error e, w'), left + 1 =>
        match exec (pass e left) w' with
        | (.ok (), w'') => (.ok (.inr left), w'')
        | (.error e', w'') => (.error e', w'') := by
  rw [round, exec_bind]
  show exec (attempting attempt >>= _) w.counted = _
  rw [exec_bind, exec_attempting]
  generalize exec attempt w.counted = made
  obtain ⟨e | _ | a, w'⟩ := made
  · cases left with
    | zero => rfl
    | succ left =>
        show exec (pass e left >>= _) w' = _
        rw [exec_bind]
        dsimp only
        generalize exec (pass e left) w' = passed
        obtain ⟨_ | _, _⟩ := passed <;> rfl
  · rfl
  · rfl

/-- What so many rounds come to at most, with so many retries; none if there is to be another. -/
def rounds (attempt : ClientStepM (Option α)) :
    (rounds left : Nat) → Scene → Option (Except StoreError α × Scene)
  | 0, _, _ => none
  | n + 1, left, w =>
    match exec (round attempt left) w with
    | (.ok (.inl a), w') => some (.ok a, w')
    | (.ok (.inr left'), w') => rounds attempt n left' w'
    | (.error e, w') => some (.error e, w')

/-- What has come to an end is not changed by a further round. -/
theorem rounds_succ (h : rounds attempt n left w = some run) :
    rounds attempt (n + 1) left w = some run := by
  induction n generalizing left w with
  | zero => cases h
  | succ n ih =>
      rw [rounds] at h ⊢
      generalize exec (round attempt left) w = made at h ⊢
      obtain ⟨e | a | left', w'⟩ := made
      · exact h
      · exact h
      · exact ih h

theorem rounds_add (h : rounds attempt n left w = some run) (more : Nat) :
    rounds attempt (n + more) left w = some run := by
  induction more with
  | zero => exact h
  | succ more ih => exact rounds_succ ih

/-- The loop begins with a round. -/
theorem outcome?_repeating (attempt : ClientStepM (Option α)) (left : Nat) (w : Scene) :
    outcome? (repeating attempt left) w =
      match exec (round attempt left) w with
      | (.ok (.inl a), w') => some (.ok a, w')
      | (.ok (.inr left'), w') => outcome? (repeating attempt left') w'
      | (.error e, w') => some (.error e, w') := by
  have hrepeating : outcome? (repeating attempt left) w =
      (attempt.repeatFrom left w.client w.store).map fun run =>
        (run.1.1, ⟨run.1.2, run.2⟩) := rfl
  rw [hrepeating, ClientStepM.repeatFrom]
  unfold exec
  generalize ((round attempt left).run.run w.client).run w.store = made
  obtain ⟨⟨e | a | left', client⟩, store⟩ := made <;> rfl

/-- The loop comes to what some number of rounds comes to, and to nothing else. -/
theorem outcome?_repeating_iff :
    outcome? (repeating attempt left) w = some run ↔ ∃ n, rounds attempt n left w = some run := by
  constructor
  · intro hrun
    obtain ⟨found, hfound, rfl⟩ := Option.map_eq_some_iff.1 hrun
    refine ClientStepM.repeatFrom.partial_correctness attempt
      (fun left client store found => ∃ n, rounds attempt n left ⟨client, store⟩ =
        some (found.1.1, ⟨found.1.2, found.2⟩)) ?_ left w.client w.store found hfound
    intro loop ih left client store found hloop
    have hexec : exec (round attempt left) ⟨client, store⟩ =
        (let ((outcome, client'), store') := ((round attempt left).run.run client).run store
        (outcome, ⟨client', store'⟩)) := rfl
    generalize ((round attempt left).run.run client).run store = made at hloop hexec
    obtain ⟨⟨e | a | left', client'⟩, store'⟩ := made
    · cases hloop
      exact ⟨1, by rw [rounds, hexec]⟩
    · cases hloop
      exact ⟨1, by rw [rounds, hexec]⟩
    · obtain ⟨n, hn⟩ := ih left' client' store' found hloop
      exact ⟨n + 1, by rw [rounds, hexec]; exact hn⟩
  · rintro ⟨n, hn⟩
    induction n generalizing left w with
    | zero => cases hn
    | succ n ih =>
        rw [outcome?_repeating]
        rw [rounds] at hn
        generalize exec (round attempt left) w = made at hn
        obtain ⟨e | a | left', w'⟩ := made
        · exact hn
        · exact hn
        · exact ih hn

/-- An attempt that is never overtaken has come to its end when all retries are used up. -/
theorem rounds_retrying (attempt : ClientStepM α) (left : Nat) (w : Scene) :
    rounds (do return some (← attempt)) (left + 1) left w =
      some (exec (retrying attempt left) w) := by
  have hmade : ∀ w, exec (do return some (← attempt)) w =
      match exec attempt w with
      | (.ok a, w') => (.ok (some a), w')
      | (.error e, w') => (.error e, w') := by
    intro w
    rw [exec_bind]
    rfl
  induction left generalizing w with
  | zero =>
      have hretrying : exec (retrying attempt 0) w = exec attempt w.counted := rfl
      rw [rounds, exec_round, hmade, hretrying]
      generalize exec attempt w.counted = made
      obtain ⟨_ | _, _⟩ := made <;> rfl
  | succ left ih =>
      rw [retrying, exec_bind]
      show _ = some (exec (attempting attempt >>= _) w.counted)
      rw [exec_bind, exec_attempting, rounds, exec_round, hmade]
      generalize exec attempt w.counted = made
      obtain ⟨e | a, w'⟩ := made
      · show _ = some (exec (pass e left >>= _) w')
        rw [exec_bind]
        dsimp only
        generalize exec (pass e left) w' = passed
        obtain ⟨e' | _, w''⟩ := passed
        · rfl
        · exact ih w''
      · rfl

end

/-! ## Reads and updates -/

/-- The operation begins with no attempt counted and goes from round to round of an attempt. -/
def Repeats (act : ClientM α) (attempt : ClientStepM (Option α)) : Prop :=
  ∀ start, outcome? act start = outcome? (repeating attempt start.maxRetries) start.begun

theorem Repeats.outcome?_iff {act : ClientM α} {attempt : ClientStepM (Option α)}
    (h : Repeats act attempt) {start : Scene} {run : Except StoreError α × Scene} :
    outcome? act start = some run ↔
      ∃ n, rounds attempt n start.maxRetries start.begun = some run := by
  rw [h start, outcome?_repeating_iff]

/-- An attempt to read the current tree. -/
def reading (op : Tree → ClientStepM α) : ClientStepM (Option α) := do
  let a ← op (← trunk).tree
  return some a

theorem read_repeats (op : Tree → ClientStepM α) : Repeats (liftM (read op)) (reading op) := by
  intro start
  have hread : exec (read op) start =
      exec (retrying (do op (← trunk).tree) start.maxRetries) start.begun := rfl
  have hreading : reading op = do return some (← (do op (← trunk).tree)) := by
    simp [reading]
  rw [outcome?_liftM, hread, hreading]
  exact (outcome?_repeating_iff.2 ⟨_, rounds_retrying _ _ _⟩).symm

theorem update_repeats (op : Trunk → ClientStepM (Tree × α)) (notify : α → ClientStepM Unit) :
    Repeats (update op notify) (attemptUpdate op notify) :=
  fun _ => rfl

/-- A tree other than that of the trunk is swapped in where the trunk has not moved. -/
theorem exec_swap_of_moved {tree : Tree} {w : Scene}
    (hmoved : tree.same w.client.trunk.tree = false) (a : α) (notify : α → ClientStepM Unit) :
    exec (swap w.client.trunk tree a notify) w =
      exec (do
        notify a
        didChange tree w.client.trunk.tree
        return some a) (w.withTree tree) := by
  rw [swap, hmoved, if_neg Bool.false_ne_true, exec_bind]
  show exec (do
    let swapped := w.client.trunk.updateTree w.client.trunk.tree tree w.client.trunk.version
    setTrunk swapped.2
    if swapped.1 then
      notify a
      didChange tree w.client.trunk.tree
      return some a
    else
      return none) w = _
  rw [Trunk.updateTree_self]
  rfl

/-- An update whose trunk stays where it is while the tree is computed is not overtaken. -/
theorem attemptUpdate_lands {op : Trunk → ClientStepM (Tree × α)} {notify : α → ClientStepM Unit}
    (hop : ∀ w, (exec (op w.client.trunk) w).2.client.trunk = w.client.trunk) (w : Scene) :
    (exec (attemptUpdate op notify) w).1 ≠ .ok none := by
  have hattempt : exec (attemptUpdate op notify) w =
      exec (do
        let result ← op w.client.trunk
        swap w.client.trunk result.1 result.2 notify) w := by
    rw [attemptUpdate, exec_bind]
    rfl
  have hstays := hop w
  rw [hattempt, exec_bind]
  generalize exec (op w.client.trunk) w = computed at hstays
  obtain ⟨e | ⟨tree, a⟩, w'⟩ := computed
  · exact nofun
  · dsimp only at hstays ⊢
    rw [← hstays]
    cases hmoved : tree.same w'.client.trunk.tree with
    | true =>
        rw [swap, if_pos hmoved]
        exact nofun
    | false =>
        rw [exec_swap_of_moved hmoved, exec_bind]
        split
        · rw [exec_bind]
          split <;> exact nofun
        · exact nofun

/-! ## Attempts in series -/

/-- The outcome is a failure. -/
def failed : Except StoreError (Option α) → Bool
  | .error _ => true
  | .ok _ => false

/-- The number of failures among outcomes. -/
def failures (outcomes : List (Except StoreError (Option α))) : Nat :=
  outcomes.countP failed

/-- The number of attempts among outcomes that were overtaken. -/
def overtakings (outcomes : List (Except StoreError (Option α))) : Nat :=
  outcomes.countP fun outcome => !failed outcome

/-- Attempts after which an operation goes on, with their outcomes in order: what they have led
to, and how often the client has given up the entries of the tree on the way. -/
inductive Retried (attempt : ClientStepM (Option α)) (start : Scene) :
    List (Except StoreError (Option α)) → (resets : Nat) → Scene → Prop where
  | start : Retried attempt start [] 0 start
  /-- An attempt that was overtaken is made again. -/
  | overtaken {outcomes : List (Except StoreError (Option α))} {resets : Nat} {w w' : Scene}
      (before : Retried attempt start outcomes resets w)
      (made : exec attempt w.counted = (.ok none, w')) :
      Retried attempt start (outcomes ++ [.ok none]) resets w'
  /-- After a failure that is not fatal and leaves more than one retry, the attempt is made
  again. -/
  | failed {outcomes : List (Except StoreError (Option α))} {resets : Nat} {w w' : Scene}
      {e : StoreError} (before : Retried attempt start outcomes resets w)
      (made : exec attempt w.counted = (.error e, w')) (minor : e.isFatal = false)
      (left : failures outcomes + 1 < start.maxRetries) :
      Retried attempt start (outcomes ++ [.error e]) resets w'
  /-- After the failure that leaves the last retry, the client first gives up the entries. -/
  | exhausted {outcomes : List (Except StoreError (Option α))} {resets : Nat} {w w' w'' : Scene}
      {e : StoreError} (before : Retried attempt start outcomes resets w)
      (made : exec attempt w.counted = (.error e, w')) (minor : e.isFatal = false)
      (last : failures outcomes + 1 = start.maxRetries) (givesUp : w'.GivesUp w'') :
      Retried attempt start (outcomes ++ [.error e]) (resets + 1) w''

/-- How an operation ends with an attempt that comes after so many failures: with its result,
or with its error if that is fatal or no retry is left. -/
inductive Ends (maxRetries failures : Nat) :
    Except StoreError (Option α) → Except StoreError α → Prop where
  | result (a : α) : Ends maxRetries failures (.ok (some a)) (.ok a)
  | fatal {e : StoreError} (fatal : e.isFatal = true) :
      Ends maxRetries failures (.error e) (.error e)
  | noRetry {e : StoreError} (left : failures = maxRetries) :
      Ends maxRetries failures (.error e) (.error e)

/-- What an operation comes to that makes such attempts, and what it leaves.  It goes on through
attempts that are overtaken, however many, and through failures that are not fatal, no more of
these than there are retries, and ends with the first attempt that is neither; after the last
failure that it passes, and at no other point, the client gives up the entries. -/
def Settles (attempt : ClientStepM (Option α)) (start : Scene)
    (run : Except StoreError α × Scene) : Prop :=
  ∃ outcomes resets w outcome, Retried attempt start outcomes resets w ∧
    failures outcomes ≤ start.maxRetries ∧
    (resets = if 0 < start.maxRetries ∧ failures outcomes = start.maxRetries then 1 else 0) ∧
    exec attempt w.counted = (outcome, run.2) ∧
    Ends start.maxRetries (failures outcomes) outcome run.1

/-- However often the attempts have been overtaken, they are overtaken again. -/
def Endless (attempt : ClientStepM (Option α)) (start : Scene) : Prop :=
  ∀ n, ∃ outcomes resets w, Retried attempt start outcomes resets w ∧ n < overtakings outcomes

section

variable {attempt : ClientStepM (Option α)} {start w w' : Scene}
  {outcomes : List (Except StoreError (Option α))} {resets : Nat}

theorem failures_append (outcome : Except StoreError (Option α)) :
    failures (outcomes ++ [outcome]) = failures outcomes + if failed outcome then 1 else 0 := by
  simp [failures, List.countP_append, List.countP_singleton]

theorem failures_add_overtakings (outcomes : List (Except StoreError (Option α))) :
    failures outcomes + overtakings outcomes = outcomes.length := by
  rw [failures, overtakings, List.length_eq_countP_add_countP failed]
  simp

/-- The client has given up the entries if all retries have been used up, and once at most. -/
theorem Retried.resets_eq (h : Retried attempt start outcomes resets w) :
    failures outcomes ≤ start.maxRetries ∧
      resets = if 0 < start.maxRetries ∧ failures outcomes = start.maxRetries then 1 else 0 := by
  induction h with
  | start =>
      refine ⟨Nat.zero_le _, ?_⟩
      show 0 = if 0 < start.maxRetries ∧ 0 = start.maxRetries then 1 else 0
      rw [if_neg (by omega)]
  | overtaken _ _ ih =>
      rw [failures_append]
      exact ih
  | failed _ _ _ left ih =>
      rw [failures_append]
      simp only [ClientM.failed, if_true] at ih ⊢
      refine ⟨by omega, ?_⟩
      rw [ih.2, if_neg (by omega), if_neg (by omega)]
  | exhausted _ _ _ last _ ih =>
      rw [failures_append]
      simp only [ClientM.failed, if_true] at ih ⊢
      refine ⟨by omega, ?_⟩
      rw [ih.2, if_neg (by omega), if_pos ⟨by omega, last⟩]

namespace Retried

/-- The rounds of a series lead to where the series has led. -/
theorem rounds_eq (h : Retried attempt start outcomes resets w) (n : Nat) :
    rounds attempt (outcomes.length + n) start.maxRetries start =
      rounds attempt n (start.maxRetries - failures outcomes) w := by
  induction h generalizing n with
  | start =>
      rw [List.length_nil, Nat.zero_add]
      rfl
  | @overtaken outcomes _ w w' _ made ih =>
      rw [List.length_append, List.length_singleton, Nat.add_assoc, Nat.add_comm 1 n, ih, rounds,
        exec_round, made, failures_append]
      rfl
  | @failed outcomes _ w w' e _ made minor left ih =>
      obtain ⟨retries, hretries⟩ : ∃ retries, start.maxRetries - failures outcomes = retries + 2 :=
        ⟨start.maxRetries - failures outcomes - 2, by omega⟩
      have hnext : start.maxRetries - (failures outcomes + 1) = retries + 1 := by omega
      rw [List.length_append, List.length_singleton, Nat.add_assoc, Nat.add_comm 1 n, ih, rounds,
        exec_round, made, failures_append, hretries]
      simp only [exec_pass, minor, ClientM.failed, if_true, hnext]
      rfl
  | @exhausted outcomes _ w w' w'' e _ made minor last givesUp ih =>
      have hretries : start.maxRetries - failures outcomes = 1 := by omega
      have hnext : start.maxRetries - (failures outcomes + 1) = 0 := by omega
      rw [List.length_append, List.length_singleton, Nat.add_assoc, Nat.add_comm 1 n, ih, rounds,
        exec_round, made, failures_append, hretries]
      simp only [exec_pass, minor, ClientM.failed, if_true, hnext, givesUp_iff.1 givesUp]
      rfl

/-- The attempt that comes after a series ends the operation, or makes the series longer. -/
theorem ends_or_goes_on (hbefore : Retried attempt start outcomes resets w) :
    (∃ outcome w' verdict, exec attempt w.counted = (outcome, w') ∧
        Ends start.maxRetries (failures outcomes) outcome verdict) ∨
      ∃ outcome resets' w', Retried attempt start (outcomes ++ [outcome]) resets' w' := by
  have hle := hbefore.resets_eq.1
  obtain ⟨outcome, w', hmade⟩ : ∃ outcome w', exec attempt w.counted = (outcome, w') :=
    ⟨_, _, rfl⟩
  rcases outcome with e | _ | a
  · cases hfatal : e.isFatal with
    | true => exact Or.inl ⟨_, w', _, hmade, .fatal hfatal⟩
    | false =>
        rcases Nat.lt_trichotomy (failures outcomes + 1) start.maxRetries with hlt | heq | hgt
        · exact Or.inr ⟨_, _, w', .failed hbefore hmade hfatal hlt⟩
        · obtain ⟨w'', -, hgivesUp⟩ := exec_giveUp w'
          exact Or.inr ⟨_, _, w'', .exhausted hbefore hmade hfatal heq hgivesUp⟩
        · exact Or.inl ⟨_, w', _, hmade, .noRetry (by omega)⟩
  · exact Or.inr ⟨_, _, w', .overtaken hbefore hmade⟩
  · exact Or.inl ⟨_, w', _, hmade, .result a⟩

/-- With the attempt that ends an operation, its rounds end. -/
theorem rounds_ends (hbefore : Retried attempt start outcomes resets w)
    {outcome : Except StoreError (Option α)} {verdict : Except StoreError α}
    (hmade : exec attempt w.counted = (outcome, w'))
    (hends : Ends start.maxRetries (failures outcomes) outcome verdict) :
    rounds attempt (outcomes.length + 1) start.maxRetries start = some (verdict, w') := by
  rw [hbefore.rounds_eq, rounds, exec_round, hmade]
  cases hends with
  | result a => rfl
  | fatal hfatal =>
      cases start.maxRetries - failures outcomes with
      | zero => rfl
      | succ left => simp only [exec_pass, hfatal, if_true]
  | noRetry hleft =>
      rw [hleft, Nat.sub_self]

end Retried

/-- A series of any length is made, unless the operation comes to its end before. -/
theorem exists_retried (attempt : ClientStepM (Option α)) (start : Scene) (n : Nat) :
    (∃ run, Settles attempt start run) ∨
      ∃ outcomes resets w, Retried attempt start outcomes resets w ∧ outcomes.length = n := by
  induction n with
  | zero => exact Or.inr ⟨[], 0, start, .start, rfl⟩
  | succ n ih =>
      rcases ih with hends | ⟨outcomes, resets, w, hretried, hlength⟩
      · exact Or.inl hends
      · rcases hretried.ends_or_goes_on with
          ⟨outcome, w', verdict, hmade, hends⟩ | ⟨outcome, resets', w', hnext⟩
        · exact Or.inl ⟨(verdict, w'), outcomes, resets, w, outcome, hretried,
            hretried.resets_eq.1, hretried.resets_eq.2, hmade, hends⟩
        · refine Or.inr ⟨_, _, w', hnext, ?_⟩
          rw [List.length_append, hlength, List.length_singleton]

theorem Settles.exists_rounds {run : Except StoreError α × Scene}
    (h : Settles attempt start run) : ∃ n, rounds attempt n start.maxRetries start = some run := by
  obtain ⟨outcomes, resets, w, outcome, hretried, -, -, hmade, hends⟩ := h
  exact ⟨_, hretried.rounds_ends hmade hends⟩

/-- The rounds come to one end at most. -/
theorem rounds_unique {n n' left : Nat} {run run' : Except StoreError α × Scene}
    (h : rounds attempt n left w = some run) (h' : rounds attempt n' left w = some run') :
    run = run' := by
  have hn := rounds_add h n'
  rw [Nat.add_comm, rounds_add h' n] at hn
  exact (Option.some.inj hn).symm

/-- The rounds come to an end if and only if the series of attempts does. -/
theorem exists_rounds_iff {run : Except StoreError α × Scene} :
    (∃ n, rounds attempt n start.maxRetries start = some run) ↔ Settles attempt start run := by
  refine ⟨?_, Settles.exists_rounds⟩
  rintro ⟨n, hn⟩
  rcases exists_retried attempt start n with ⟨run', hsettles⟩ | ⟨outcomes, _, w, hretried, rfl⟩
  · obtain ⟨n', hn'⟩ := hsettles.exists_rounds
    cases rounds_unique hn hn'
    exact hsettles
  · -- the rounds of a series have not come to an end
    have hnone := hretried.rounds_eq 0
    rw [Nat.add_zero, hn] at hnone
    cases hnone

/-- Attempts that are overtaken wherever they begin are made for ever. -/
theorem endless_of_overtaken (h : ∀ w, ∃ w', exec attempt w = (.ok none, w')) (start : Scene) :
    Endless attempt start := by
  intro n
  induction n with
  | zero =>
      obtain ⟨w', hmade⟩ := h start.counted
      exact ⟨_, _, w', .overtaken .start hmade, Nat.zero_lt_one⟩
  | succ n ih =>
      obtain ⟨outcomes, resets, w, hretried, hmore⟩ := ih
      obtain ⟨w', hmade⟩ := h w.counted
      refine ⟨_, _, w', .overtaken hretried hmade, ?_⟩
      simpa [overtakings, failed] using hmore

theorem endless_iff : Endless attempt start ↔ ∀ run, ¬ Settles attempt start run := by
  constructor
  · intro hendless run hsettles
    obtain ⟨n, hn⟩ := hsettles.exists_rounds
    obtain ⟨outcomes, resets, w, hretried, hmore⟩ := hendless n
    have hlength := failures_add_overtakings outcomes
    have hnone := hretried.rounds_eq 0
    rw [Nat.add_zero, ← Nat.add_sub_of_le (show n ≤ outcomes.length by omega),
      rounds_add hn] at hnone
    cases hnone
  · intro hgoesOn n
    rcases exists_retried attempt start (n + start.maxRetries + 1) with
      ⟨run, hsettles⟩ | ⟨outcomes, resets, w, hretried, hlength⟩
    · exact absurd hsettles (hgoesOn run)
    · have htotal := failures_add_overtakings outcomes
      have hle := hretried.resets_eq.1
      exact ⟨outcomes, resets, w, hretried, by omega⟩

end

/-- An operation that goes from round to round settles, or else is overtaken without end. -/
theorem Repeats.settles {act : ClientM α} {attempt : ClientStepM (Option α)}
    (h : Repeats act attempt) (start : Scene) :
    (∀ run, outcome? act start = some run ↔ Settles attempt start.begun run) ∧
      (outcome? act start = none ↔ Endless attempt start.begun) := by
  have hsome : ∀ run, outcome? act start = some run ↔ Settles attempt start.begun run := by
    intro run
    rw [← exists_rounds_iff]
    exact h.outcome?_iff
  refine ⟨hsome, ?_⟩
  rw [endless_iff, Option.eq_none_iff_forall_ne_some]
  exact forall_congr' fun run => not_congr (hsome run)

/-- An operation whose attempts are not overtaken comes to an end. -/
theorem Repeats.comes_back {act : ClientM α} {attempt : ClientStepM (Option α)}
    (h : Repeats act attempt) (hlands : ∀ w, (exec attempt w).1 ≠ .ok none) (start : Scene) :
    ∃ run, outcome? act start = some run := by
  have hnever : ∀ outcomes resets w, Retried attempt start.begun outcomes resets w →
      overtakings outcomes = 0 := by
    intro outcomes resets w hretried
    induction hretried with
    | start => rfl
    | overtaken _ made => exact absurd (congrArg Prod.fst made) (hlands _)
    | failed _ _ _ _ ih => simpa [overtakings, failed] using ih
    | exhausted _ _ _ _ _ ih => simpa [overtakings, failed] using ih
  rw [← Option.isSome_iff_exists, Option.isSome_iff_ne_none]
  intro hnone
  obtain ⟨outcomes, resets, w, hretried, hmore⟩ := ((h.settles start).2.1 hnone) 0
  exact Nat.not_lt_zero _ (hnever outcomes resets w hretried ▸ hmore)

/-- Reads and updates give the first result that they reach before an error that is fatal or
that finds no retry left, and else that error; attempts that are overtaken are no retries.  Once
at most, between the last failure that is passed and the attempt that comes after it, the client
gives up the entries of the tree, if the policy lets it.  A read always comes to its end; so does
an update, unless it is overtaken again and again for ever. -/
theorem reads_and_updates_settle (op : Tree → ClientStepM α)
    (change : Trunk → ClientStepM (Tree × β)) (notify : β → ClientStepM Unit) (start : Scene) :
    Settles (reading op) start.begun (exec (read op) start) ∧
      (∀ run, outcome? (update change notify) start = some run ↔
        Settles (attemptUpdate change notify) start.begun run) ∧
      (outcome? (update change notify) start = none ↔
        Endless (attemptUpdate change notify) start.begun) :=
  ⟨(((read_repeats op).settles start).1 _).1 (outcome?_liftM _ _),
    (update_repeats change notify).settles start⟩

/-- A register that has been set, in a store whose clients may retry twice and reset any tree. -/
def setRegister : Scene :=
  (exec (attemptUpdate (fun snapshot => do
    return (← ofStore ((Mutation.set "10" 1 0).apply snapshot.tree), ())) tellNoMore) ⟨.ofTree
    (.ofRoot ⟨0, .utree, 1, .ofPage (.empty .utree 1 0) .absent, 27⟩ ⟨.utree, 1, ⟨0⟩, ⟨0⟩⟩) true,
    (StoreM.exec (Tree.empty ⟨.utree, 1, ⟨0⟩, ⟨0⟩⟩) (.create Settings.forTrials false ⟨0⟩)).2⟩).2

/-- A change of a register: of its first attempts, two fail and the others are overtaken. -/
def troubled (snapshot : Trunk) : ClientStepM (Tree × Unit) := do
  let attempts := (← get).attempts
  if attempts = 3 ∨ attempts = 5 then
    throw (.io "lost")
  if attempts < 5 then
    interfere (.set (toString attempts) 1 0)
  return (← ofStore ((Mutation.set "30" 1 0).apply snapshot.tree), ())

/-- A change of which someone is always ahead. -/
def outpaced (snapshot : Trunk) : ClientStepM (Tree × Unit) := do
  setTrunk { snapshot with version := snapshot.version + 1 }
  return (.ofRoot { snapshot.tree.root with id := snapshot.tree.root.id + 1 } snapshot.tree.seed, ())

theorem exec_outpaced (w : Scene) :
    ∃ w', exec (attemptUpdate outpaced tellNoMore) w = (.ok none, w') := by
  let moved : Scene :=
    { w with client := { w.client with
      trunk := { w.client.trunk with version := w.client.trunk.version + 1 } } }
  let tree : Tree := .ofRoot { w.client.trunk.tree.root with id := w.client.trunk.tree.root.id + 1 }
    w.client.trunk.tree.seed
  have hother : tree.same w.client.trunk.tree = false := by
    simp [tree, Tree.ofRoot, Tree.same, PageRef.same]
  have hmoved : moved.client.trunk.updateTree w.client.trunk.tree tree w.client.trunk.version =
      (false, moved.client.trunk) := by
    simp [moved, Trunk.updateTree, Trunk.isAt]
  refine ⟨moved, ?_⟩
  show exec (swap w.client.trunk tree () tellNoMore) moved = _
  rw [swap, hother, if_neg Bool.false_ne_true, exec_bind]
  show exec (do
    let swapped := moved.client.trunk.updateTree w.client.trunk.tree tree w.client.trunk.version
    setTrunk swapped.2
    if swapped.1 then
      tellNoMore ()
      didChange tree w.client.trunk.tree
      return some ()
    else
      return none) moved = _
  rw [hmoved]
  rfl

/-- A read of a register fails twice; then the register is reset, and the last attempt finds it
empty.  An update is overtaken three times and fails twice, and its sixth attempt succeeds; one
that someone is always ahead of goes on for ever. -/
theorem reads_and_updates_settle_register :
    setRegister.maxRetries = 2 ∧ setRegister.client.trunk.tree.span = 1 ∧
      (exec (failing [.io "lost", .io "lost"]) setRegister).1 = .ok 0 ∧
      Settles (reading fun tree => do
          match [StoreError.io "lost", .io "lost"][(← get).attempts - 1]? with
          | some e => throw e
          | none => return tree.span) setRegister.begun
        (exec (failing [.io "lost", .io "lost"]) setRegister) ∧
      (∃ w, outcome? (update troubled tellNoMore) setRegister = some (.ok (), w) ∧
        w.client.attempts = 6 ∧ w.client.events = [.change 1 0, .change 0 1, .clear,
          .race true 1, .race true 1, .race true 1, .change 1 0] ∧
        Settles (attemptUpdate troubled tellNoMore) setRegister.begun (.ok (), w)) ∧
      outcome? (update outpaced tellNoMore) setRegister = none := by
  have hread := (reads_and_updates_settle
    (fun tree => do
      match [StoreError.io "lost", .io "lost"][(← get).attempts - 1]? with
      | some e => throw e
      | none => return tree.span) troubled tellNoMore setRegister).1
  refine ⟨by decide +kernel, by decide +kernel, by decide +kernel, hread, ?_, ?_⟩
  · obtain ⟨⟨verdict, w⟩, hrounds⟩ := Option.isSome_iff_exists.1 (show
      (rounds (attemptUpdate troubled tellNoMore) 6 setRegister.maxRetries
        setRegister.begun).isSome by decide +kernel)
    have houtcome := (update_repeats troubled tellNoMore).outcome?_iff.2 ⟨6, hrounds⟩
    have hfacts : ((rounds (attemptUpdate troubled tellNoMore) 6 setRegister.maxRetries
        setRegister.begun).map fun run => (run.1, run.2.client.attempts, run.2.client.events)) =
          some (.ok (), 6, [.change 1 0, .change 0 1, .clear, .race true 1, .race true 1,
            .race true 1, .change 1 0]) := by
      decide +kernel
    rw [hrounds] at hfacts
    obtain ⟨rfl, hattempts, hevents⟩ : verdict = .ok () ∧ w.client.attempts = 6 ∧
        w.client.events = _ := by
      simpa using hfacts
    exact ⟨w, houtcome, hattempts, hevents,
      ((reads_and_updates_settle (fun tree => return tree.span) troubled tellNoMore
        setRegister).2.1 _).1 houtcome⟩
  · exact (reads_and_updates_settle (fun tree => return tree.span) outpaced tellNoMore
      setRegister).2.2.2 (endless_of_overtaken exec_outpaced _)

end ClientM
end PageTree
