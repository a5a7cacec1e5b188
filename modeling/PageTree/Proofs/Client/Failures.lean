import PageTree.Proofs.Client.Clearing
import PageTree.Proofs.Client.Observers
import PageTree.Proofs.Sparing
import PageTree.Proofs.System.Races

/-!
# Failures leave no trace

What an operation of a client computes from a tree touches nothing but the memory and the counters
of the store (`Spares`), and the tree is swapped in last, after which nothing can fail.  So an
attempt comes to its result or to nothing (`ClientM.AllOrNothing`), and with it a whole series of
attempts, if the client may not give up the entries of its tree on the way.  A commit writes its
diff last, too, and what is left to do then cannot fail, whoever moves the trunk in the meantime
(`System.failures_leave_no_trace`).
-/

namespace PageTree

variable {α β ι : Type}

open StoreM

/-! ## What a failed operation leaves -/

/-- Nothing has come of what a client has done but that attempts have been counted, and that the
memory and the counters of the store have been touched. -/
structure Scene.Untouched (w w' : Scene) : Prop where
  client : ∃ attempts, w'.client = { w.client with attempts }
  outside : w'.store.outside = w.store.outside

/-- The post of the trunk has been raised. -/
def Scene.raised (w : Scene) (post : Nat) : Scene :=
  { w with client := { w.client with trunk := w.client.trunk.raisePost post } }

namespace Scene.Untouched

variable {w w' w'' : Scene}

theorem refl (w : Scene) : w.Untouched w := ⟨⟨w.client.attempts, rfl⟩, rfl⟩

theorem trans (h : w.Untouched w') (h' : w'.Untouched w'') : w.Untouched w'' := by
  obtain ⟨⟨n, hclient⟩, hs⟩ := h
  obtain ⟨⟨n', hclient'⟩, hs'⟩ := h'
  exact ⟨⟨n', by rw [hclient', hclient]⟩, hs'.trans hs⟩

theorem trunk_eq (h : w.Untouched w') : w'.client.trunk = w.client.trunk := by
  obtain ⟨⟨n, hclient⟩, -⟩ := h
  rw [hclient]

theorem settings_eq (h : w.Untouched w') : w'.store.settings = w.store.settings :=
  congrArg Prod.fst h.outside

theorem mayReset_eq (h : w.Untouched w') : w'.mayReset = w.mayReset := by
  rw [mayReset, mayReset, h.trunk_eq, h.settings_eq]

theorem counted (w : Scene) : w.Untouched w.counted := ⟨⟨_, rfl⟩, rfl⟩

theorem begun (w : Scene) : w.Untouched w.begun := ⟨⟨_, rfl⟩, rfl⟩

/-- An operation on the store that spares it. -/
theorem of_spares {act : StoreM α} (hact : Spares act) (w : Scene) :
    w.Untouched ⟨w.client, (exec act w.store).2⟩ :=
  ⟨⟨_, rfl⟩, hact w.store⟩

end Scene.Untouched

namespace ClientM

/-- An attempt comes to a result, or to nothing at all. -/
def AllOrNothing (attempt : ClientStepM (Option α)) : Prop :=
  ∀ w, (∃ a w', exec attempt w = (.ok (some a), w')) ∨
    ∃ e w', exec attempt w = (.error e, w') ∧ w.Untouched w'

theorem reading_allOrNothing {op : Tree → StoreM α} (hop : ∀ t, Spares (op t)) :
    AllOrNothing (reading fun t => ofStore (op t)) := by
  intro w
  have huntouched := Scene.Untouched.of_spares (hop w.client.trunk.tree) w
  have hreading : exec (reading fun t => ofStore (op t)) w =
      exec (ofStore (op w.client.trunk.tree) >>= fun a => pure (some a)) w := rfl
  rw [hreading, exec_bind, exec_ofStore]
  generalize StoreM.exec (op w.client.trunk.tree) w.store = outcome at huntouched
  obtain ⟨e | a, s⟩ := outcome
  · exact Or.inr ⟨e, _, rfl, huntouched⟩
  · exact Or.inl ⟨a, _, rfl⟩

/-- A tree that has been computed from the trunk is swapped in, and what is then told and
committed cannot fail. -/
theorem exec_swap_self (t : Tree) (a : α) {notify : α → ClientStepM Unit}
    (hnotify : ∀ a, NeverFails (notify a)) (w : Scene) :
    ∃ w', exec (swap w.client.trunk t a notify) w = (.ok (some a), w') := by
  cases hmoved : t.same w.client.trunk.tree with
  | true => exact ⟨w, by rw [swap, hmoved, if_pos rfl, exec_pure]⟩
  | false =>
      rw [exec_swap_of_moved hmoved]
      obtain ⟨_, w₁, htold⟩ := hnotify a (w.withTree t)
      obtain ⟨_, w₂, hchanged⟩ := NeverFails.didChange t w.client.trunk.tree w₁
      refine ⟨w₂, ?_⟩
      rw [exec_bind, htold]
      dsimp only
      rw [exec_bind, hchanged]
      rfl

theorem attemptUpdate_allOrNothing {op : Trunk → StoreM (Tree × α)} {notify : α → ClientStepM Unit}
    (hop : ∀ t, Spares (op t)) (hnotify : ∀ a, NeverFails (notify a)) :
    AllOrNothing (attemptUpdate (fun t => ofStore (op t)) notify) := by
  intro w
  have huntouched := Scene.Untouched.of_spares (hop w.client.trunk) w
  have hattempt : exec (attemptUpdate (fun t => ofStore (op t)) notify) w =
      exec (ofStore (op w.client.trunk) >>= fun result =>
        swap w.client.trunk result.1 result.2 notify) w := by
    rw [attemptUpdate, exec_bind]
    rfl
  rw [hattempt, exec_bind, exec_ofStore]
  generalize StoreM.exec (op w.client.trunk) w.store = outcome at huntouched
  obtain ⟨e | ⟨t, a⟩, s⟩ := outcome
  · exact Or.inr ⟨e, _, rfl, huntouched⟩
  · obtain ⟨w', hexec⟩ := exec_swap_self t a hnotify ⟨w.client, s⟩
    exact Or.inl ⟨a, w', hexec⟩

/-- A client that may not reset its tree does nothing about a failure. -/
theorem exec_pass_of_not_mayReset (e : StoreError) (left : Nat) {w : Scene}
    (hreset : w.mayReset = false) : (exec (pass e left) w).2 = w := by
  obtain ⟨w', hexec, hgivesUp⟩ := exec_giveUp w
  rw [Scene.GivesUp, hreset, if_neg Bool.false_ne_true] at hgivesUp
  rw [exec_pass]
  split
  · rfl
  · split
    · rw [hexec, hgivesUp]
    · rfl

/-- A round that gives no result comes to nothing. -/
theorem round_untouched {attempt : ClientStepM (Option α)} (hattempt : AllOrNothing attempt)
    {left : Nat} {w : Scene} (hreset : w.mayReset = false) :
    (∃ a w', exec (round attempt left) w = (.ok (.inl a), w')) ∨
      w.Untouched (exec (round attempt left) w).2 := by
  have hcounted := Scene.Untouched.counted w
  rw [exec_round]
  rcases hattempt w.counted with ⟨a, w', hmade⟩ | ⟨e, w', hmade, huntouched⟩
  · rw [hmade]
    exact Or.inl ⟨a, w', rfl⟩
  · rw [hmade]
    refine Or.inr ?_
    have hsince := hcounted.trans huntouched
    cases left with
    | zero => exact hsince
    | succ left =>
        have hpass := exec_pass_of_not_mayReset e left (hsince.mayReset_eq.trans hreset)
        dsimp only
        generalize exec (pass e left) w' = passed at hpass
        obtain ⟨_ | _, _⟩ := passed <;> exact hpass ▸ hsince

theorem rounds_untouched {attempt : ClientStepM (Option α)} (hattempt : AllOrNothing attempt)
    {n left : Nat} {w w' : Scene} {e : StoreError} (hreset : w.mayReset = false)
    (hfailed : rounds attempt n left w = some (.error e, w')) : w.Untouched w' := by
  induction n generalizing left w with
  | zero => cases hfailed
  | succ n ih =>
      rw [rounds] at hfailed
      rcases @round_untouched _ attempt hattempt left w hreset with ⟨a, w₁, hround⟩ | huntouched
      · rw [hround] at hfailed
        cases hfailed
      · generalize exec (round attempt left) w = made at hfailed huntouched
        obtain ⟨e' | a | left', w₁⟩ := made
        · cases hfailed
          exact huntouched
        · cases hfailed
        · exact huntouched.trans (ih (huntouched.mayReset_eq.trans hreset) hfailed)

theorem Repeats.untouched {act : ClientM α} {attempt : ClientStepM (Option α)}
    (h : Repeats act attempt) (hattempt : AllOrNothing attempt) {w w' : Scene} {e : StoreError}
    (hreset : w.mayReset = false) (hfailed : outcome? act w = some (.error e, w')) :
    w.Untouched w' := by
  obtain ⟨n, hn⟩ := h.outcome?_iff.1 hfailed
  exact (Scene.Untouched.begun w).trans (rounds_untouched hattempt hreset hn)

theorem Repeats.comes_back_of_allOrNothing {act : ClientM α} {attempt : ClientStepM (Option α)}
    (h : Repeats act attempt) (hattempt : AllOrNothing attempt) (w : Scene) :
    ∃ run, outcome? act w = some run := by
  refine h.comes_back (fun w => ?_) w
  rcases hattempt w with ⟨a, w', hmade⟩ | ⟨e, w', hmade, -⟩
  · rw [hmade]
    exact nofun
  · rw [hmade]
    exact nofun

/-- The operations of clients on maps. -/
inductive MapCall : {α : Type} → ClientM α → Prop where
  | put (key value : Value) : MapCall (OrderedMap.put key value)
  | remove (key : Value) : MapCall (OrderedMap.remove key)
  | drop (lower : Nat) : MapCall (OrderedMap.drop lower)
  | take (upper : Nat) : MapCall (OrderedMap.take upper)
  | putAt (key : Value) (x y : Nat) (value : Value) : MapCall (PlaneMap.put key x y value)
  | removeAt (key : Value) (x y : Nat) : MapCall (PlaneMap.remove key x y)
  | move (key : Value) (oldX oldY newX newY : Nat) (value : Value) :
      MapCall (PlaneMap.move key oldX oldY newX newY value)
  | set (value : Value) : MapCall (Register.set value)
  | reduced (f : PageRef.Folding) : MapCall (reduced f)
  | read (query : Query) : MapCall (liftM query.ask)

/-- Each operation is a series of attempts that come to a result or to nothing. -/
theorem MapCall.exists_attempt {act : ClientM α} (hcall : MapCall act) :
    ∃ attempt : ClientStepM (Option α), Repeats act attempt ∧ AllOrNothing attempt := by
  -- to put what is undefined is to remove, so removals come first
  have hremove : ∀ key, ∃ attempt, Repeats (OrderedMap.remove key) attempt ∧
      AllOrNothing attempt := by
    intro key
    rw [Operation.orderedMap_remove]
    refine ⟨_, update_repeats _ _,
      attemptUpdate_allOrNothing (fun t => (Operation.remove key).run_spares t) fun old => ?_⟩
    cases old with
    | none => exact .pure ()
    | some old => exact .tell _
  cases hcall with
  | put key value =>
      rw [Operation.orderedMap_put]
      split
      · exact ⟨_, update_repeats _ _, attemptUpdate_allOrNothing
          (fun t => (Operation.put key value).run_spares t) fun _ => .tell _⟩
      · exact hremove key
  | remove key => exact hremove key
  | drop lower =>
      rw [Operation.orderedMap_drop]
      exact ⟨_, update_repeats _ _, attemptUpdate_allOrNothing
        (fun t => .bind (Operation.run_spares t _) fun _ => .pure _) fun _ => .tell _⟩
  | take upper =>
      rw [Operation.orderedMap_take]
      exact ⟨_, update_repeats _ _, attemptUpdate_allOrNothing
        (fun t => .bind (Operation.run_spares t _) fun _ => .pure _) fun _ => .tell _⟩
  | putAt key x y value =>
      rw [Operation.planeMap_put]
      exact ⟨_, update_repeats _ _, attemptUpdate_allOrNothing
        (fun t => Operation.run_spares t _) fun _ => .pure ()⟩
  | removeAt key x y =>
      rw [Operation.planeMap_remove]
      exact ⟨_, update_repeats _ _, attemptUpdate_allOrNothing
        (fun t => Operation.run_spares t _) fun _ => .pure ()⟩
  | move key oldX oldY newX newY value =>
      rw [Operation.planeMap_move]
      exact ⟨_, update_repeats _ _, attemptUpdate_allOrNothing
        (fun t => .bind (Operation.run_spares t _) fun _ => .pure _) fun _ => .pure ()⟩
  | set value =>
      rw [Operation.register_set]
      exact ⟨_, update_repeats _ _, attemptUpdate_allOrNothing
        (fun t => .bind (Operation.run_spares t _) fun _ => .pure _) fun _ => .pure ()⟩
  | reduced f =>
      rw [Operation.clientM_reduced]
      exact ⟨_, update_repeats _ _, attemptUpdate_allOrNothing
        (fun t => .bind (Operation.run_spares t _) fun _ => .pure _) fun _ => .pure ()⟩
  | read query =>
      rw [query.ask_eq]
      exact ⟨_, read_repeats _, reading_allOrNothing query.run_spares⟩

/-- A map operation comes back or fails, and one that fails comes to nothing if the tree may not be
reset. -/
theorem MapCall.untouched {act : ClientM α} (hcall : MapCall act) (w : Scene) :
    (∃ run, outcome? act w = some run) ∧ ∀ {w' : Scene} {e : StoreError}, w.mayReset = false →
      outcome? act w = some (.error e, w') → w.Untouched w' := by
  obtain ⟨attempt, hrepeats, hattempt⟩ := hcall.exists_attempt
  exact ⟨hrepeats.comes_back_of_allOrNothing hattempt w, hrepeats.untouched hattempt⟩

/-- An evacuation that fails leaves the post raised, and else comes to nothing. -/
theorem evacuate_untouched (post : Nat) (w : Scene) :
    (∃ run, outcome? (evacuate post) w = some run) ∧
      ∀ {w' : Scene} {e : StoreError}, w.mayReset = false →
        outcome? (evacuate post) w = some (.error e, w') → (w.raised post).Untouched w' := by
  have hevacuate : outcome? (evacuate post) w =
      outcome? (updateTree (fun t => do
        return (← t.tree.evacuated t.post t.version, ())) tellNoMore) (w.raised post) := rfl
  have hattempt : AllOrNothing (attemptUpdate (fun t => ofStore do
      return (← t.tree.evacuated t.post t.version, ())) tellNoMore) :=
    attemptUpdate_allOrNothing (fun t => .bind Tree.evacuated_spares fun _ => .pure _)
      fun _ => .pure ()
  rw [hevacuate]
  refine ⟨(update_repeats _ _).comes_back_of_allOrNothing hattempt _, ?_⟩
  intro w' e hreset hfailed
  exact (update_repeats _ _).untouched hattempt hreset hfailed

end ClientM

/-! ## Moves of cursors -/

namespace MapCursorM

variable {policy : Policy ι}

/-- The move keeps the policy of the cursor, and nothing comes of it for a client that may not reset
its tree, whether or not it fails. -/
def LeavesAlone (policy : Policy ι) (act : MapCursorM ι α) : Prop :=
  ∀ k w, k.cursor.policy = policy → w.mayReset = false →
    (exec act k w).1.2.cursor.policy = policy ∧ w.Untouched (exec act k w).2

namespace LeavesAlone

protected theorem pure (a : α) : LeavesAlone policy (pure a) :=
  fun _ w hk _ => ⟨hk, .refl w⟩

protected theorem throw (e : StoreError) : LeavesAlone policy (throw e : MapCursorM ι α) :=
  fun _ w hk _ => ⟨hk, .refl w⟩

protected theorem get : LeavesAlone policy (get : MapCursorM ι (MapCursor ι)) :=
  fun _ w hk _ => ⟨hk, .refl w⟩

protected theorem bind {act : MapCursorM ι α} {f : α → MapCursorM ι β}
    (hact : LeavesAlone policy act) (hf : ∀ a, LeavesAlone policy (f a)) :
    LeavesAlone policy (act >>= f) := by
  intro k w hk hreset
  obtain ⟨hk', hw'⟩ := hact k w hk hreset
  rw [exec_bind]
  generalize exec act k w = outcome at hk' hw'
  obtain ⟨⟨_ | a, k'⟩, w'⟩ := outcome
  · exact ⟨hk', hw'⟩
  · obtain ⟨hk'', hw''⟩ := hf a k' w' hk' (hw'.mayReset_eq.trans hreset)
    exact ⟨hk'', hw'.trans hw''⟩

theorem ofClient {act : ClientStepM α}
    (hact : ∀ w : Scene, w.mayReset = false → w.Untouched (ClientM.exec act w).2) :
    LeavesAlone policy (ofClient act) :=
  fun _ w hk hreset => ⟨hk, hact w hreset⟩

theorem ofCursor {act : CursorM ι α}
    (hact : ∀ k s, sparing.Carries policy s k → sparing.Steers policy act k s) :
    LeavesAlone policy (ofCursor act) := by
  rintro k w rfl _
  have hexec : exec (ofCursor act) k w =
      (((act.exec k.cursor w.store).1.1, { k with cursor := (act.exec k.cursor w.store).1.2 }),
        { w with store := (act.exec k.cursor w.store).2 }) := rfl
  rw [hexec]
  rcases (hact k.cursor w.store (sparing_carries k.cursor w.store)).cases with
    ⟨a, k', s', hact, hlater, hk'⟩ | ⟨e, k', s', hact, hfails, hk'⟩
  · rw [hact]
    exact ⟨hk'.policy, ⟨_, rfl⟩, hlater⟩
  · rw [hact]
    exact ⟨hk'.policy, ⟨_, rfl⟩, hfails⟩

theorem reopenIfStale : LeavesAlone policy reopenIfStale := by
  intro k w hk _
  rw [exec_reopenIfStale]
  split
  · obtain ⟨hs, hk'⟩ := k.cursor.reopened_spares w.client.trunk.tree.root w.store
    generalize StoreM.exec (k.cursor.reopened w.client.trunk.tree.root) w.store = outcome
      at hs hk'
    obtain ⟨e | cursor, s⟩ := outcome
    · exact ⟨hk, ⟨_, rfl⟩, hs⟩
    · exact ⟨(hk' cursor rfl).trans hk, ⟨_, rfl⟩, hs⟩
  · exact ⟨hk, .refl w⟩

theorem attempt {move : MapCursorM ι α} (hmove : LeavesAlone policy move) :
    LeavesAlone policy (attempt move) :=
  reopenIfStale.bind fun _ => hmove

theorem retryWithin {move : MapCursorM ι α} (hmove : LeavesAlone policy move) (left : Nat) :
    LeavesAlone policy (retryWithin move left) := by
  induction left with
  | zero => exact hmove.attempt
  | succ left ih =>
      have hattempting : LeavesAlone policy (attempting (MapCursorM.attempt move)) :=
        hmove.attempt
      refine hattempting.bind fun outcome => ?_
      cases outcome with
      | ok a => exact .pure a
      | error e =>
          refine (ofClient fun w hreset => ?_).bind fun _ => ?_
          · rw [ClientM.exec_pass_of_not_mayReset e left hreset]
            exact .refl w
          · have hstale : LeavesAlone policy
                (modify fun k => { k with isStale := true } : MapCursorM ι Unit) :=
              fun _ w hk _ => ⟨hk, .refl w⟩
            exact hstale.bind fun _ => ih

theorem retrying {move : MapCursorM ι α} (hmove : LeavesAlone policy move) :
    LeavesAlone policy (retrying move) := by
  have hsettings : LeavesAlone policy (MapCursorM.ofClient (ι := ι) (ClientM.ofStore get)) :=
    ofClient fun w _ => .refl w
  exact hsettings.bind fun s => hmove.retryWithin s.settings.maxRetries

end LeavesAlone
end MapCursorM

/-- A move of a cursor leaves a client alone that may not reset its tree. -/
theorem MapMove.make_leavesAlone {policy : Policy ι} (hadmits : sparing.Admits policy)
    (move : MapMove) : MapCursorM.LeavesAlone policy move.make := by
  have hdiscard : ∀ {β : Type} {act : MapCursorM ι β}, MapCursorM.LeavesAlone policy act →
      MapCursorM.LeavesAlone policy (discard act) :=
    fun hact => hact.bind fun _ => .pure _
  have hglance : ∀ way k s, sparing.Carries policy s k →
      sparing.Steers policy (CursorM.glance (CursorM.advance way)) k s :=
    fun way _ _ hk => .glance hk (.advance hadmits way hk)
  cases move with
  | advance way => exact hdiscard (.retrying (.ofCursor fun _ _ => .advance hadmits way))
  | head => exact hdiscard (.retrying (.ofCursor (hglance .forward)))
  | hasNext =>
      exact hdiscard (.retrying (.ofCursor fun k s hk =>
        (hglance .forward k s hk).bind fun _ _ _ _ hk' => .pure hk' _))
  | hasPrevious =>
      exact hdiscard (.retrying (.ofCursor fun k s hk =>
        (hglance .backward k s hk).bind fun _ _ _ _ hk' => .pure hk' _))
  | skip count =>
      refine hdiscard
        (.bind .get fun k => .bind (.retrying ?_) fun _ => .bind .get fun _ => .pure _)
      exact .bind .get fun _ => .ofCursor fun _ _ => .skip _

/-! ## Failures among others at work -/

/-- To rebase a tree loads nothing, so it fails for want of depth only. -/
theorem Tree.rebased_failsBy (t : Tree) (pairs : PageRef.CommitPairs) :
    FailsBy (· = tooDeep) (t.rebased pairs) := by
  have hwithin : ∀ depth r, FailsBy (· = tooDeep) (PageRef.rebasedWithin pairs depth r) := by
    intro depth
    induction depth with
    | zero => exact fun _ => .throw rfl
    | succ depth ih =>
        intro r
        unfold PageRef.rebasedWithin
        split
        · exact .never fun _ => rfl
        · refine .ite (.never fun _ => rfl) (.bind (.never fun _ => rfl) fun page => ?_)
          cases page with
          | none => exact .never fun _ => rfl
          | some page =>
              refine .ite (.never fun _ => rfl) (.bind (.mapChildren ih page page.version) ?_)
              exact fun _ => .ite (.never fun _ => rfl) (.never fun _ => rfl)
  have hget : FailsBy (· = tooDeep) (get : StoreM Store) := .never fun _ => rfl
  exact .bind (.bind hget fun _ => hwithin _ _) fun _ => .never fun _ => rfl

namespace System

variable {allowed : Operation → Prop} {seed : Seed} {x y : System} {past : List System}

/-- A call that fails leaves the trunk and the zones alone. -/
theorem ClientStep.failed (hstep : ClientStep x y) {i : Nat} {op : Operation} {e : StoreError}
    (hbefore : ∀ op e, x.calls i ≠ .failed op e) (hafter : y.calls i = .failed op e) :
    y.trunk = x.trunk ∧ y.store.outside = x.store.outside := by
  -- only the call whose standing has changed can have failed just now
  have hother : ∀ {z : System} {j : Nat} {call : Call}, (∀ op e, call ≠ .failed op e) →
      z.calls i = x.calls i → (z.setCall j call).calls i ≠ .failed op e := by
    intro z j call hcall hsame hfailed
    simp only [setCall] at hfailed
    split at hfailed
    · exact hcall _ _ hfailed
    · exact hbefore _ _ (hsame.symm.trans hfailed)
  cases hstep with
  | @fail j op' a e' s looking failed =>
      have hspared := Operation.run_spares a.snapshot op' x.store
      exact ⟨rfl, (congrArg (fun outcome => outcome.2.outside) failed).symm.trans hspared⟩
  | raisePost post => exact absurd hafter (hbefore op e)
  | call | look | retry | keep | swap | lose | compute =>
      exact absurd hafter (hother (fun _ _ => Call.noConfusion) rfl)

/-- Once its diff has been written, a commit finds all that it needs to come to its end, whoever
moves the trunk in the meantime. -/
theorem Lives.never_aborts (hlives : Lives allowed seed x past) :
    (∀ diff, x.stage = .overtaken diff →
      ∃ pairs s, exec (Trunk.pairsOf diff) x.store = (.ok pairs, s)) ∧
    ∀ diff pairs current, x.stage = .rebasing diff pairs current →
      ∃ tree s, exec (current.rebased pairs) x.store = (.ok tree, s) := by
  obtain ⟨origin, c, hx, -⟩ := hlives.coherent
  constructor
  · intro diff hstage
    obtain ⟨pairs, hexec, -⟩ := hx.pairs_up hstage
    exact ⟨pairs, x.store, hexec⟩
  · intro diff pairs current hstage
    obtain ⟨content, -, hruns⟩ := hx.rebases hstage
    rcases hruns.cases with ⟨tree, s, c', hexec, -⟩ | ⟨e, s, c', hexec, -, hfail, -⟩
    · exact ⟨tree, s, hexec⟩
    · -- want of depth is no failure of a load
      obtain rfl := current.rebased_failsBy pairs _ _ _ hexec
      cases hfail

/-- A commit that comes to nothing leaves the trunk alone, and has written nothing. -/
theorem Lives.commit_failed (hlives : Lives allowed seed x past) (hstep : CommitStep x y)
    (hidle : y.stage = .idle) (hunfinished : ∀ commit, x.stage ≠ .installed commit) :
    y.trunk = x.trunk ∧ x.store.zones.Spared y.store.zones ∧
      ∃ snapshot request, x.stage = .begun snapshot request := by
  have hbuild : ∀ t : Trunk, ∀ zone base, Spares (t.tree.buildDiff zone base t.version) :=
    fun _ _ _ => Tree.buildDiff_spares
  cases hstep with
  | begin | write | install | miss | pair | look | rebase | installRebased | missRebased =>
      cases hidle
  | @skip snapshot request s begun skipped =>
      obtain ⟨origin, c, hx, -⟩ := hlives.coherent
      obtain ⟨-, rfl⟩ :=
        Trunk.idle_of_writeDiff hx.represents hx.zones (hx.fit_of_begun begun) skipped
      exact ⟨rfl, .refl _, _, _, begun⟩
  | @refuse snapshot request e s begun refused =>
      exact ⟨rfl, Trunk.spared_of_writeBuilt_failed (hbuild snapshot) refused, _, _, begun⟩
  | @spoil snapshot request e s begun spoiled =>
      refine ⟨rfl, ?_, _, _, begun⟩
      rw [Trunk.spoilDiff, exec_bind] at spoiled
      rcases exec_willCommit request x.store with ⟨-, hexec⟩ | ⟨request', hexec⟩
      · rw [hexec] at spoiled
        cases spoiled
        exact .refl _
      · rw [hexec] at spoiled
        rcases exec_bind_eq_error spoiled with hspoiled | ⟨_, _, -, hdone⟩
        · refine spared_of_writeZone_failed (fun zone base => ?_) hspoiled
          exact .bind (hbuild snapshot zone base) fun _ => .throw _
        · cases hdone
  | @abort diff pairs current e s rebasing failed =>
      -- a rebase does not fail, so no commit ends here
      obtain ⟨tree, s', hexec⟩ := hlives.never_aborts.2 diff pairs current rebasing
      rw [hexec] at failed
      cases failed
  | finish installed finished => exact absurd installed (hunfinished _)

/-- A map operation comes back or fails.  A client that may not reset its tree finds itself as it
was after one that fails, however often it has been attempted: of the client, attempts have been counted and an evacuation
has raised the post, and of the store, the memory and the counters have been touched, and nothing
else.  So the tree and the version of the trunk and all zones are the same.  The same is true of
the moves of its cursors.  A commit that fails, whatever builds its diff, leaves the client as it
was; no zone has another text, and there is one new zone at most, an empty one.

With others at work on the trunk, a call that fails leaves the trunk and the zones alone too.  A
commit that fails does so before anything has been written, for once its diff has been written,
its pages can be paired and the current tree can be rebased; it leaves the trunk as it was, and the
zones but for a new one. -/
theorem failures_leave_no_trace :
    (∀ {α : Type} {call : ClientM α}, ClientM.MapCall call → ∀ w : Scene,
      (∃ run, ClientM.outcome? call w = some run) ∧
        ∀ {w' : Scene} {e : StoreError}, w.mayReset = false →
          ClientM.outcome? call w = some (.error e, w') → w.Untouched w') ∧
    (∀ (post : Nat) (w : Scene), (∃ run, ClientM.outcome? (ClientM.evacuate post) w = some run) ∧
      ∀ {w' : Scene} {e : StoreError}, w.mayReset = false →
        ClientM.outcome? (ClientM.evacuate post) w = some (.error e, w') →
          (w.raised post).Untouched w') ∧
    (∀ {ι : Type} {kind : TreeKind} {k : MapCursor ι}, k.cursor.policy.Scans kind →
      ∀ (move : MapMove) {w : Scene}, w.mayReset = false →
        w.Untouched (MapCursorM.exec move.make k w).2) ∧
    (∀ {build : Trunk → Nat → Nat → StoreM (String × Tree)},
      (∀ t zone base, Spares (build t zone base)) →
        ∀ {request : Commit} {w w' : Scene} {e : StoreError}, w.client.rival = none →
          ClientM.exec (ClientM.commitBuilding build request) w = (.error e, w') →
            w'.client = w.client ∧ w.store.zones.Spared w'.store.zones) ∧
    (∀ {request : Commit} {w w' : Scene} {e : StoreError}, w.client.rival = none →
      ClientM.exec (ClientM.commit request) w = (.error e, w') →
        w'.client = w.client ∧ w.store.zones.Spared w'.store.zones) ∧
    ∀ {allowed : Operation → Prop} {seed : Seed} {x : System} {past : List System},
      Lives allowed seed x past →
        (∀ {y : System} {i : Nat} {op : Operation} {e : StoreError}, ClientStep x y →
          (∀ op e, x.calls i ≠ .failed op e) → y.calls i = .failed op e →
            y.trunk = x.trunk ∧ y.store.outside = x.store.outside) ∧
        (∀ {y : System}, CommitStep x y → y.stage = .idle →
          (∀ commit, x.stage ≠ .installed commit) →
            y.trunk = x.trunk ∧ x.store.zones.Spared y.store.zones ∧
              ∃ snapshot request, x.stage = .begun snapshot request) ∧
        (∀ diff, x.stage = .overtaken diff →
          ∃ pairs s, exec (Trunk.pairsOf diff) x.store = (.ok pairs, s)) ∧
        ∀ diff pairs current, x.stage = .rebasing diff pairs current →
          ∃ tree s, exec (current.rebased pairs) x.store = (.ok tree, s) := by
  refine ⟨fun hcall => hcall.untouched, ClientM.evacuate_untouched, ?_,
    ClientM.commitBuilding_untouched, ?_, ?_⟩
  · intro ι kind k hscans move w hreset
    exact (move.make_leavesAlone hscans.admits k w rfl hreset).2
  · intro request w w' e hrival hfailed
    rw [ClientM.commit_eq] at hfailed
    exact ClientM.commitBuilding_untouched (fun _ _ _ => Tree.buildDiff_spares) hrival hfailed
  · intro allowed seed x past hlives
    exact ⟨fun hstep => hstep.failed, hlives.commit_failed, hlives.never_aborts⟩

/-- The client of a register whose page was written to a zone that is gone.  It may retry twice and
may not reset its tree. -/
def lostRegister : Scene where
  client := .ofTree
    (.ofRoot ⟨0, .utree, 1, ⟨7, 7, 9, 9, 10, 1, ⟨0⟩, ⟨0⟩, .absent⟩, 0⟩ registerSeed) true
  store := { Store.create { Settings.forTrials with failurePolicy := .never } false ⟨0⟩ with
    cells := #[⟨.unloaded, none⟩] }

/-- The client of a register that has been set, on a store that has been closed. -/
def closedRegister : Scene :=
  ⟨ClientM.setRegister.client, (exec close ClientM.setRegister.store).2⟩

/-- A register cannot be set, be evacuated or be read by a cursor once its page is lost.  A commit
fails for which no diff can be built, though it has moved on to a new zone; and so does one that
finds the store closed while it is under way. -/
theorem failures_leave_no_trace_register :
    (∃ e w, ClientM.outcome? (Register.set (.int 10)) lostRegister = some (.error e, w) ∧
      w.client.attempts = 3 ∧ lostRegister.Untouched w) ∧
    (∃ e w, ClientM.outcome? (ClientM.evacuate 8) lostRegister = some (.error e, w) ∧
      w.client.trunk.post = 8 ∧ (lostRegister.raised 8).Untouched w) ∧
    (∃ e k w, MapCursorM.exec (MapMove.advance .forward).make
        (.start lostRegister.client Policy.entries) lostRegister = ((.error e, k), w) ∧
      lostRegister.Untouched w) ∧
    (∃ e w, ClientM.exec (ClientM.commitBuilding (fun _ _ _ => throw (.fatal "no diff"))
        ⟨false, true, true⟩) ClientM.setRegister = (.error e, w) ∧
      w.store.zones.ids = [1, 2] ∧ w.client = ClientM.setRegister.client ∧
      ClientM.setRegister.store.zones.Spared w.store.zones) ∧
    (∃ e w, ClientM.exec (ClientM.commit .plain) closedRegister = (.error e, w) ∧
      w.client = closedRegister.client ∧ closedRegister.store.zones.Spared w.store.zones) ∧
    ∃ x past y, Lives (fun _ => True) registerSeed x past ∧ x.stage = .begun x.trunk .plain ∧
      CommitStep x y ∧ y.stage = .idle ∧ y.trunk = x.trunk ∧
        x.store.zones.Spared y.store.zones := by
  have hfailed : ∀ {α : Type} (act : ClientStepM α) (w : Scene),
      (ClientM.exec act w).1.toOption.isNone →
        ∃ e, ClientM.exec act w = (.error e, (ClientM.exec act w).2) := by
    intro α act w hnone
    generalize ClientM.exec act w = outcome at hnone
    obtain ⟨e | a, w'⟩ := outcome
    · exact ⟨e, rfl⟩
    · cases hnone
  have hends : ∀ {α : Type} {act : ClientM α} {attempt : ClientStepM (Option α)},
      ClientM.Repeats act attempt → ∀ (w : Scene) (shows : Scene → Bool),
        (ClientM.rounds attempt 3 w.maxRetries w.begun).any
          (fun run => run.1.toOption.isNone && shows run.2) = true →
        ∃ e w', ClientM.outcome? act w = some (.error e, w') ∧ shows w' = true := by
    intro α act attempt hrepeats w shows hfails
    cases hrounds : ClientM.rounds attempt 3 w.maxRetries w.begun with
    | none =>
        rw [hrounds] at hfails
        cases hfails
    | some run =>
        rw [hrounds] at hfails
        obtain ⟨e | a, w'⟩ := run
        · exact ⟨e, w', hrepeats.outcome?_iff.2 ⟨3, hrounds⟩, hfails⟩
        · cases hfails
  obtain ⟨hcalls, hevacuate, hmoves, hbuilt, hcommit, hlives⟩ := failures_leave_no_trace
  refine ⟨?_, ?_, ?_, ?_, ?_, ?_⟩
  · obtain ⟨e, w, hend, hshows⟩ := hends (ClientM.update_repeats _ _ : ClientM.Repeats
      (Register.set (.int 10)) _) lostRegister (·.client.attempts = 3) (by decide +kernel)
    exact ⟨e, w, hend, of_decide_eq_true hshows,
      (hcalls (.set (.int 10)) lostRegister).2 rfl hend⟩
  · obtain ⟨e, w, hend, hshows⟩ := hends (ClientM.update_repeats _ _ : ClientM.Repeats
      (ClientM.updateTree (fun t => do
        return (← t.tree.evacuated t.post t.version, ())) ClientM.tellNoMore) _)
      (lostRegister.raised 8) (·.client.trunk.post = 8) (by decide +kernel)
    exact ⟨e, w, hend, of_decide_eq_true hshows, (hevacuate 8 lostRegister).2 rfl hend⟩
  · have hmoved := hmoves (k := .start lostRegister.client Policy.entries) .entries
      (.advance .forward) (w := lostRegister) rfl
    cases hexec : MapCursorM.exec (MapMove.advance .forward).make
        (.start lostRegister.client Policy.entries) lostRegister with
    | mk result w =>
        rw [hexec] at hmoved
        obtain ⟨e | ⟨⟩, k⟩ := result
        · exact ⟨e, k, w, rfl, hmoved⟩
        · have hnone : (MapCursorM.exec (MapMove.advance .forward).make
              (.start lostRegister.client Policy.entries) lostRegister).1.1.toOption.isNone := by
            decide +kernel
          rw [hexec] at hnone
          cases hnone
  · obtain ⟨e, hexec⟩ := hfailed (ClientM.commitBuilding (fun _ _ _ => throw (.fatal "no diff"))
      ⟨false, true, true⟩) ClientM.setRegister (by decide +kernel)
    exact ⟨e, _, hexec, by decide +kernel, hbuilt (fun _ _ _ => .throw _) rfl hexec⟩
  · obtain ⟨e, hexec⟩ := hfailed (ClientM.commit .plain) closedRegister (by decide +kernel)
    exact ⟨e, _, hexec, hcommit rfl hexec⟩
  · have hasks : ∀ {y : System}, y.Asks fun _ => True := fun _ _ _ => trivial
    have hstart : Lives (fun _ => True) registerSeed register [] := .start starts_register
    have hbegun := hstart
      |>.step (.inl (.inr (.begin .plain rfl))) hasks
      |>.step (.inr .close) hasks
    have hrefuse : CommitStep ((register.withStage (.begun register.trunk .plain)).withStore
        (exec close register.store).2) _ := .refuse (e := .closed) rfl rfl
    obtain ⟨htrunk, hspared, -⟩ := (hlives hbegun).2.1 hrefuse rfl fun _ => Stage.noConfusion
    exact ⟨_, _, _, hbegun, rfl, hrefuse, rfl, htrunk, hspared⟩

end System
end PageTree
