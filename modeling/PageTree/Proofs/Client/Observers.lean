import PageTree.Client.Cursor
import PageTree.Proofs.Client.Replica
import PageTree.Proofs.Cursor.Grounded
import PageTree.Proofs.System.Folds

/-!
# Observers of a map

A client of an ordered map is used in `OrderedMap.Turn`s: it reads and changes the map, folds it,
moves it to other zones and commits it, and moves cursors over it, while the store fails, zones go
and memory is let go of.  Calls fail and are retried on the way, the client gives up the entries
where the policy lets it, and commits when the store asks for it.

Time passes between the turns, and where something gets in the way of an attempt also before it, so
whenever the client looks whether its last commit was long ago, any time may have gone by.

Whatever is done, the events that the observer is told of in the meantime make of the entries that
the map had the entries that it has in the end, and each event is right about the value that it
replaces (`OrderedMap.events_retell`).
-/

namespace PageTree

open StoreM

variable {α β ι : Type}

/-! ## Cursors of the client -/

namespace Cursor

variable {policy : Policy ι} {k k' : Cursor ι} {base c c' : Chart} {s s' : Store} {r : PageRef}

/-- The cursor leads to pages in use by a chart that has grown. -/
theorem Grounded.rebase (hgrounded : k.Grounded base policy c) : k.Grounded c policy c where
  le := Chart.le_refl c
  policy_eq := hgrounded.policy_eq
  leads f hf := by
    have hleads := hgrounded.leads f hf
    cases hnode : f.node with
    | root r =>
        rw [hnode] at hleads
        exact ⟨hleads.1, hleads.2.mono hgrounded.le⟩
    | page copy =>
        rw [hnode] at hleads
        exact fun m hm => ⟨(hleads m hm).1, (hleads m hm).2.mono hgrounded.le⟩

/-- The cursor leads to pages in use. -/
def Led (policy : Policy ι) (k : Cursor ι) (c : Chart) : Prop :=
  k.Grounded c policy c

theorem Led.mono (hk : k.Led policy c) (hle : c ≤ c') : k.Led policy c' :=
  (Grounded.mono hk hle).rebase

/-- A cursor over a tree that is in use. -/
theorem led_start (hrep : Represents s c) (hr : c.refs r) : (start r policy).Led policy c :=
  Grounded.start (Chart.le_refl c) hr (hrep.sound r hr)

/-- A cursor is opened over another tree that is in use. -/
theorem Led.reopened (hk : k.Led policy c) (hrep : Represents s c) (hr : c.refs r) :
    ∃ c', Grows s c (exec (k.reopened r) s).2 c' ∧
      ∀ k', (exec (k.reopened r) s).1 = .ok k' → k'.Led policy c' := by
  have hstart : (start r k.policy).Led k.policy c := led_start hrep hr
  have hskip := CursorM.skip_abides hrep hstart k.position
  rw [Grounded.policy_eq hk] at hskip
  obtain ⟨c', hgrows, hk', -⟩ := hskip
  rw [Cursor.reopened, Grounded.policy_eq hk, StoreM.exec_bind, exec_runOrFail]
  generalize (CursorM.skip k.position).exec (start r policy) s = outcome at hgrows hk'
  obtain ⟨⟨e | _, k'⟩, s'⟩ := outcome
  · exact ⟨c', hgrows, fun _ hok => by cases hok⟩
  · refine ⟨c', hgrows, ?_⟩
    rintro _ ⟨⟩
    exact Grounded.rebase hk'

end Cursor

namespace MapCursorM

/-- The outcome of a move of a client's cursor, and what it leaves. -/
def exec (act : MapCursorM ι α) (k : MapCursor ι) (w : Scene) :
    (Except StoreError α × MapCursor ι) × Scene :=
  let ((outcome, client), store) := ((act.run.run k).run w.client).run w.store
  (outcome, ⟨client, store⟩)

theorem exec_bind (act : MapCursorM ι α) (f : α → MapCursorM ι β) (k : MapCursor ι) (w : Scene) :
    exec (act >>= f) k w =
      match exec act k w with
      | ((.ok a, k'), w') => exec (f a) k' w'
      | ((.error e, k'), w') => ((.error e, k'), w') := by
  simp only [exec, ExceptT.run_bind, StateT.run_bind]
  generalize (((act.run.run k).run w.client).run w.store : Id _) = outcome
  obtain ⟨⟨⟨_ | _, _⟩, _⟩, _⟩ := outcome <;> rfl

theorem exec_ofClient (act : ClientStepM α) (k : MapCursor ι) (w : Scene) :
    exec (ofClient act) k w = (((ClientM.exec act w).1, k), (ClientM.exec act w).2) := rfl

/-- A cursor that has failed is opened again over the tree that is current then. -/
theorem exec_reopenIfStale (k : MapCursor ι) (w : Scene) :
    exec reopenIfStale k w =
      if k.isStale then
        match StoreM.exec (k.cursor.reopened w.client.trunk.tree.root) w.store with
        | (.ok cursor, s) => ((.ok (), { k with cursor, isStale := false }), ⟨w.client, s⟩)
        | (.error e, s) => ((.error e, k), ⟨w.client, s⟩)
      else ((.ok (), k), w) := by
  show exec (if k.isStale then _ else pure ()) k w = _
  split
  · show exec (ofClient (ClientM.ofStore (k.cursor.reopened w.client.trunk.tree.root)) >>= _) k w = _
    rw [exec_bind, exec_ofClient, ClientM.exec_ofStore]
    generalize StoreM.exec (k.cursor.reopened w.client.trunk.tree.root) w.store = outcome
    obtain ⟨_ | _, _⟩ := outcome <;> rfl
  · rfl

/-- The move leaves the replica in step and a cursor that leads to pages in use, whether or not it
fails. -/
def Attends (start : Replica) (policy : Policy ι) (act : MapCursorM ι α) : Prop :=
  ∀ k w c, w.InStep start c → k.cursor.Led policy c → ∃ c', c ≤ c' ∧
    (exec act k w).2.InStep start c' ∧ (exec act k w).1.2.cursor.Led policy c'

namespace Attends

variable {start : Replica} {policy : Policy ι}

protected theorem pure (a : α) : Attends start policy (pure a) :=
  fun _ _ c hw hk => ⟨c, Chart.le_refl c, hw, hk⟩

protected theorem throw (e : StoreError) : Attends start policy (throw e : MapCursorM ι α) :=
  fun _ _ c hw hk => ⟨c, Chart.le_refl c, hw, hk⟩

protected theorem bind {act : MapCursorM ι α} {f : α → MapCursorM ι β}
    (hact : Attends start policy act) (hf : ∀ a, Attends start policy (f a)) :
    Attends start policy (act >>= f) := by
  intro k w c hw hk
  obtain ⟨c', hle, hw', hk'⟩ := hact k w c hw hk
  rw [exec_bind]
  generalize exec act k w = outcome at hw' hk'
  obtain ⟨⟨_ | a, k'⟩, w'⟩ := outcome
  · exact ⟨c', hle, hw', hk'⟩
  · obtain ⟨c'', hle', hw'', hk''⟩ := hf a k' w' c' hw' hk'
    exact ⟨c'', Chart.le_trans hle hle', hw'', hk''⟩

/-- To look at the cursor changes nothing. -/
protected theorem get : Attends start policy (get : MapCursorM ι (MapCursor ι)) :=
  fun _ _ c hw hk => ⟨c, Chart.le_refl c, hw, hk⟩

theorem ofClient {act : ClientStepM α} (hact : ClientM.Attends start act) :
    Attends start policy (ofClient act) := by
  intro k w c hw hk
  obtain ⟨c', hle, hw'⟩ := hact w c hw
  exact ⟨c', hle, hw', hk.mono hle⟩

theorem ofCursor {act : CursorM ι α}
    (hact : ∀ {k : Cursor ι} {s c}, Represents s c → k.Led policy c →
      CursorM.Abides c policy act k s c) : Attends start policy (ofCursor act) := by
  intro k w c hw hk
  obtain ⟨c', hgrows, hk', -⟩ := hact hw.represents hk
  exact ⟨c', hgrows.le, hw.grows hgrows, hk'.rebase⟩

theorem reopenIfStale : Attends start policy reopenIfStale := by
  intro k w c hw hk
  rw [exec_reopenIfStale]
  split
  · obtain ⟨c', hgrows, hk'⟩ := hk.reopened hw.represents hw.root
    have hw' := hw.grows hgrows
    generalize StoreM.exec (k.cursor.reopened w.client.trunk.tree.root) w.store = outcome
      at hgrows hk' hw'
    obtain ⟨e | cursor, s⟩ := outcome
    · exact ⟨c', hgrows.le, hw', hk.mono hgrows.le⟩
    · exact ⟨c', hgrows.le, hw', hk' cursor rfl⟩
  · exact ⟨c, Chart.le_refl c, hw, hk⟩

theorem attempt {move : MapCursorM ι α} (hmove : Attends start policy move) :
    Attends start policy (attempt move) :=
  reopenIfStale.bind fun _ => hmove

theorem retryWithin {move : MapCursorM ι α} (hmove : Attends start policy move) (left : Nat) :
    Attends start policy (retryWithin move left) := by
  induction left with
  | zero => exact hmove.attempt
  | succ left ih =>
      have hattempting : Attends start policy (attempting (MapCursorM.attempt move)) :=
        hmove.attempt
      refine hattempting.bind fun outcome => ?_
      cases outcome with
      | ok a => exact .pure a
      | error e =>
          refine (ofClient (ClientM.pass_attends e left)).bind fun _ => ?_
          have hstale : Attends start policy
              (modify fun k => { k with isStale := true } : MapCursorM ι Unit) :=
            fun _ _ c hw hk => ⟨c, Chart.le_refl c, hw, hk⟩
          exact hstale.bind fun _ => ih

theorem retrying {move : MapCursorM ι α} (hmove : Attends start policy move) :
    Attends start policy (retrying move) :=
  (ofClient (.look fun _ => rfl)).bind fun s => hmove.retryWithin s.settings.maxRetries

end Attends
end MapCursorM

/-- The one client that there is turns to no other. -/
theorem Client.turnedTo_alone {client : Client} (hothers : client.others = []) (number : Nat) :
    client.turnedTo number = client := by
  rw [Client.turnedTo, hothers]
  rfl

/-- A cursor is at work on the trunk of the one client that there is. -/
theorem MapCursor.run_alone {k : MapCursor ι} {w : Scene} {move : MapCursorM ι α}
    (hothers : w.client.others = []) (hothers' : (move.exec k w).2.client.others = []) :
    ((k.run move).run w.client).run w.store =
      (((move.exec k w).1, (move.exec k w).2.client), (move.exec k w).2.store) := by
  have hrun : ((k.run move).run w.client).run w.store =
      let moved := move.exec k { w with client := w.client.turnedTo k.trunk }
      ((moved.1, moved.2.client.turnedTo w.client.number), moved.2.store) := rfl
  rw [hrun, Client.turnedTo_alone hothers]
  dsimp only
  rw [Client.turnedTo_alone hothers']

/-- A move of a cursor of a client. -/
inductive MapMove where
  | advance (d : Direction)
  | head
  | hasNext
  | hasPrevious
  | skip (count : Nat)

namespace MapMove

/-- Makes the move. -/
def make : MapMove → MapCursorM ι Unit
  | advance d => discard (MapCursorM.advance d)
  | head => discard MapCursorM.head
  | hasNext => discard MapCursorM.hasNext
  | hasPrevious => discard MapCursorM.hasPrevious
  | skip count => discard (MapCursorM.skip count)

theorem make_attends {start : Replica} {policy : Policy ι}
    (hdecides : ∀ base, policy.Decides base) (move : MapMove) :
    MapCursorM.Attends start policy move.make := by
  have hadvance : ∀ {d : Direction} {k : Cursor ι} {s : Store} {c : Chart}, Represents s c →
      k.Led policy c → CursorM.Abides c policy (CursorM.advance d) k s c :=
    fun hrep hk => CursorM.advance_abides (hdecides _) hrep hk
  have hdiscard : ∀ {β : Type} {act : MapCursorM ι β}, MapCursorM.Attends start policy act →
      MapCursorM.Attends start policy (discard act) :=
    fun hact => hact.bind fun _ => .pure _
  cases move with
  | advance d => exact hdiscard (.retrying (.ofCursor hadvance))
  | head => exact hdiscard (.retrying (.ofCursor fun hrep hk => (hadvance hrep hk).glance hk))
  | hasNext =>
      exact hdiscard (.retrying (.ofCursor fun hrep hk => ((hadvance hrep hk).glance hk).isSome))
  | hasPrevious =>
      exact hdiscard (.retrying (.ofCursor fun hrep hk => ((hadvance hrep hk).glance hk).isSome))
  | skip count =>
      refine hdiscard (.bind .get fun k => .bind (.retrying ?_) fun _ => .bind .get fun _ => .pure _)
      exact .bind .get fun _ => .ofCursor fun hrep hk => CursorM.skip_abides hrep hk _

end MapMove

/-! ## The use of a map -/

/-- An operation of which the observer is told what it is to be told, with something in the way of
its attempts. -/
def Operation.request (h : Hindrance) (op : Operation) : ClientM (Option Value) :=
  ClientM.update (h.before fun snapshot => op.run snapshot) fun answer =>
    (op.tells answer).forM ClientM.tell

/-- What a client's map holds. -/
structure Scene.Shows (w : Scene) (es : List Entry) : Prop where
  size : w.client.trunk.tree.span = es.length
  /-- Whatever a read of the entries brings is right. -/
  right : ∀ found s, exec (Query.entries.run w.client.trunk.tree) w.store = (.ok found, s) →
    found = es
  /-- Where the pages of the tree are in memory, or the zones give them, the entries are read. -/
  read : ∀ c, Represents w.store c → c.refs w.client.trunk.tree.root → Serves w.store c →
    (exec (Query.entries.run w.client.trunk.tree) w.store).1 = .ok es

namespace OrderedMap

/-- A client of an ordered map with its store, and the cursors that it has opened. -/
structure State where
  scene : Scene
  cursors : List (MapCursor Entry)

namespace State

/-- The client has taken a step, which has come back or has failed. -/
def after (x : State) (step : ClientStepM α) : State :=
  { x with scene := (ClientM.exec step x.scene).2 }

/-- The client has made a call, which has come back or has failed. -/
def Calls (x : State) (call : ClientM α) (y : State) : Prop :=
  ∃ outcome scene, ClientM.outcome? call x.scene = some (outcome, scene) ∧ y = { x with scene }

/-- The client has made a call that comes to an end within so many rounds of an attempt. -/
def afterRounds (x : State) (attempt : ClientStepM (Option α)) (n : Nat) : State :=
  match ClientM.rounds attempt n x.scene.maxRetries x.scene.begun with
  | some run => { x with scene := run.2 }
  | none => x

theorem calls_afterRounds {x : State} {call : ClientM α} {attempt : ClientStepM (Option α)}
    (hrepeats : ClientM.Repeats call attempt) (n : Nat)
    (hends : (ClientM.rounds attempt n x.scene.maxRetries x.scene.begun).isSome) :
    x.Calls call (x.afterRounds attempt n) := by
  obtain ⟨⟨outcome, scene⟩, hrounds⟩ := Option.isSome_iff_exists.1 hends
  refine ⟨outcome, scene, hrepeats.outcome?_iff.2 ⟨n, hrounds⟩, ?_⟩
  rw [afterRounds, hrounds]

/-- Something has become of the store. -/
def withStore (x : State) (s : Store) : State :=
  { x with scene := { x.scene with store := s } }

/-- The client has made a move of a cursor, which has come back or has failed. -/
def afterMove (x : State) (k : MapCursor Entry) (move : MapCursorM Entry α) : State :=
  let (((_, moved), client), store) := ((k.run move).run x.scene.client).run x.scene.store
  ⟨⟨client, store⟩, moved :: x.cursors⟩

/-- A client that is observed comes to the tree of a system, and no one else is at work there.  Its
trunk has the tree with any post, and a version that is not older than the tree's: a commit of an
older trunk leaves pages unwritten beneath pages that it writes, and they are lost when the tree is
softened. -/
structure Begins (y : System) (x : State) : Prop where
  store : x.scene.store = y.store
  tree : x.scene.client.trunk.tree = y.trunk.tree
  version : y.trunk.version ≤ x.scene.client.trunk.version
  isObserved : x.scene.client.isObserved = true
  rival : x.scene.client.rival = none
  others : x.scene.client.others = []
  cursors : x.cursors = []

end State

/-- The calls that change a map, fold it or move it to other zones. -/
inductive Call : {α : Type} → ClientM α → Prop where
  | put (key value : Value) : Call (put key value)
  | remove (key : Value) : Call (remove key)
  | drop (lower : Nat) : Call (drop lower)
  | take (upper : Nat) : Call (take upper)
  | reduced (f : PageRef.Folding) : Call (ClientM.reduced f)
  | evacuate (post : Nat) : Call (ClientM.evacuate post)
  /-- A change whose attempts something gets in the way of. -/
  | hindered {op : Operation} (h : Hindrance) (suits : op.Suits .btree) : Call (op.request h)

/-- What happens to a map, one thing after another. -/
inductive Turn : State → State → Prop where
  | call {x y : State} {α : Type} {act : ClientM α} (call : Call act) (calls : x.Calls act y) :
      Turn x y
  | clear {x : State} : Turn x (x.after ClientM.clear)
  | commit {x : State} (request : Commit) : Turn x (x.after (ClientM.commit request))
  | read {x : State} {query : Query} (suits : query.Suits .btree) : Turn x (x.after query.ask)
  /-- A read whose attempts something gets in the way of. -/
  | hinderedRead {x : State} {query : Query} (h : Hindrance) (suits : query.Suits .btree) :
      Turn x (x.after (ClientM.read (h.before fun t => query.run t)))
  /-- The post of the trunk is raised, and nothing is moved yet. -/
  | raisePost {x : State} (post : Nat) :
      Turn x (x.after do ClientM.setTrunk ((← ClientM.trunk).raisePost post))
  | tend {x : State} {s : Store} (tending : x.scene.client.trunk.Tending x.scene.store s) :
      Turn x (x.withStore s)
  | openCursor {x : State} {policy : Policy Entry} (scans : policy.Scans .btree) :
      Turn x { x with cursors := .start x.scene.client policy :: x.cursors }
  | toEnd {x : State} {k : MapCursor Entry} (opened : k ∈ x.cursors) :
      Turn x { x with cursors := k.toEnd :: x.cursors }
  | move {x : State} {k : MapCursor Entry} (opened : k ∈ x.cursors) (move : MapMove) :
      Turn x (x.afterMove k move.make)

/-! ## Calls that attend to the observer -/

section

variable {start : Replica}

theorem request_heeds (h : Hindrance) {op : Operation} (hsuits : op.Suits .btree) :
    ClientM.Heeds start (op.request h) := by
  rw [Operation.request, ← op.giving_id]
  exact ClientM.update_heeds h op id hsuits fun answer => ClientM.tells_all _

/-- With nothing in the way, the request is the client's own removal. -/
theorem remove_eq (key : Value) : remove key = (Operation.remove key).request .none := by
  rw [Operation.orderedMap_remove, Operation.request, Hindrance.none_before]
  show ClientM.update _ _ = ClientM.update _ _
  congr 1
  funext answer
  cases answer <;> simp [Operation.tells]

/-- With nothing in the way, the request to put a value is the client's own. -/
theorem put_eq (key value : Value) : put key value = (Operation.put key value).request .none := by
  rw [Operation.orderedMap_put]
  cases hdefined : value.isDefined with
  | false =>
      have habsent : value = .absent := by
        cases value with
        | absent => rfl
        | _ => cases hdefined
      rw [habsent, if_neg Bool.false_ne_true]
      exact remove_eq key
  | true =>
      rw [if_pos rfl, Operation.request, Hindrance.none_before]
      show ClientM.update _ _ = ClientM.update _ _
      congr 1
      funext answer
      simp [Operation.tells, hdefined]

theorem raisePost_attends (post : Nat) :
    ClientM.Attends start (do ClientM.setTrunk ((← ClientM.trunk).raisePost post)) :=
  fun _ c hw => ⟨c, Chart.le_refl c, hw.represents, hw.zones, hw.isObserved, hw.rival, hw.others,
    hw.retold⟩

/-- To evacuate a map is to raise the post and then to rebuild its tree. -/
theorem outcome?_evacuate (post : Nat) (w : Scene) :
    ClientM.outcome? (ClientM.evacuate post) w =
      ClientM.outcome? (ClientM.updateTree (fun snapshot => Operation.evacuate.runSilently snapshot)
        ClientM.tellNoMore)
        (ClientM.exec (do ClientM.setTrunk ((← ClientM.trunk).raisePost post)) w).2 := by
  rw [Operation.clientM_evacuate]
  rfl

theorem Call.heeds {act : ClientM α} (hcall : Call act) : ClientM.Heeds start act := by
  cases hcall with
  | put key value =>
      rw [put_eq]
      exact request_heeds .none rfl
  | remove key =>
      rw [remove_eq]
      exact request_heeds .none rfl
  | drop lower =>
      rw [Operation.orderedMap_drop]
      exact ClientM.update_heeds .none (.drop lower) (fun _ => ()) rfl
        fun _ => ClientM.tells_one (.drop lower)
  | take upper =>
      rw [Operation.orderedMap_take]
      exact ClientM.update_heeds .none (.take upper) (fun _ => ()) rfl
        fun _ => ClientM.tells_one (.take upper)
  | reduced f =>
      rw [Operation.clientM_reduced]
      exact ClientM.update_heeds .none (.reduce f) Value.ofOption trivial fun _ _ _ => rfl
  | evacuate post =>
      intro w c run hw hrun
      rw [outcome?_evacuate] at hrun
      obtain ⟨c', hle, hw'⟩ := raisePost_attends post w c hw
      obtain ⟨c'', hle', hrun'⟩ := ClientM.update_heeds .none .evacuate (fun _ => ()) trivial
        (fun _ _ _ => rfl) _ c' run hw' hrun
      exact ⟨c'', Chart.le_trans hle hle', hrun'⟩
  | hindered h suits => exact request_heeds h suits

/-- Each of the calls comes back or fails. -/
theorem Call.comes_back {act : ClientM α} (hcall : Call act) (x : State) : ∃ y, x.Calls act y := by
  have hends : ∃ run, ClientM.outcome? act x.scene = some run := by
    cases hcall with
    | put key value =>
        rw [put_eq]
        exact ClientM.update_before_comes_back _ _ _ _
    | remove key =>
        rw [remove_eq]
        exact ClientM.update_before_comes_back _ _ _ _
    | drop lower => exact ClientM.updateTree_comes_back _ _ _
    | take upper => exact ClientM.updateTree_comes_back _ _ _
    | reduced f => exact ClientM.updateTree_comes_back _ _ _
    | evacuate post =>
        rw [outcome?_evacuate]
        exact ClientM.updateTree_comes_back _ _ _
    | hindered h suits => exact ClientM.update_before_comes_back h _ _ _
  obtain ⟨⟨outcome, scene⟩, hend⟩ := hends
  exact ⟨_, outcome, scene, hend, rfl⟩

theorem ask_attends {query : Query} (hsuits : query.Suits .btree) :
    ClientM.Attends start query.ask := by
  rw [query.ask_eq]
  exact ClientM.read_attends .none hsuits

end

/-! ## What turns keep -/

/-- The replica is in step, and the cursors lead to pages in use. -/
structure State.InStep (start : Replica) (x : State) (c : Chart) : Prop where
  scene : x.scene.InStep start c
  cursors : ∀ k ∈ x.cursors, ∃ policy, policy.Scans .btree ∧ k.cursor.Led policy c

section

variable {start : Replica} {x y : State} {c c' : Chart}

/-- The scene changes, and the pages in use stay so. -/
theorem State.InStep.withScene (hx : x.InStep start c) {w : Scene} (hle : c ≤ c')
    (hw : w.InStep start c') : State.InStep start { x with scene := w } c' := by
  refine ⟨hw, fun k hk => ?_⟩
  obtain ⟨policy, hscans, hled⟩ := hx.cursors k hk
  exact ⟨policy, hscans, hled.mono hle⟩

theorem State.InStep.after (hx : x.InStep start c) {step : ClientStepM α}
    (hattends : ClientM.Attends start step) : ∃ c', (x.after step).InStep start c' := by
  obtain ⟨c', hle, hw⟩ := hattends x.scene c hx.scene
  exact ⟨c', hx.withScene hle hw⟩

theorem State.InStep.calls (hx : x.InStep start c) {act : ClientM α} (hcall : Call act)
    (hcalls : x.Calls act y) : ∃ c', y.InStep start c' := by
  obtain ⟨outcome, scene, hend, rfl⟩ := hcalls
  obtain ⟨c', hle, hw⟩ := hcall.heeds x.scene c _ hx.scene hend
  exact ⟨c', hx.withScene hle hw⟩

theorem State.afterMove_eq {k : MapCursor Entry} {move : MapCursorM Entry α}
    (hothers : x.scene.client.others = [])
    (hothers' : (move.exec k x.scene).2.client.others = []) :
    x.afterMove k move =
      ⟨(move.exec k x.scene).2, (move.exec k x.scene).1.2 :: x.cursors⟩ := by
  rw [State.afterMove, MapCursor.run_alone hothers hothers']

theorem State.InStep.afterMove (hx : x.InStep start c) {k : MapCursor Entry}
    (hk : k ∈ x.cursors) (move : MapMove) :
    ∃ c', (x.afterMove k move.make).InStep start c' := by
  obtain ⟨policy, hscans, hled⟩ := hx.cursors k hk
  obtain ⟨c', hle, hw, hled'⟩ :=
    move.make_attends (fun _ => hscans.decides) k x.scene c hx.scene hled
  rw [State.afterMove_eq hx.scene.others hw.others]
  refine ⟨c', hw, List.forall_mem_cons.2 ⟨⟨policy, hscans, hled'⟩, fun k' hk' => ?_⟩⟩
  obtain ⟨policy', hscans', hled''⟩ := hx.cursors k' hk'
  exact ⟨policy', hscans', hled''.mono hle⟩

/-- Another cursor may be opened. -/
theorem State.InStep.withCursor (hx : x.InStep start c) {k : MapCursor Entry}
    {policy : Policy Entry} (hscans : policy.Scans .btree) (hled : k.cursor.Led policy c) :
    State.InStep start { x with cursors := k :: x.cursors } c :=
  ⟨hx.scene, List.forall_mem_cons.2 ⟨⟨policy, hscans, hled⟩, hx.cursors⟩⟩

/-- A turn leaves the replica in step. -/
theorem State.InStep.turn (hx : x.InStep start c) (hturn : Turn x y) :
    ∃ c', y.InStep start c' := by
  cases hturn with
  | call call calls => exact hx.calls call calls
  | clear => exact hx.after ClientM.clear_attends
  | commit request => exact hx.after (ClientM.commit_attends request)
  | read suits => exact hx.after (ask_attends suits)
  | hinderedRead h suits => exact hx.after (ClientM.read_attends h suits)
  | raisePost post => exact hx.after (raisePost_attends post)
  | tend tending =>
      obtain ⟨c', hle, hw⟩ := hx.scene.tended (.single tending)
      exact ⟨c', hx.withScene hle hw⟩
  | openCursor scans =>
      exact ⟨c, hx.withCursor scans (Cursor.led_start hx.scene.represents hx.scene.root)⟩
  | toEnd opened =>
      obtain ⟨policy, hscans, hled⟩ := hx.cursors _ opened
      exact ⟨c, hx.withCursor hscans (Cursor.Grounded.toEnd hled)⟩
  | move opened move => exact hx.afterMove opened move

theorem State.InStep.run (hx : x.InStep start c) (hrun : Relation.ReflTransGen Turn x y) :
    ∃ c', y.InStep start c' := by
  induction hrun with
  | refl => exact ⟨c, hx⟩
  | tail _ hturn ih =>
      obtain ⟨c', hy⟩ := ih
      exact hy.turn hturn

end

/-! ## What an observer knows -/

/-- A cursor yields the entries of a B-tree in order. -/
theorem items_runs {s : Store} {c : Chart} {version stem : Nat} {r : PageRef} {es : List Entry}
    (hrep : Represents s c) (hroot : BTree.Root c stem version r es) :
    Runs ((Cursor.start r Policy.entries).items .forward) s c fun found _ _ => found = es := by
  obtain ⟨q, hq, htree, -⟩ := hroot.fit.page
  have hkind : r.tree = .btree := (hrep.fits r q hroot.fit.refs hq).1.trans htree
  obtain ⟨items, hitems⟩ := hrep.hasItems Policy.entries_yieldsAll hroot.fit.refs hkind
  refine (Cursor.items_start_runs hrep Policy.entries_yieldsAll.follows hitems).mono ?_
  rintro _ s' c' - rfl
  obtain ⟨depth, shapes, hreads, rfl⟩ := hitems.reads
  obtain ⟨height, hup⟩ := hroot
  exact hup.holds.reads hreads

/-- The map holds what the tree has by a chart. -/
theorem shows_of_has {w : Scene} {c : Chart} {es : List Entry} (hrep : Represents w.store c)
    (hhas : c.Has w.client.trunk.version w.client.trunk.tree (.listing es)) : w.Shows es := by
  have hroot := BTree.Contains.root hhas
  have hruns := items_runs hrep hroot
  have hright : ∀ found s,
      exec (Query.entries.run w.client.trunk.tree) w.store = (.ok found, s) → found = es := by
    intro found s hexec
    obtain ⟨-, -, rfl⟩ := hruns.of_ok hexec
    rfl
  refine ⟨hroot.span hrep, hright, fun c' hrep' hr hserves => ?_⟩
  -- what is served by another chart is read all the same
  obtain ⟨items, hitems⟩ :=
    Cursor.exists_items Policy.entries_yieldsAll.sifts (hrep'.sound _ hr)
  obtain ⟨found, s, -, hexec, -, -⟩ :=
    (hitems w.store c' _ (Chart.le_refl c') hrep' hr rfl).succeeds hserves
  have hread : exec (Query.entries.run w.client.trunk.tree) w.store = (.ok found, s) := hexec
  rw [hread, hright found s hread]

variable {allowed : Operation → Prop} {seed : Seed} {y : System} {past : List System}
  {x z : State}

/-- A client comes to an ordered map, whatever the map has been through before.  Whatever happens
from then on, the events that the observer has been told of, replayed in order on the entries that
the map had, make of them the entries that it has; and each event is right about the value that
the replica has for its key at that moment.  Every call comes back or fails. -/
theorem events_retell (hlives : System.Lives allowed seed y past)
    (hkind : y.trunk.tree.kind = .btree) (hbegins : x.Begins y)
    (hrun : Relation.ReflTransGen Turn x z) :
    (∃ es told, PageTree.replay y.trunk.tree.kind y.log = .listing es ∧ x.scene.Shows es ∧
      z.scene.client.events = told.reverse ++ x.scene.client.events ∧
      (∀ before e after, told = before ++ e :: after →
        e.Recalls (before.foldl Event.replay es)) ∧
      z.scene.Shows (told.foldl Event.replay es)) ∧
      ∀ {α : Type} {act : ClientM α}, Call act → ∃ z', z.Calls act z' := by
  refine ⟨?_, fun hcall => hcall.comes_back z⟩
  obtain ⟨origin, c, hy, -⟩ := hlives.coherent
  have hhas := hy.has.raise hbegins.version
  have horigin : y.trunk.tree.kind = origin.kind := hy.kin.kind
  rw [← horigin] at hhas
  -- a tree of this kind has a list of entries
  obtain ⟨es, hes⟩ : ∃ es, PageTree.replay y.trunk.tree.kind y.log = .listing es := by
    have hcontent : (PageTree.replay y.trunk.tree.kind y.log).kind = .btree := by
      rw [kind_replay, hkind]
    cases hreplay : PageTree.replay y.trunk.tree.kind y.log with
    | listing es => exact ⟨es, rfl⟩
    | register | plane =>
        rw [hreplay] at hcontent
        cases hcontent
  rw [hes, ← hbegins.tree] at hhas
  have hrep : Represents x.scene.store c := by
    rw [hbegins.store]
    exact hy.represents
  have hx : x.InStep ⟨x.scene.client.events, es⟩ c := by
    refine ⟨⟨hrep, ?_, hbegins.isObserved, hbegins.rival, hbegins.others,
      [], es, rfl, .nil es, hhas⟩, ?_⟩
    · rw [hbegins.store]
      exact hy.zones
    · rw [hbegins.cursors]
      exact fun k hk => absurd hk List.not_mem_nil
  obtain ⟨c', hz⟩ := hx.run hrun
  obtain ⟨told, es', hevents, hretells, hhas'⟩ := hz.scene.retold
  refine ⟨es, told, hes, shows_of_has hrep hhas, hevents, fun before e after => hretells.recalls, ?_⟩
  rw [hretells.foldl_eq]
  exact shows_of_has hz.scene.represents hhas'

/-- Half an hour goes by before each attempt. -/
def slowly : Hindrance where
  befall _ := modify fun s => { s with uptime := s.uptime + 1800 * 10 ^ 9 }
  tends _ _ := .single (.pass _)

/-- Two entries are stored.  An hour later a third one is, and the store asks for a commit, after which
the pages are let go of.  Then two loads fail that a slow removal needs, so the client gives up the
entries; by then it is time for another commit, which is made before the last attempt finds nothing to
remove.  An entry is stored after that. -/
theorem events_retell_reset :
    ∃ x z, State.Begins System.crowded x ∧ Relation.ReflTransGen Turn x z ∧
      x.scene.client.trunk.version = 1 ∧ z.scene.client.trunk.version = 3 ∧
      z.scene.client.events = [.change 1 0, .update (.int 2) (.int 20) .absent, .change 0 3, .clear,
        .change 3 2, .update (.int 3) (System.long 3) .absent,
        .change 2 1, .update (.int 2) (System.long 2) .absent,
        .change 1 0, .update (.int 1) (System.long 1) .absent] ∧
      z.scene.Shows [(.int 2, .int 20)] := by
  have hbegins : State.Begins System.crowded
      ⟨⟨.ofTree System.crowded.trunk.tree true, System.crowded.store⟩, []⟩ :=
    ⟨rfl, rfl, Nat.le_refl _, rfl, rfl, rfl, rfl⟩
  have hrun := (Relation.ReflTransGen.single (Turn.call
      (x := ⟨⟨.ofTree System.crowded.trunk.tree true, System.crowded.store⟩, []⟩)
      (.put (.int 1) (System.long 1))
      (State.calls_afterRounds (ClientM.update_repeats _ _) 1 (by decide +kernel))))
    |>.tail (Turn.call (.put (.int 2) (System.long 2))
      (State.calls_afterRounds (ClientM.update_repeats _ _) 1 (by decide +kernel)))
    |>.tail (Turn.tend (.pass (3600 * 10 ^ 9)))
    |>.tail (Turn.call (.put (.int 3) (System.long 3))
      (State.calls_afterRounds (ClientM.update_repeats _ _) 1 (by decide +kernel)))
    |>.tail (Turn.tend .soften)
    |>.tail (Turn.tend (.reclaim ⟨[], []⟩))
    |>.tail (Turn.tend (.failNext 2))
    |>.tail (Turn.call (@Call.hindered (.remove (.int 1)) slowly rfl)
      (State.calls_afterRounds (ClientM.update_repeats _ _) 3 (by decide +kernel)))
    |>.tail (Turn.call (.put (.int 2) (.int 20))
      (State.calls_afterRounds (ClientM.update_repeats _ _) 1 (by decide +kernel)))
  have hlives : System.Lives (fun _ => True) System.orderedSeed System.crowded [] :=
    .start System.starts_crowded
  obtain ⟨⟨es, told, hes, -, hevents, -, hshows⟩, -⟩ := events_retell hlives rfl hbegins hrun
  cases (hes : Content.listing [] = .listing es)
  have htold : told = [.update (.int 1) (System.long 1) .absent, .change 1 0,
      .update (.int 2) (System.long 2) .absent, .change 2 1,
      .update (.int 3) (System.long 3) .absent, .change 3 2, .clear, .change 0 3,
      .update (.int 2) (.int 20) .absent, .change 1 0] := by
    rw [← List.reverse_reverse told, ← List.append_nil told.reverse]
    exact (congrArg List.reverse hevents.symm).trans (by decide +kernel)
  rw [htold] at hevents hshows
  exact ⟨_, _, hbegins, hrun, rfl, by decide +kernel, hevents, hshows⟩

end OrderedMap
end PageTree
