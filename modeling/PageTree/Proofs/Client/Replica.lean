import PageTree.Proofs.Cache.Answers
import PageTree.Proofs.Client.Commits
import PageTree.Proofs.Posts.Turns

/-!
# Replicas of a map

Whoever is told of the changes of an ordered map can keep a copy of it: `Event.replay` is what an
event makes of the entries.  A client keeps such a copy in step with its map (`Scene.InStep`)
through whatever it does, if it gives up the entries or commits on the way too: it tells of a
change after the tree has been swapped in, once, and tells nothing of an attempt that came to
nothing (`ClientM.Attends`).
-/

namespace PageTree

open StoreM

variable {α β : Type}

/-! ## Replaying events -/

namespace Event

/-- What an event makes of the entries of a map. -/
def replay (es : List Entry) : Event → List Entry
  | update key new _ => Listing.put key new es
  | remove key _ => Listing.erase key es
  | drop lower => es.drop lower
  | take upper => es.take upper
  | clear => []
  | change _ _ | race _ _ | raceFailed _ | notify => es

/-- The event is right about the value that its key has had. -/
def Recalls (es : List Entry) : Event → Prop
  | update key _ old => old = Value.ofOption (Listing.lookup key es)
  | remove key old => Listing.lookup key es = some old
  | _ => True

end Event

/-- The events, first first, lead from some entries to others, and each of them is right about the
entries that it finds. -/
inductive Retells : List Entry → List Event → List Entry → Prop where
  | nil (es : List Entry) : Retells es [] es
  | cons {es es' : List Entry} {e : Event} {events : List Event} (recalls : e.Recalls es)
      (rest : Retells (e.replay es) events es') : Retells es (e :: events) es'

namespace Retells

variable {es es' es'' : List Entry} {told told' : List Event}

theorem append (h : Retells es told es') (h' : Retells es' told' es'') :
    Retells es (told ++ told') es'' := by
  induction h with
  | nil => exact h'
  | cons recalls _ ih => exact .cons recalls (ih h')

theorem foldl_eq (h : Retells es told es') : told.foldl Event.replay es = es' := by
  induction h with
  | nil => rfl
  | cons _ _ ih => exact ih

/-- Each event is right about the entries that those before it lead to. -/
theorem recalls {before after : List Event} {e : Event} (h : Retells es told es')
    (htold : told = before ++ e :: after) : e.Recalls (before.foldl Event.replay es) := by
  induction before generalizing es told with
  | nil =>
      subst htold
      cases h with
      | cons recalls _ => exact recalls
  | cons e' before ih =>
      subst htold
      cases h with
      | cons _ rest => exact ih rest rfl

end Retells

/-! ## What operations are to tell -/

/-- What the observer is to be told of an operation that has given such an answer.  To put no value
is to remove the key. -/
def Operation.tells : Operation → Option Value → List Event
  | put key value, old =>
    if value.isDefined then [.update key value (Value.ofOption old)]
    else old.toList.map (.remove key)
  | remove key, old => old.toList.map (.remove key)
  | drop lower, _ => [.drop lower]
  | take upper, _ => [.take upper]
  | clear, _ => [.clear]
  | _, _ => []

/-- The removal of a key is told if there was something to remove. -/
theorem Retells.erase {es : List Entry} (hsorted : Entries.Sorted es) (key : Value) :
    Retells es ((Listing.lookup key es).toList.map (.remove key)) (Listing.erase key es) := by
  cases hlookup : Listing.lookup key es with
  | none =>
      have hsame : Listing.update key .absent es = es :=
        (Entries.update_eq_self_iff hsorted).2 hlookup
      change Listing.erase key es = es at hsame
      rw [hsame]
      exact .nil es
  | some old => exact .cons hlookup (.nil _)

/-- What is told of an operation leads to what it makes of the entries. -/
theorem Operation.retells {op : Operation} {es : List Entry} {answer : Option Value}
    (hsorted : Entries.Sorted es) (hsuits : op.Suits .btree)
    (hanswers : op.Answers (.listing es) answer) :
    ∃ es', op.apply (.listing es) = .listing es' ∧ Retells es (op.tells answer) es' := by
  cases op with
  | put key value =>
      obtain rfl : answer = Listing.lookup key es := hanswers
      refine ⟨_, rfl, ?_⟩
      rw [tells, Listing.update]
      split
      · exact .cons rfl (.nil _)
      · exact .erase hsorted key
  | remove key =>
      obtain rfl : answer = Listing.lookup key es := hanswers
      exact ⟨_, rfl, .erase hsorted key⟩
  | drop lower => exact ⟨_, rfl, .cons trivial (.nil _)⟩
  | take upper => exact ⟨_, rfl, .cons trivial (.nil _)⟩
  | clear => exact ⟨_, rfl, .cons trivial (.nil _)⟩
  | evacuate => exact ⟨_, rfl, .nil _⟩
  | reduce f => exact ⟨_, rfl, .nil _⟩
  | set | putAt | removeAt | move => cases hsuits

/-! ## Replicas in step -/

/-- What an observer begins with: the events told before its time, last first, and the entries that
the map had then. -/
structure Replica where
  events : List Event
  entries : List Entry

/-- The client has told of other events. -/
def Scene.hearing (w : Scene) (told : List Event) : Scene :=
  { w with client := { w.client with events := told.reverse ++ w.client.events } }

/-- The store agrees with a chart, by which the client's tree has the entries that the replica has
been led to.  No one else is at work on the trunk. -/
structure Scene.InStep (start : Replica) (w : Scene) (c : Chart) : Prop where
  represents : Represents w.store c
  zones : w.store.zones.Sound
  isObserved : w.client.isObserved = true
  rival : w.client.rival = none
  others : w.client.others = []
  retold : ∃ told es, w.client.events = told.reverse ++ start.events ∧
    Retells start.entries told es ∧
    c.Has w.client.trunk.version w.client.trunk.tree (.listing es)

namespace Scene.InStep

variable {start : Replica} {w : Scene} {c c' : Chart} {s : Store}

/-- The store changes and its trees stay what they are. -/
theorem withStore (hw : w.InStep start c) (hrep : Represents s c') (hzones : s.zones.Sound)
    (hle : c ≤ c') : InStep start { w with store := s } c' where
  represents := hrep
  zones := hzones
  isObserved := hw.isObserved
  rival := hw.rival
  others := hw.others
  retold := by
    obtain ⟨told, es, hevents, hretells, hhas⟩ := hw.retold
    exact ⟨told, es, hevents, hretells, hhas.mono hle⟩

theorem grows (hw : w.InStep start c) (hgrows : Grows w.store c s c') :
    InStep start { w with store := s } c' :=
  hw.withStore hgrows.represents (by rw [hgrows.zones]; exact hw.zones) hgrows.le

/-- The client counts attempts. -/
theorem withAttempts (hw : w.InStep start c) (attempts : Nat) :
    InStep start { w with client := { w.client with attempts } } c :=
  ⟨hw.represents, hw.zones, hw.isObserved, hw.rival, hw.others, hw.retold⟩

/-- A tree is swapped in, and the observer is told of it. -/
theorem change (hw : w.InStep start c) {tree : Tree} {told : List Event} {es es' : List Entry}
    (hhas : c.Has w.client.trunk.version w.client.trunk.tree (.listing es))
    (hhas' : c.Has w.client.trunk.version tree (.listing es')) (hretells : Retells es told es') :
    InStep start ((w.withTree tree).hearing told) c where
  represents := hw.represents
  zones := hw.zones
  isObserved := hw.isObserved
  rival := hw.rival
  others := hw.others
  retold := by
    obtain ⟨before, entries, hevents, hbefore, hbeforeHas⟩ := hw.retold
    cases hbeforeHas.unique hhas rfl
    refine ⟨before ++ told, es', ?_, hbefore.append hretells, hhas'⟩
    show told.reverse ++ w.client.events = _
    rw [hevents, List.reverse_append, List.append_assoc]

/-- The root of the client's tree is in use. -/
theorem root (hw : w.InStep start c) : c.refs w.client.trunk.tree.root := by
  obtain ⟨_, _, -, -, hhas⟩ := hw.retold
  exact hhas.fit.refs

end Scene.InStep

/-! ## Operations that attend to the observer -/

namespace ClientM

variable {start : Replica} {w : Scene} {c c' : Chart}

/-- The operation leaves the replica in step, whether or not it fails. -/
def Attends (start : Replica) (act : ClientStepM α) : Prop :=
  ∀ w c, w.InStep start c → ∃ c', c ≤ c' ∧ (exec act w).2.InStep start c'

/-- The operation tells of events, and does nothing else. -/
def Tells (act : ClientStepM Unit) (told : List Event) : Prop :=
  ∀ w : Scene, w.client.isObserved = true → exec act w = (.ok (), w.hearing told)

theorem tells_one (e : Event) : Tells (tell e) [e] := by
  intro w hobserved
  have htell : exec (tell e) w = exec (if w.client.isObserved then record e else pure ()) w := rfl
  rw [htell, if_pos hobserved]
  rfl

theorem tells_all (events : List Event) : Tells (events.forM tell) events := by
  induction events with
  | nil => exact fun _ _ => rfl
  | cons e events ih =>
      intro w hobserved
      rw [List.forM, exec_bind, tells_one e w hobserved]
      show exec (events.forM tell) (w.hearing [e]) = _
      rw [ih (w.hearing [e]) hobserved]
      simp [Scene.hearing]

namespace Attends

protected theorem pure (a : α) : Attends start (pure a) :=
  fun _ c hw => ⟨c, Chart.le_refl c, hw⟩

protected theorem throw (e : StoreError) : Attends start (throw e : ClientStepM α) :=
  fun _ c hw => ⟨c, Chart.le_refl c, hw⟩

protected theorem bind {act : ClientStepM α} {f : α → ClientStepM β} (hact : Attends start act)
    (hf : ∀ a, Attends start (f a)) : Attends start (act >>= f) := by
  intro w c hw
  obtain ⟨c', hle, hw'⟩ := hact w c hw
  rw [exec_bind]
  generalize exec act w = outcome at hw'
  obtain ⟨_ | a, w'⟩ := outcome
  · exact ⟨c', hle, hw'⟩
  · obtain ⟨c'', hle', hw''⟩ := hf a w' c' hw'
    exact ⟨c'', Chart.le_trans hle hle', hw''⟩

/-- To look at the client, its trunk or the store changes nothing. -/
protected theorem look {act : ClientStepM α} (hact : ∀ w, (exec act w).2 = w) : Attends start act :=
  fun w c hw => ⟨c, Chart.le_refl c, by rw [hact]; exact hw⟩

protected theorem ite {p : Prop} [Decidable p] {act act' : ClientStepM α} (hact : Attends start act)
    (hact' : Attends start act') : Attends start (if p then act else act') := by
  split
  · exact hact
  · exact hact'

theorem ignoring {act : ClientStepM α} (hact : Attends start act) :
    Attends start (ignoring act) :=
  hact

/-- To tell of something that leaves the entries as they are. -/
theorem tell {e : Event} (hrecalls : ∀ es, e.Recalls es) (hreplay : ∀ es, e.replay es = es) :
    Attends start (tell e) := by
  intro w c hw
  obtain ⟨_, es, -, -, hhas⟩ := hw.retold
  have hone : Retells es [e] (e.replay es) := .cons (hrecalls es) (.nil _)
  rw [hreplay] at hone
  refine ⟨c, Chart.le_refl c, ?_⟩
  rw [tells_one e w hw.isObserved]
  exact hw.change hhas hhas hone

end Attends

/-! ## Commits -/

/-- A commit that has no rival to wait for is one of the trunk. -/
theorem exec_commit (hw : w.InStep start c) (request : Commit) :
    ∃ outcome trunk s c', exec (commit request) w =
        (outcome, ⟨{ w.client with trunk }, s⟩) ∧
      Represents s c' ∧ s.zones.Sound ∧ c ≤ c' ∧
      ∀ es, c.Has w.client.trunk.version w.client.trunk.tree (.listing es) →
        c'.Has trunk.version trunk.tree (.listing es) := by
  obtain ⟨_, _, -, -, hhas⟩ := hw.retold
  have hwrite : w.client.trunk.writeBuilt (fun zone base =>
      w.client.trunk.tree.buildDiff zone base w.client.trunk.version) request =
        w.client.trunk.writeDiff request := rfl
  rw [commit_eq, exec_commitBuilding _ request hw.rival, hwrite]
  rcases w.client.trunk.writeDiff_cases hw.represents hw.zones hhas.fit request with
    ⟨-, hexec⟩ | ⟨-, hexec⟩ | ⟨diff, s, c', hexec, hwrote⟩
  · rw [hexec]
    exact ⟨_, w.client.trunk, w.store, c, rfl, hw.represents, hw.zones, Chart.le_refl c,
      fun _ hhas => hhas⟩
  · rw [hexec]
    exact ⟨_, w.client.trunk, w.store, c, rfl, hw.represents, hw.zones, Chart.le_refl c,
      fun _ hhas => hhas⟩
  · rw [hexec]
    have hkept : ∀ es, c.Has w.client.trunk.version w.client.trunk.tree (.listing es) →
        c'.Has (diff.version + 1) diff.committed (.listing es) := by
      rw [hwrote.version]
      exact fun es hhas => (hwrote.has hhas).raise (Nat.le_succ _)
    obtain ⟨s', hdone, hs'⟩ := exec_didCommit diff.commit s
    simp only [hdone]
    rcases hs' with rfl | rfl
    · exact ⟨_, _, _, c', rfl, hwrote.represents.markCommit, hwrote.sound, hwrote.le, hkept⟩
    · exact ⟨_, _, _, c', rfl, ⟨hwrote.represents.markCommit.toMirrors.withZones _,
        hwrote.represents.backed.close⟩, hwrote.sound.close, hwrote.le, hkept⟩

theorem commit_attends (request : Commit) : Attends start (commit request) := by
  intro w c hw
  obtain ⟨outcome, trunk, s, c', hexec, hrep, hzones, hle, hkept⟩ := exec_commit hw request
  refine ⟨c', hle, ?_⟩
  rw [hexec]
  obtain ⟨told, es, hevents, hretells, hhas⟩ := hw.retold
  exact ⟨hrep, hzones, hw.isObserved, hw.rival, hw.others,
    told, es, hevents, hretells, hkept es hhas⟩

theorem didChange_attends (new old : Tree) : Attends start (didChange new old) := by
  refine .bind (.tell (fun _ => trivial) fun _ => rfl) fun _ => .bind ?_ fun request => ?_
  · exact .bind (.look fun _ => rfl) fun _ => .ite (.pure _) (.pure _)
  · cases request with
    | none => exact .pure _
    | some request => exact (commit_attends request).ignoring

/-! ## Giving up -/

/-- A tree without entries takes the place of the client's tree. -/
theorem clear_attends : Attends start clear := by
  intro w c hw
  obtain ⟨b, w', hexec, t, s, hcleared, -, rfl⟩ := exec_clear w
  obtain ⟨told, es, hevents, hretells, hhas⟩ := hw.retold
  obtain ⟨c', hgrows, -, hhas'⟩ := (Tree.cleared_runs hw.represents hhas).of_ok hcleared
  have hw' := hw.grows hgrows
  rw [hexec]
  dsimp only
  split
  · exact ⟨c', hgrows.le, hw'⟩
  · rw [exec_bind, tells_one .clear (Scene.withTree ⟨w.client, s⟩ t) hw.isObserved]
    have hdone : Attends start (didChange t w.client.trunk.tree) := didChange_attends _ _
    obtain ⟨c'', hle, hw''⟩ := hdone _ c'
      (hw'.change (hhas.mono hgrows.le) hhas' (.cons (e := .clear) trivial (.nil _)))
    exact ⟨c'', Chart.le_trans hgrows.le hle, hw''⟩

theorem giveUp_attends : Attends start giveUp := by
  refine .bind (.look fun _ => rfl) fun s => .bind (.look fun _ => rfl) fun t => ?_
  exact .ite clear_attends.ignoring (.pure _)

theorem pass_attends (e : StoreError) (left : Nat) : Attends start (pass e left) := by
  intro w c hw
  rw [exec_pass]
  split
  · exact ⟨c, Chart.le_refl c, hw⟩
  · split
    · exact giveUp_attends w c hw
    · exact ⟨c, Chart.le_refl c, hw⟩

/-! ## Attempts -/

/-- A round of attempts leaves the replica in step. -/
theorem round_attends {attempt : ClientStepM (Option α)} (hattempt : Attends start attempt)
    (left : Nat) : Attends start (round attempt left) := by
  intro w c hw
  obtain ⟨c₁, hle₁, hw₁⟩ := hattempt w.counted c (hw.withAttempts _)
  rw [exec_round]
  generalize exec attempt w.counted = made at hw₁
  obtain ⟨e | _ | a, w₁⟩ := made
  · cases left with
    | zero => exact ⟨c₁, hle₁, hw₁⟩
    | succ left =>
        -- the client may give up the entries before the attempt that comes next
        obtain ⟨c₂, hle₂, hw₂⟩ := pass_attends e left w₁ c₁ hw₁
        dsimp only
        generalize exec (pass e left) w₁ = passed at hw₂
        obtain ⟨_ | _, w₂⟩ := passed <;> exact ⟨c₂, Chart.le_trans hle₁ hle₂, hw₂⟩
  · exact ⟨c₁, hle₁, hw₁⟩
  · exact ⟨c₁, hle₁, hw₁⟩

theorem rounds_attends {attempt : ClientStepM (Option α)} (hattempt : Attends start attempt)
    {n left : Nat} {c : Chart} {w : Scene} {run : Except StoreError α × Scene}
    (hw : w.InStep start c) (hrun : rounds attempt n left w = some run) :
    ∃ c', c ≤ c' ∧ run.2.InStep start c' := by
  induction n generalizing left c w with
  | zero => cases hrun
  | succ n ih =>
      obtain ⟨c₁, hle₁, hw₁⟩ := round_attends hattempt left w c hw
      rw [rounds] at hrun
      generalize exec (round attempt left) w = made at hw₁ hrun
      obtain ⟨e | a | left', w₁⟩ := made
      · cases hrun
        exact ⟨c₁, hle₁, hw₁⟩
      · cases hrun
        exact ⟨c₁, hle₁, hw₁⟩
      · obtain ⟨c₂, hle₂, hw₂⟩ := ih hw₁ hrun
        exact ⟨c₂, Chart.le_trans hle₁ hle₂, hw₂⟩

/-- The operation leaves the replica in step where it comes to an end, whether or not it fails. -/
def Heeds (start : Replica) (act : ClientM α) : Prop :=
  ∀ w c run, w.InStep start c → outcome? act w = some run → ∃ c', c ≤ c' ∧ run.2.InStep start c'

theorem Repeats.heeds {act : ClientM α} {attempt : ClientStepM (Option α)}
    (h : Repeats act attempt) (hattempt : Attends start attempt) : Heeds start act := by
  intro w c run hw hrun
  obtain ⟨n, hn⟩ := h.outcome?_iff.1 hrun
  exact rounds_attends hattempt (hw.withAttempts 0) hn

/-! ## Hindrances -/

end ClientM

/-- What gets in the way of the attempts of an operation: before each of them, something becomes of
the store, and the attempt may fail at once with any error.  Time may pass, too.  An attempt asks at
most once how long ago the last commit was, when it has changed or given up the entries, so it does
not matter that time passes before the attempt and not in the middle of it. -/
structure Hindrance where
  befall : Client → StoreM Unit
  tends : ∀ client s, Relation.ReflTransGen client.trunk.Tending s (exec (befall client) s).2

namespace Hindrance

/-- Nothing gets in the way. -/
def none : Hindrance := ⟨fun _ => pure (), fun _ _ => .refl⟩

/-- An operation on the store that something may get in the way of. -/
def before {γ : Type} (h : Hindrance) (act : γ → StoreM α) (given : γ) : ClientStepM α := do
  ClientM.ofStore (h.befall (← get))
  ClientM.ofStore (act given)

theorem none_before {γ : Type} (act : γ → StoreM α) :
    none.before act = fun given => ClientM.ofStore (act given) :=
  rfl

theorem exec_before {γ : Type} (h : Hindrance) (act : γ → StoreM α) (given : γ) (w : Scene) :
    ClientM.exec (h.before act given) w =
      ClientM.exec (ClientM.ofStore (do
        h.befall w.client
        act given)) w := by
  rw [before, ClientM.exec_bind]
  show ClientM.exec (ClientM.ofStore (h.befall w.client) >>= fun _ => _) w = _
  rw [ClientM.exec_bind, ClientM.exec_ofStore, ClientM.exec_ofStore, StoreM.exec_bind]
  generalize StoreM.exec (h.befall w.client) w.store = outcome
  obtain ⟨_ | _, s⟩ := outcome <;> rfl

end Hindrance

section

variable {start : Replica} {w : Scene} {c : Chart} {s : Store}

/-- Whatever becomes of the store, its trees are what they were. -/
theorem Scene.InStep.tended (hw : w.InStep start c)
    (htends : Relation.ReflTransGen w.client.trunk.Tending w.store s) :
    ∃ c', c ≤ c' ∧ InStep start { w with store := s } c' := by
  induction htends with
  | refl => exact ⟨c, Chart.le_refl c, hw⟩
  | tail _ htending ih =>
      obtain ⟨c', hle, hw'⟩ := ih
      obtain ⟨_, _, -, -, hhas⟩ := hw'.retold
      obtain ⟨c'', htended⟩ := htending.tended hw'.represents hw'.zones hhas.fit
      exact ⟨c'', Chart.le_trans hle htended.le,
        hw'.withStore htended.represents htended.zones htended.le⟩

/-- An operation on the store that keeps its trees, after something has got in the way. -/
theorem Scene.InStep.before {γ : Type} (hw : w.InStep start c) (h : Hindrance)
    (act : γ → StoreM α) (given : γ) (post : α → Chart → Prop)
    (hact : ∀ s c', InStep start { w with store := s } c' → ∃ c'', c' ≤ c'' ∧
      InStep start { w with store := (exec (act given) s).2 } c'' ∧
      ∀ a, (exec (act given) s).1 = .ok a → post a c'') :
    ∃ outcome s c', ClientM.exec (h.before act given) w = (outcome, { w with store := s }) ∧
      c ≤ c' ∧ InStep start { w with store := s } c' ∧ ∀ a, outcome = .ok a → post a c' := by
  obtain ⟨c₁, hle₁, hw₁⟩ := hw.tended (h.tends w.client w.store)
  rw [h.exec_before, ClientM.exec_ofStore, StoreM.exec_bind]
  generalize exec (h.befall w.client) w.store = befallen at hw₁
  obtain ⟨e | _, s₁⟩ := befallen
  · exact ⟨.error e, s₁, c₁, rfl, hle₁, hw₁, fun _ hok => nomatch hok⟩
  · obtain ⟨c₂, hle₂, hw₂, hpost⟩ := hact s₁ c₁ hw₁
    exact ⟨_, _, c₂, rfl, Chart.le_trans hle₁ hle₂, hw₂, hpost⟩

/-- A tree is swapped in where the trunk has not moved. -/
theorem Scene.InStep.swap {tree : Tree} {a : α} {notify : α → ClientStepM Unit} {told : List Event}
    {es es' : List Entry} (hw : w.InStep start c)
    (hhas : c.Has w.client.trunk.version w.client.trunk.tree (.listing es))
    (hhas' : c.Has w.client.trunk.version tree (.listing es')) (hretells : Retells es told es')
    (hnotify : ClientM.Tells (notify a) told) :
    ∃ c', c ≤ c' ∧
      (ClientM.exec (ClientM.swap w.client.trunk tree a notify) w).2.InStep start c' := by
  cases hsame : tree.same w.client.trunk.tree with
  | true =>
      rw [ClientM.swap, hsame, if_pos rfl]
      exact ⟨c, Chart.le_refl c, hw⟩
  | false =>
      rw [ClientM.exec_swap_of_moved hsame, ClientM.exec_bind,
        hnotify (w.withTree tree) hw.isObserved]
      exact ClientM.Attends.bind (ClientM.didChange_attends _ _) (fun _ => .pure _) _ c
        (hw.change hhas hhas' hretells)

end

/-- An operation with its answer given in another form. -/
def Operation.giving (op : Operation) (f : Option Value → α) (snapshot : Trunk) :
    StoreM (Tree × α) := do
  let (tree, answer) ← op.run snapshot
  return (tree, f answer)

theorem Operation.giving_id (op : Operation) : op.giving id = fun snapshot => op.run snapshot := by
  funext snapshot
  exact bind_pure (op.run snapshot)

theorem Operation.exec_giving_ok {op : Operation} {snapshot : Trunk} {s s' : Store} {tree : Tree}
    {answer : Option Value} (hexec : exec (op.run snapshot) s = (.ok (tree, answer), s'))
    (f : Option Value → α) : exec (op.giving f snapshot) s = (.ok (tree, f answer), s') := by
  rw [giving, StoreM.exec_bind, hexec]
  rfl

theorem Operation.exec_giving_error {op : Operation} {snapshot : Trunk} {s s' : Store}
    {e : StoreError} (hexec : exec (op.run snapshot) s = (.error e, s')) (f : Option Value → α) :
    exec (op.giving f snapshot) s = (.error e, s') := by
  rw [giving, StoreM.exec_bind, hexec]

/-- By a chart, what is told leads from the entries of a snapshot to those of a tree. -/
def Chart.Leads (c : Chart) (snapshot : Trunk) (told : List Event) (tree : Tree) : Prop :=
  ∃ es es', c.Has snapshot.version snapshot.tree (.listing es) ∧
    c.Has snapshot.version tree (.listing es') ∧ Retells es told es'

section

variable {start : Replica} {w : Scene} {c : Chart}

/-- The tree that an operation computes, and its answer. -/
theorem Scene.InStep.run (hw : w.InStep start c) {op : Operation} (hsuits : op.Suits .btree)
    (f : Option Value → α) :
    ∃ c', c ≤ c' ∧
      InStep start { w with store := (exec (op.giving f w.client.trunk) w.store).2 } c' ∧
      ∀ result, (exec (op.giving f w.client.trunk) w.store).1 = .ok result →
        ∃ answer, result.2 = f answer ∧ c'.Leads w.client.trunk (op.tells answer) result.1 := by
  obtain ⟨_, es, -, -, hhas⟩ := hw.retold
  -- the operation may be the first to use its folding
  have hruns := Operation.run_listing (hw.represents.allow fun f => op = .reduce f)
    (hhas.mono (c.le_allow _)) hsuits fun f hf => Or.inr hf
  have hkeeps : ∀ {s' c'}, Grows w.store (c.allow fun f => op = .reduce f) s' c' →
      c ≤ c' ∧ InStep start { w with store := s' } c' := by
    intro s' c' hgrows
    have hle := Chart.le_trans (c.le_allow _) hgrows.le
    exact ⟨hle, hw.withStore hgrows.represents (by rw [hgrows.zones]; exact hw.zones) hle⟩
  rcases hruns.cases with
    ⟨⟨tree, answer⟩, s', c', hexec, hgrows, -, hhas', hanswers⟩ | ⟨e, s', c', hexec, hgrows, -⟩
  · obtain ⟨hle, hw'⟩ := hkeeps hgrows
    rw [Operation.exec_giving_ok hexec]
    refine ⟨c', hle, hw', ?_⟩
    rintro _ ⟨⟩
    obtain ⟨es', happly, hretells⟩ :=
      Operation.retells (BTree.Contains.root hhas).sorted hsuits hanswers
    rw [happly] at hhas'
    exact ⟨answer, rfl, es, es', hhas.mono hle, hhas', hretells⟩
  · obtain ⟨hle, hw'⟩ := hkeeps hgrows
    rw [Operation.exec_giving_error hexec]
    exact ⟨c', hle, hw', fun _ hok => nomatch hok⟩

/-- A read of the tree. -/
theorem Scene.InStep.query (hw : w.InStep start c) {query : Query} (hsuits : query.Suits .btree) :
    ∃ c', c ≤ c' ∧
      InStep start { w with store := (exec (query.run w.client.trunk.tree) w.store).2 } c' := by
  obtain ⟨_, es, -, -, hhas⟩ := hw.retold
  have hplane : query.InPlane := by
    cases query with
    | valueAt => cases hsuits
    | _ => trivial
  have hsuits' : query.Suits (Content.listing es).kind := hsuits
  obtain ⟨answer, hruns⟩ :=
    query.exists_answer (hw.represents.sound _ hhas.fit.refs) hsuits' hplane
  obtain ⟨c', hgrows, -⟩ := hruns w.store c _ (Chart.le_refl c) hw.represents hhas rfl
  exact ⟨c', hgrows.le, hw.grows hgrows⟩

end

namespace ClientM

variable {start : Replica}

/-! ## Updates and reads -/

/-- An attempt to make a change of which the observer is told what it is to be told. -/
theorem attemptUpdate_attends (h : Hindrance) (op : Operation) (f : Option Value → α)
    {notify : α → ClientStepM Unit} (hsuits : op.Suits .btree)
    (hnotify : ∀ answer, Tells (notify (f answer)) (op.tells answer)) :
    Attends start (attemptUpdate (h.before (op.giving f)) notify) := by
  intro w c hw
  have hattempt : exec (attemptUpdate (h.before (op.giving f)) notify) w =
      exec (do
        let result ← h.before (op.giving f) w.client.trunk
        swap w.client.trunk result.1 result.2 notify) w := by
    rw [attemptUpdate, exec_bind]
    rfl
  obtain ⟨outcome, s, c', hexec, hle, hw', hpost⟩ :=
    hw.before h (op.giving f) w.client.trunk (fun result c' =>
      ∃ answer, result.2 = f answer ∧ c'.Leads w.client.trunk (op.tells answer) result.1)
      fun s c' hw' => hw'.run hsuits f
  rw [hattempt, exec_bind, hexec]
  obtain e | ⟨tree, a⟩ := outcome
  · exact ⟨c', hle, hw'⟩
  · obtain ⟨answer, rfl, es, es', hhas, hhas', hretells⟩ := hpost _ rfl
    obtain ⟨c'', hle', hw''⟩ := hw'.swap hhas hhas' hretells (hnotify answer)
    exact ⟨c'', Chart.le_trans hle hle', hw''⟩

theorem update_heeds (h : Hindrance) (op : Operation) (f : Option Value → α)
    {notify : α → ClientStepM Unit} (hsuits : op.Suits .btree)
    (hnotify : ∀ answer, Tells (notify (f answer)) (op.tells answer)) :
    Heeds start (update (h.before (op.giving f)) notify) :=
  (update_repeats _ _).heeds (attemptUpdate_attends h op f hsuits hnotify)

/-- What gets in the way of an update does not keep it from coming to its end. -/
theorem update_before_comes_back {α : Type} (h : Hindrance) (act : Trunk → StoreM (Tree × α))
    (notify : α → ClientStepM Unit) (w : Scene) :
    ∃ run, outcome? (update (h.before act) notify) w = some run :=
  (update_repeats _ _).comes_back (attemptUpdate_lands fun w => by
    rw [h.exec_before]
    rfl) w

theorem updateTree_comes_back {α : Type} (op : Trunk → StoreM (Tree × α))
    (notify : α → ClientStepM Unit) (w : Scene) :
    ∃ run, outcome? (updateTree op notify) w = some run :=
  update_before_comes_back .none op notify w

/-- A read of the tree. -/
theorem read_attends (h : Hindrance) {query : Query} (hsuits : query.Suits .btree) :
    Attends start (read (h.before fun t => query.run t)) := by
  suffices hreads : Attends start (reading (h.before fun t => query.run t)) from
    fun w c hw => (read_repeats _).heeds hreads w c _ hw (outcome?_liftM _ w)
  intro w c hw
  have hreading : exec (reading (h.before fun t => query.run t)) w =
      exec (h.before (fun t => query.run t) w.client.trunk.tree >>= fun a => pure (some a)) w := by
    rw [reading, exec_bind]
    rfl
  obtain ⟨outcome, s, c', hexec, hle, hw', -⟩ :=
    hw.before h (fun t => query.run t) w.client.trunk.tree (fun _ _ => True) fun s c' hw' => by
        obtain ⟨c'', hle', hw''⟩ := hw'.query hsuits
        exact ⟨c'', hle', hw'', fun _ _ => trivial⟩
  rw [hreading, exec_bind, hexec]
  cases outcome <;> exact ⟨c', hle, hw'⟩

end ClientM
end PageTree
