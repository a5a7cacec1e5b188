import PageTree.Proofs.Client.Retries
import PageTree.Proofs.System.Anchored

/-!
# Clearing

A client clears its map.  Whether there was anything to clear is told from the number of entries
and from the root: a tree without entries stays, and no one is told, only where the root's page is
in memory.  A root without entries that has been let go of, or that has been opened and not read
yet, is replaced and told of as any other (`System.clear_answers`).
-/

namespace PageTree

open StoreM

variable {s : Store} {c : Chart} {version : Nat} {t : Tree} {content : Content}

/-! ## Trees without entries -/

/-- A tree of span zero is one without entries. -/
theorem Chart.Has.span_eq_zero_iff (hhas : c.Has version t content) (hrep : Represents s c) :
    t.span = 0 ↔ content = .empty content.kind := by
  cases content with
  | listing es =>
      have hspan : t.span = es.length := (BTree.Contains.root hhas).span hrep
      simp [hspan, Content.kind, Content.empty]
  | register value =>
      obtain ⟨⟨_, _, body⟩, hp, rfl⟩ := UTree.Contains.page hhas
      have hspan : t.root.site.header.span = _ :=
        (hrep.sound _ hhas.fit.refs).measured.span_of_leaf hp rfl
      rw [PageRef.header_site] at hspan
      have harity : t.span = if value.isDefined then 1 else 0 := hspan
      rw [harity]
      cases value <;> simp [Value.isDefined, Content.kind, Content.empty]
  | plane f =>
      obtain ⟨slots, -, rfl, hroot⟩ := QTree.Contains.root hhas
      have hspan : t.span = slots.length := hroot.span hrep
      have hempty : Slots.plane slots = .empty ↔ slots = [] := by
        constructor
        · intro hplane
          refine List.eq_nil_iff_forall_not_mem.2 fun slot hslot => ?_
          have hnone : Slots.plane slots slot.key = none := by
            rw [hplane]
            rfl
          exact Slots.plane_eq_none_iff.1 hnone slot hslot rfl
        · rintro rfl
          rfl
      simp [hspan, Content.kind, Content.empty, hempty]

/-- Memory holds the page of a new reference. -/
theorem PageRef.exec_ofPage_hold (page : LivePage) (fold : Value) (s : Store) :
    ∃ r s', exec (ofPage page fold) s = (.ok r, s') ∧ r.id = s.cells.size ∧
      r.header = .ofPage page.stored fold ∧ s'.zones = s.zones ∧
      s'.hold r = .strong ⟨s.nextSerial, page⟩ :=
  ⟨_, _, exec_ofPage page fold s, rfl, rfl, rfl, congrArg Cell.hold (Store.cell_pushCell_self _ _)⟩

namespace Tree

/-- The tree has no entries, and its root is a leaf in memory. -/
def ShowsEmpty (t : Tree) (s : Store) : Prop :=
  t.span = 0 ∧ ∃ copy, (s.hold t.root).copy? = some copy ∧ copy.page.isNode = false

/-- A tree that shows to be empty stays as it is. -/
theorem exec_cleared_of_shows (hshows : t.ShowsEmpty s) (version : Nat) :
    exec (t.cleared version) s = (.ok t, s) := by
  obtain ⟨hspan, copy, hcopy, hleaf⟩ := hshows
  have hcleared : exec (t.cleared version) s =
      exec (if t.span = 0 && ((s.hold t.root).copy?.map PageCopy.page).any fun page => !page.isNode
        then pure t
        else return t.withRoot (← PageRef.ofPage (.empty t.kind t.seed.stem version) .absent)) s :=
    rfl
  rw [hcleared, if_pos]
  · rfl
  · simp [hspan, hcopy, hleaf]

/-- Any other tree is replaced by a new one, of one empty page that memory holds. -/
theorem exec_cleared_of_not_shows (hnot : ¬ t.ShowsEmpty s) (hroot : t.root.id < s.cells.size)
    (version : Nat) :
    ∃ r s' s'', exec (t.cleared version) s = (.ok { t with root := r }, s') ∧
      r.same t.root = false ∧ r.span = 0 ∧ r.isCommitted = false ∧ s'.zones = s.zones ∧
      exec r.page s' = (.ok (.empty t.kind t.seed.stem version), s'') := by
  have hcleared : exec (t.cleared version) s =
      exec (if t.span = 0 && ((s.hold t.root).copy?.map PageCopy.page).any fun page => !page.isNode
        then pure t
        else return t.withRoot (← PageRef.ofPage (.empty t.kind t.seed.stem version) .absent)) s :=
    rfl
  have hkind : ¬ (t.span = 0 &&
      ((s.hold t.root).copy?.map PageCopy.page).any fun page => !page.isNode) = true := by
    intro hempty
    rw [Bool.and_eq_true, Option.any_map, Option.any_eq_true] at hempty
    obtain ⟨hspan, copy, hcopy, hleaf⟩ := hempty
    exact hnot ⟨of_decide_eq_true hspan, copy, hcopy, by simpa using hleaf⟩
  obtain ⟨r, s', hmade, hid, hheader, hzones, hhold⟩ :=
    PageRef.exec_ofPage_hold (.empty t.kind t.seed.stem version) .absent s
  have hother : r.same t.root = false := by
    simp [PageRef.same, hid]
    omega
  have hwith : t.withRoot r = { t with root := r } := by
    rw [withRoot, if_neg (by simp [hother])]
  have hempty : r.span = 0 ∧ r.isCommitted = false := by
    rw [PageRef.span, PageRef.isCommitted, hheader]
    cases t.kind <;> exact ⟨rfl, rfl⟩
  refine ⟨r, s', _, ?_, hother, hempty.1, hempty.2, hzones, PageRef.exec_page_of_strong hhold⟩
  rw [hcleared, if_neg hkind, exec_bind, hmade]
  exact congrArg (fun t' => (Except.ok t', s')) hwith

end Tree

/-! ## Clearing a map -/

/-- The observer, if there is one, has been told of events. -/
def Scene.telling (w : Scene) (events : List Event) : Scene :=
  { w with client := { w.client with
      events := (if w.client.isObserved then events.reverse else []) ++ w.client.events } }

namespace ClientM

theorem exec_tell (e : Event) (w : Scene) : exec (tell e) w = (.ok (), w.telling [e]) := by
  have htell : exec (tell e) w = exec (if w.client.isObserved then record e else pure ()) w := rfl
  rw [htell, Scene.telling]
  split <;> rfl

/-- The observer is told of a change once, and a commit follows if the store asks for one. -/
theorem exec_didChange (new old : Tree) (w : Scene) :
    exec (didChange new old) w = (.ok (), w.telling [.change new.span old.span]) ∨
      ∃ request, exec (didChange new old) w =
        (.ok (), (exec (commit request) (w.telling [.change new.span old.span])).2) := by
  have hasked : ∀ w', ∃ request, exec (automaticCommit? new) w' = (.ok request, w') := by
    intro w'
    have hasks : exec (automaticCommit? new) w' =
        exec (if w'.store.takesPart && !new.isTransient &&
            (w'.store.settings.autoCommitSize ≤ new.pendingSize ||
              w'.store.settings.autoCommitInterval.nanos ≤ w'.store.sinceCommit)
          then return some .plain
          else return none) w' := rfl
    rw [hasks]
    split
    · exact ⟨_, rfl⟩
    · exact ⟨_, rfl⟩
  obtain ⟨request, hrequest⟩ := hasked (w.telling [.change new.span old.span])
  rw [didChange, exec_bind, exec_tell]
  dsimp only
  rw [exec_bind, hrequest]
  cases request with
  | none => exact Or.inl rfl
  | some request => exact Or.inr ⟨request, exec_ignoring _ _⟩

end ClientM

namespace System

variable {allowed : Operation → Prop} {seed : Seed} {x : System} {past : List System}

/-- A map without entries is one whose tree has the span zero.  To clear one whose root is a leaf in
memory answers false and does nothing.  To clear any other, with entries or with a root that is not
in memory, puts a new tree of one empty page in place of its tree, tells the observer of that once,
and of the change, and answers true; then the commit is made that the store may ask for. -/
theorem clear_answers (hlives : Lives allowed seed x past) {w : Scene} (hstore : w.store = x.store)
    (htrunk : w.client.trunk = x.trunk) :
    (x.trunk.tree.span = 0 ↔
      replay x.trunk.tree.kind x.log = .empty x.trunk.tree.kind) ∧
    (x.trunk.tree.ShowsEmpty x.store → ClientM.exec ClientM.clear w = (.ok false, w)) ∧
    (¬ x.trunk.tree.ShowsEmpty x.store → ∃ root s s',
      root.same x.trunk.tree.root = false ∧ root.span = 0 ∧ root.isCommitted = false ∧
      s.zones = x.store.zones ∧
      exec root.page s =
        (.ok (.empty x.trunk.tree.kind x.trunk.tree.seed.stem x.trunk.version), s') ∧
      let told := (Scene.withTree ⟨w.client, s⟩ { x.trunk.tree with root }).telling
        [.clear, .change 0 x.trunk.tree.span]
      ClientM.exec ClientM.clear w = (.ok true, told) ∨
        ∃ request, ClientM.exec ClientM.clear w =
          (.ok true, (ClientM.exec (ClientM.commit request) told).2)) := by
  obtain ⟨origin, c, hx, -⟩ := hlives.coherent
  rw [← htrunk, ← hstore]
  have hrep : Represents w.store c := hstore ▸ hx.represents
  have hhas := htrunk ▸ hx.has
  have hkind : w.client.trunk.tree.kind = origin.kind := by
    have hkinds := hhas.kind_eq
    rwa [kind_replay] at hkinds
  refine ⟨?_, fun hshows => ?_, fun hnot => ?_⟩
  · rw [hkind, hhas.span_eq_zero_iff hrep, kind_replay]
  · rw [ClientM.exec_clear_of_cleared (w.client.trunk.tree.exec_cleared_of_shows hshows _), if_pos]
    simp [Tree.same, PageRef.same]
  · obtain ⟨root, s, s', hcleared, hother, hspan, huncommitted, hzones, hpage⟩ :=
      w.client.trunk.tree.exec_cleared_of_not_shows hnot (hrep.allocated _ hhas.fit.refs)
        w.client.trunk.version
    refine ⟨root, s, s', hother, hspan, huncommitted, hzones, hpage, ?_⟩
    rw [ClientM.exec_clear_of_cleared hcleared, if_neg (by simpa [Tree.same] using hother),
      ClientM.exec_bind, ClientM.exec_tell]
    dsimp only
    -- the clear is told before the change, and there is no event in between
    have hchange : ∀ w' : Scene, (w'.telling [.clear]).telling
        [.change root.span w.client.trunk.tree.span] =
          w'.telling [.clear, .change 0 w.client.trunk.tree.span] := by
      intro w'
      rw [hspan, Scene.telling, Scene.telling, Scene.telling]
      dsimp only
      cases w'.client.isObserved <;> rfl
    rcases ClientM.exec_didChange { w.client.trunk.tree with root } w.client.trunk.tree
        ((Scene.withTree ⟨w.client, s⟩ { w.client.trunk.tree with root }).telling [.clear]) with
      hdone | ⟨request, hdone⟩
    · rw [hdone]
      exact Or.inl (congrArg _ (hchange _))
    · rw [hdone]
      exact Or.inr ⟨request, congrArg (fun w' => (_, (ClientM.exec (ClientM.commit request) w').2))
        (hchange _)⟩

/-- A register that has not been set is committed and opened again. -/
theorem lives_reopened_register :
    ∃ x past, Lives (fun _ => True) registerSeed x past ∧ x.log = [] ∧ x.trunk.tree.span = 0 ∧
      (x.store.hold x.trunk.tree.root).copy? = none := by
  have hasks : ∀ {y : System}, y.Asks fun _ => True := fun _ _ _ => trivial
  have hstart : Lives (fun _ => True) registerSeed register [] := .start starts_register
  have hlives := hstart
    |>.step (.inl (.inr (.begin .plain rfl))) hasks
    |>.step (.inl (.inr (.write rfl rfl))) hasks
    |>.step (.inl (.inr (.install rfl rfl))) hasks
  have hagain := hlives.reopen List.mem_cons_self rfl (exec_eq_ok (by decide +kernel))
    fun _ hfiled => hlives.root_version_le rfl hfiled
  refine ⟨_, _, hagain, rfl, ?_, ?_⟩
  all_goals decide +kernel

/-- A register that has not been set is cleared to no effect; once it has been committed and opened
again, it is cleared as if there were something to clear. -/
theorem clear_answers_register :
    (∃ w : Scene, w.store = register.store ∧ w.client.trunk = register.trunk ∧
      ClientM.exec ClientM.clear w = (.ok false, w)) ∧
    ∃ x past w told, Lives (fun _ => True) registerSeed x past ∧ x.log = [] ∧
      w.store = x.store ∧ w.client.trunk = x.trunk ∧
      (ClientM.exec ClientM.clear w).1 = .ok true ∧ told.client.events = [.change 0 0, .clear] ∧
      (ClientM.exec ClientM.clear w = (.ok true, told) ∨
        ∃ request, ClientM.exec ClientM.clear w =
          (.ok true, (ClientM.exec (ClientM.commit request) told).2)) := by
  constructor
  · have hstart : Lives (fun _ => True) registerSeed register [] := .start starts_register
    have hshows : register.trunk.tree.ShowsEmpty register.store := ⟨rfl, _, rfl, rfl⟩
    exact ⟨⟨.ofTree register.trunk.tree true, register.store⟩, rfl, rfl,
      (clear_answers hstart rfl rfl).2.1 hshows⟩
  · obtain ⟨x, past, hlives, hlog, hspan, hunloaded⟩ := lives_reopened_register
    have hnot : ¬ x.trunk.tree.ShowsEmpty x.store := by
      rintro ⟨-, copy, hcopy, -⟩
      rw [hunloaded] at hcopy
      cases hcopy
    let w : Scene := ⟨{ Client.ofTree x.trunk.tree true with trunk := x.trunk }, x.store⟩
    obtain ⟨root, s, s', -, -, -, -, -, hclear⟩ := (clear_answers hlives (w := w) rfl rfl).2.2 hnot
    rw [hspan] at hclear
    refine ⟨x, past, w, _, hlives, hlog, rfl, rfl, ?_, rfl, hclear⟩
    rcases hclear with hclear | ⟨request, hclear⟩ <;> rw [hclear]

end System
end PageTree
