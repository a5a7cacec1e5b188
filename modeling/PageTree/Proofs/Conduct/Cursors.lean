import PageTree.Proofs.Cache.Answers
import PageTree.Proofs.Conduct.Trees

/-!
# Cursors keep to the rules

A cursor holds pages, and the references that these lead to are tracked as long as it moves by the
rules of a conduct (`Conduct.Carries`).  It does so whether its moves come to a result or fail,
provided that its policy obeys the conduct (`CursorCall.make_steers`); and then so do the reads
that are made with cursors (`Query.run_obeys`).
-/

namespace PageTree

variable {ι α β : Type}

/-- The references that a frame leads to. -/
def Frame.refs (f : Frame) : List PageRef :=
  match f.node with
  | .root r => [r]
  | .page copy => copy.page.children

namespace Frame

theorem child_mem {f : Frame} {index : Nat} {child : PageRef}
    (hchild : f.child? index = some child) : child ∈ f.refs := by
  unfold child? at hchild
  unfold refs
  cases hnode : f.node with
  | root r =>
      rw [hnode] at hchild
      exact List.mem_singleton.2 (Option.some.inj hchild).symm
  | page copy =>
      rw [hnode] at hchild
      exact List.mem_of_getElem? hchild

theorem refs_left (f : Frame) (way : Direction) : (f.left way).refs = f.refs := by
  unfold left
  split <;> rfl

end Frame

variable [PageLoader] {d : Conduct} {policy : Policy ι} {k k' : Cursor ι} {s s' : Store}

namespace Conduct

/-- The cursor goes by the policy, and what it leads to is tracked. -/
structure Carries (d : Conduct) (policy : Policy ι) (s : Store) (k : Cursor ι) : Prop where
  policy : k.policy = policy
  tracks : ∀ f ∈ k.stack, ∀ m ∈ f.refs, d.Tracks s m

/-- The policy decides about subtrees by operations that obey the conduct. -/
def Admits (d : Conduct) (policy : Policy ι) : Prop :=
  ∀ s parent index child depth, d.Tracks s child →
    d.Allows (policy.visit parent index child depth) s

/-- The move makes of the store what it may, or fails as it may, and what the cursor then leads to
is tracked. -/
def Steers (d : Conduct) (policy : Policy ι) (act : CursorM ι α) (k : Cursor ι) (s : Store) :
    Prop :=
  match act.exec k s with
  | ((.ok _, k'), s') => d.Later s s' ∧ d.Carries policy s' k'
  | ((.error e, k'), s') => d.Fails s e s' ∧ d.Carries policy s' k'

namespace Carries

theorem later (hlater : d.Later s s') (hk : d.Carries policy s k) : d.Carries policy s' k :=
  ⟨hk.policy, fun f hf m hm => d.tracks_later hlater (hk.tracks f hf m hm)⟩

theorem fails {e : StoreError} (hfails : d.Fails s e s') (hk : d.Carries policy s k) :
    d.Carries policy s' k :=
  ⟨hk.policy, fun f hf m hm => d.tracks_fails hfails (hk.tracks f hf m hm)⟩

theorem start {root : PageRef} (htracks : d.Tracks s root) :
    d.Carries policy s (Cursor.start root policy) := by
  refine ⟨rfl, fun f hf m hm => ?_⟩
  obtain rfl := List.mem_singleton.1 hf
  obtain rfl := List.mem_singleton.1 hm
  exact htracks

/-- The innermost frame gives way to another. -/
theorem setTop (frame : Frame) (hk : d.Carries policy s k)
    (hframe : ∀ m ∈ frame.refs, d.Tracks s m) : d.Carries policy s (k.setTop frame) := by
  refine ⟨hk.policy, fun f hf => ?_⟩
  rcases List.mem_cons.1 hf with rfl | hf
  · exact hframe
  · exact hk.tracks f (List.mem_of_mem_drop hf)

theorem passing {frame : Frame} (hk : d.Carries policy s k)
    (hframe : ∀ m ∈ frame.refs, d.Tracks s m) (way : Direction) (entries : Nat) :
    d.Carries policy s (k.passing frame way entries) :=
  have htop := hk.setTop (frame.past way) hframe
  ⟨htop.policy, htop.tracks⟩

theorem entering {frame : Frame} {copy : PageCopy} (hk : d.Carries policy s k)
    (hframe : ∀ m ∈ frame.refs, d.Tracks s m) (hopens : d.Opens s copy.page) (way : Direction)
    (index : Nat) : d.Carries policy s (k.entering frame way index copy) := by
  refine ⟨hk.policy, fun f hf => ?_⟩
  rcases List.mem_cons.1 hf with rfl | hf
  · exact hopens
  · exact (hk.setTop { frame with entered := some index } hframe).tracks f hf

theorem leaving {way : Direction} (hk : d.Carries policy s k)
    (hleaving : k.leaving? way = some k') : d.Carries policy s k' := by
  unfold Cursor.leaving? at hleaving
  split at hleaving
  · next inner frame outer hstack =>
      cases hleaving
      have hall := hk.tracks
      rw [hstack] at hall
      refine ⟨hk.policy, fun f hf => ?_⟩
      rcases List.mem_cons.1 hf with rfl | hf
      · rw [Frame.refs_left]
        exact hall frame (List.mem_cons_of_mem _ List.mem_cons_self)
      · exact hall f (List.mem_cons_of_mem _ (List.mem_cons_of_mem _ hf))
  · cases hleaving

theorem toEnd (hk : d.Carries policy s k) : d.Carries policy s k.toEnd := by
  unfold Cursor.toEnd
  cases hroot : k.root? with
  | none => exact ⟨hk.policy, fun f hf => absurd hf List.not_mem_nil⟩
  | some r =>
      refine ⟨hk.policy, fun f hf m hm => ?_⟩
      obtain rfl := List.mem_singleton.1 hf
      obtain rfl := List.mem_singleton.1 hm
      unfold Cursor.root? at hroot
      split at hroot
      · next r' hlast =>
          cases hroot
          obtain ⟨frame, hframe, hnode⟩ := Option.map_eq_some_iff.1 hlast
          refine hk.tracks frame (List.mem_of_getLast? hframe) m ?_
          rw [Frame.refs, hnode]
          exact List.mem_singleton_self m
      · cases hroot

end Carries

/-! ## Moves -/

namespace Steers

theorem ok {act : CursorM ι α} {a : α} (hexec : act.exec k s = ((.ok a, k'), s'))
    (hlater : d.Later s s') (hk : d.Carries policy s' k') : d.Steers policy act k s := by
  rw [Steers, hexec]
  exact ⟨hlater, hk⟩

theorem error {act : CursorM ι α} {e : StoreError}
    (hexec : act.exec k s = ((.error e, k'), s')) (hfails : d.Fails s e s')
    (hk : d.Carries policy s' k') : d.Steers policy act k s := by
  rw [Steers, hexec]
  exact ⟨hfails, hk⟩

theorem cases {act : CursorM ι α} (hact : d.Steers policy act k s) :
    (∃ a k' s', act.exec k s = ((.ok a, k'), s') ∧ d.Later s s' ∧ d.Carries policy s' k') ∨
      ∃ e k' s', act.exec k s = ((.error e, k'), s') ∧ d.Fails s e s' ∧
        d.Carries policy s' k' := by
  unfold Steers at hact
  generalize act.exec k s = outcome at hact ⊢
  obtain ⟨⟨e | a, k'⟩, s'⟩ := outcome
  · exact Or.inr ⟨e, k', s', rfl, hact⟩
  · exact Or.inl ⟨a, k', s', rfl, hact⟩

protected theorem pure (hk : d.Carries policy s k) (a : α) :
    d.Steers policy (pure a : CursorM ι α) k s :=
  ok (CursorM.exec_pure a k s) (d.later_refl s) hk

protected theorem bind {act : CursorM ι α} {f : α → CursorM ι β}
    (hact : d.Steers policy act k s)
    (hf : ∀ a k' s', d.Later s s' → d.Carries policy s' k' → d.Steers policy (f a) k' s') :
    d.Steers policy (act >>= f) k s := by
  rcases hact.cases with ⟨a, k', s', hexec, hlater, hk⟩ | ⟨e, k', s', hexec, hfails, hk⟩
  · rcases (hf a k' s' hlater hk).cases with
      ⟨b, k'', s'', hexec', hlater', hk'⟩ | ⟨e, k'', s'', hexec', hfails, hk'⟩
    · exact ok (by rw [CursorM.exec_bind, hexec]; exact hexec') (d.later_trans hlater hlater') hk'
    · exact error (by rw [CursorM.exec_bind, hexec]; exact hexec') (d.fails_later hlater hfails)
        hk'
  · exact error (by rw [CursorM.exec_bind, hexec]) hfails hk

protected theorem get {f : Cursor ι → CursorM ι α} (hf : d.Steers policy (f k) k s) :
    d.Steers policy (get >>= f) k s := by
  unfold Steers
  rw [CursorM.exec_bind]
  exact hf

protected theorem set {f : Unit → CursorM ι α} (hf : d.Steers policy (f ()) k' s) :
    d.Steers policy (set k' >>= f) k s := by
  unfold Steers
  rw [CursorM.exec_bind]
  exact hf

/-- An operation on the store as a part of a move. -/
theorem ofStore {act : StoreM α} {P : α → Store → Prop} {f : α → CursorM ι β}
    (hk : d.Carries policy s k) (hact : d.Obeys act s P)
    (hf : ∀ a s', P a s' → d.Carries policy s' k → d.Steers policy (f a) k s') :
    d.Steers policy (CursorM.ofStore act >>= f) k s := by
  rcases hact.cases with ⟨a, s', hexec, hlater, hpost⟩ | ⟨e, s', hexec, hfails⟩
  · have hrun : (CursorM.ofStore act : CursorM ι α).exec k s = ((.ok a, k), s') := by
      rw [CursorM.exec_ofStore, hexec]
    rcases (hf a s' hpost (hk.later hlater)).cases with
      ⟨b, k', s'', hexec', hlater', hk'⟩ | ⟨e, k', s'', hexec', hfails, hk'⟩
    · exact ok (by rw [CursorM.exec_bind, hrun]; exact hexec') (d.later_trans hlater hlater') hk'
    · exact error (by rw [CursorM.exec_bind, hrun]; exact hexec') (d.fails_later hlater hfails) hk'
  · refine error ?_ hfails (hk.fails hfails)
    rw [CursorM.exec_bind, CursorM.exec_ofStore, hexec]

theorem walk {step : CursorM ι (CursorM.Progress α)}
    (hstep : ∀ k s, d.Carries policy s k → d.Steers policy step k s) (steps : Nat)
    (hk : d.Carries policy s k) : d.Steers policy (CursorM.walk step steps) k s := by
  induction steps generalizing k s with
  | zero => exact error rfl (d.refused .tooDeep) hk
  | succ steps ih =>
      refine (hstep k s hk).bind fun progress k' s' _ hk' => ?_
      cases progress with
      | goesOn => exact ih hk'
      | ends result => exact .pure hk' result

/-- A glance leaves the cursor where it is. -/
theorem glance {act : CursorM ι α} (hk : d.Carries policy s k) (hact : d.Steers policy act k s) :
    d.Steers policy (CursorM.glance act) k s := by
  have hexec : (CursorM.glance act).exec k s = (((act.exec k s).1.1, k), (act.exec k s).2) := rfl
  rcases hact.cases with ⟨a, k', s', hok, hlater, -⟩ | ⟨e, k', s', herror, hfails, -⟩
  · exact ok (by rw [hexec, hok]) hlater (hk.later hlater)
  · exact error (by rw [hexec, herror]) hfails (hk.fails hfails)

theorem stepTowards (hadmits : d.Admits policy) (way : Direction) (hk : d.Carries policy s k) :
    d.Steers policy (CursorM.stepTowards way) k s := by
  refine .get ?_
  split
  · next frame hframe =>
    have hrefs := hk.tracks frame (List.mem_of_head? hframe)
    split
    · split
      · exact .pure hk _
      · next k' hleaving => exact .set (.pure (hk.leaving hleaving) _)
    · next index _ =>
      split
      · refine .set ?_
        split <;> exact .pure (hk.passing hrefs way 1) _
      · split
        · next child hchild =>
          have hchild' := hrefs child (Frame.child_mem hchild)
          rw [hk.policy]
          refine .ofStore (P := fun _ s' => d.Tracks s' child ∧ ∀ m ∈ frame.refs, d.Tracks s' m) hk
            ((hadmits s _ _ _ _ hchild').mono fun _ s' hlater _ =>
              ⟨d.tracks_later hlater hchild', fun m hm => d.tracks_later hlater (hrefs m hm)⟩) ?_
          rintro visit s' ⟨hchild', hrefs'⟩ hk'
          cases visit with
          | descend =>
              refine .ofStore (P := fun copy s'' => d.Opens s'' copy.page ∧
                  ∀ m ∈ frame.refs, d.Tracks s'' m) hk'
                ((pageCopy_obeys hchild').mono fun copy s'' hlater hopens =>
                  ⟨hopens, fun m hm => d.tracks_later hlater (hrefs' m hm)⟩) ?_
              rintro copy s'' ⟨hopens, hrefs''⟩ hk''
              exact .set (.pure (hk''.entering hrefs'' hopens way index) _)
          | skip => exact .set (.pure (hk'.passing hrefs' way child.span) _)
          | emit item => exact .set (.pure (hk'.passing hrefs' way child.span) _)
        · exact .set (.pure (hk.setTop (frame.past way) hrefs) _)
  · exact .pure hk _

theorem stepBound (count : Nat) (hk : d.Carries policy s k) :
    d.Steers policy (CursorM.stepBound count) k s := by
  refine .ofStore (P := fun _ _ => True) hk (.ok (StoreM.exec_get s) (d.later_refl s) trivial) ?_
  intro store s' _ hk'
  refine .get ?_
  split <;> exact .pure hk' _

theorem advance (hadmits : d.Admits policy) (way : Direction) (hk : d.Carries policy s k) :
    d.Steers policy (CursorM.advance way) k s :=
  (stepBound 1 hk).bind fun _ _ _ _ hk' => walk (fun _ _ => stepTowards hadmits way) _ hk'

theorem stepTo (target : Nat) (hk : d.Carries policy s k) :
    d.Steers policy (CursorM.stepTo target) k s := by
  refine .get ?_
  split
  · exact .pure hk _
  split
  · next frame hframe =>
    have hrefs := hk.tracks frame (List.mem_of_head? hframe)
    split
    · split
      · exact .pure hk _
      · next k' hleaving => exact .set (.pure (hk.leaving hleaving) _)
    · next index _ =>
      split
      · next page _ =>
        -- only the index of the innermost frame and the position change
        have htop : ∀ index, d.Carries policy s (k.setTop { frame with index }) :=
          fun index => hk.setTop _ hrefs
        refine .set (.pure ?_ _)
        exact ⟨hk.policy, (htop _).tracks⟩
      · split
        · next child hchild =>
          split
          · exact .set (.pure (hk.passing hrefs .forward child.span) _)
          · refine .ofStore (P := fun copy s' => d.Opens s' copy.page ∧
                ∀ m ∈ frame.refs, d.Tracks s' m) hk
              ((pageCopy_obeys (hrefs child (Frame.child_mem hchild))).mono
                fun copy s' hlater hopens =>
                  ⟨hopens, fun m hm => d.tracks_later hlater (hrefs m hm)⟩) ?_
            rintro copy s' ⟨hopens, hrefs'⟩ hk'
            exact .set (.pure (hk'.entering hrefs' hopens .forward index) _)
        · exact .set (.pure (hk.setTop (frame.past .forward) hrefs) _)
  · exact .pure hk _

theorem skip (count : Nat) (hk : d.Carries policy s k) :
    d.Steers policy (CursorM.skip count) k s := by
  refine .get ((stepBound count hk).bind fun bound k' s' _ hk' => ?_)
  refine (walk (fun _ _ => stepTo _) bound hk').bind fun _ k'' s'' _ hk'' => ?_
  exact .get (.pure hk'' _)

end Steers
end Conduct

open Conduct

namespace Cursor

/-- A cursor of its own makes a move. -/
theorem runOrFail_obeys {act : CursorM ι α} (hact : d.Steers policy act k s) :
    d.Obeys (k.runOrFail act) s fun result s' => d.Carries policy s' result.2 := by
  rcases hact.cases with ⟨a, k', s', hexec, hlater, hk⟩ | ⟨e, k', s', hexec, hfails, -⟩
  · exact .ok (by rw [k.exec_runOrFail, hexec]) hlater hk
  · exact .error (by rw [k.exec_runOrFail, hexec]) hfails

/-- A cursor is opened again at its position, under its policy. -/
theorem reopened_obeys {root : PageRef} (htracks : d.Tracks s root) :
    d.Obeys (k.reopened root) s fun k' s' => d.Carries k.policy s' k' :=
  (runOrFail_obeys (.skip k.position (.start htracks))).bind fun _ _ _ hk => .pure hk

theorem collectWithin_obeys {take : CursorM ι (Option ι)}
    (htake : ∀ k s, d.Carries policy s k → d.Steers policy take k s) (items : Nat)
    (hk : d.Carries policy s k) :
    let outcome := ((CursorM.collectWithin take items).run k).run s
    (outcome.1.1.2 = none → d.Later s outcome.2) ∧
      ∀ e, outcome.1.1.2 = some e → d.Fails s e outcome.2 := by
  induction items generalizing k s with
  | zero =>
      refine ⟨nofun, fun e he => ?_⟩
      cases he
      exact d.refused .tooDeep
  | succ items ih =>
      dsimp only
      rw [run_collectWithin]
      rcases (htake k s hk).cases with
        ⟨_ | item, k', s', hexec, hlater, hk'⟩ | ⟨e, k', s', hexec, hfails, -⟩
      · rw [hexec]
        exact ⟨fun _ => hlater, nofun⟩
      · obtain ⟨hok, herror⟩ := ih hk'
        rw [hexec]
        exact ⟨fun hnone => d.later_trans hlater (hok hnone),
          fun e he => d.fails_later hlater (herror e he)⟩
      · rw [hexec]
        refine ⟨nofun, fun e' he => ?_⟩
        cases he
        exact hfails

theorem items_obeys (hadmits : d.Admits policy) (way : Direction) (hk : d.Carries policy s k) :
    d.Allows (k.items way) s := by
  obtain ⟨hok, herror⟩ := collectWithin_obeys (fun _ _ => .advance hadmits way)
    ((k.root?.map fun r => s.walkBound r k.position).getD 0) hk
  have hcollect : ((k.collect way).run s : Id _) =
      ((((CursorM.collectWithin (CursorM.advance way)
        ((k.root?.map fun r => s.walkBound r k.position).getD 0)).run k).run s : Id _).1.1,
        (((CursorM.collectWithin (CursorM.advance way)
        ((k.root?.map fun r => s.walkBound r k.position).getD 0)).run k).run s : Id _).2) := rfl
  have hitems : StoreM.exec (k.items way) s =
      match ((k.collect way).run s : Id _) with
      | ((items, none), s') => (.ok items, s')
      | ((_, some e), s') => (.error e, s') := by
    rw [Cursor.items, StoreM.exec_bind, exec_lift]
    generalize ((k.collect way).run s : Id _) = outcome
    obtain ⟨⟨items, _ | e⟩, s'⟩ := outcome <;> rfl
  rw [hcollect] at hitems
  -- what has been collected so far is given up when an error comes with it
  generalize ((CursorM.collectWithin (CursorM.advance way) _).run k).run s = outcome
    at hok herror hitems
  obtain ⟨⟨⟨items, _ | e⟩, k'⟩, s'⟩ := outcome
  · exact .ok hitems (hok rfl) trivial
  · exact .error hitems (herror e rfl)

end Cursor

/-- Calls of a cursor keep to the rules. -/
theorem CursorCall.make_steers (hadmits : d.Admits policy) (call : CursorCall)
    (hroot : ∀ root, call.root? = some root → d.Tracks s root) (hk : d.Carries policy s k) :
    d.Steers policy call.make k s := by
  have hanswer : ∀ {γ : Type} {act : CursorM ι γ} (f : γ → CursorAnswer ι),
      d.Steers policy act k s → d.Steers policy (do return f (← act)) k s :=
    fun f hact => hact.bind fun _ _ _ _ hk' => .pure hk' _
  have hglance : ∀ way, d.Steers policy (CursorM.glance (CursorM.advance way)) k s :=
    fun way => .glance hk (.advance hadmits way hk)
  have htell : ∀ {γ : Type} {act : CursorM ι (Option γ)},
      d.Steers policy act k s → d.Steers policy (do return (← act).isSome) k s :=
    fun hact => hact.bind fun _ _ _ _ hk' => .pure hk' _
  cases call with
  | next => exact hanswer .item (.advance hadmits .forward hk)
  | previous => exact hanswer .item (.advance hadmits .backward hk)
  | skip count => exact hanswer .count (.skip count hk)
  | head => exact hanswer .item (hglance .forward)
  | step => exact hanswer .flag (htell (.advance hadmits .forward hk))
  | hasNext => exact hanswer .flag (htell (hglance .forward))
  | hasPrevious => exact hanswer .flag (htell (hglance .backward))
  | toEnd => exact .get (.set (.pure hk.toEnd _))
  | reopen root =>
      refine .get (.ofStore hk (Cursor.reopened_obeys (hroot root rfl)) ?_)
      intro k' s' hk' _
      rw [hk.policy] at hk'
      exact .set (.pure hk' _)

/-! ## Policies and reads -/

namespace Policy

theorem enterAll_admits (slot : LivePage → Nat → Option ι) : d.Admits ⟨enterAll, slot⟩ :=
  fun _ _ _ _ _ _ => .pure trivial

theorem leastKey_obeys {parent : Option LivePage} {index : Nat} {child : PageRef}
    (htracks : d.Tracks s child) : d.Allows (leastKey parent index child) s := by
  unfold leastKey
  split
  · exact .pure trivial
  · exact (page_obeys htracks).bind fun _ _ _ _ => .pure trivial

theorem delta_admits (hadmits : d.Admits policy) (since : Nat) : d.Admits (delta since policy) := by
  intro s parent index child depth htracks
  have hdecide : ∀ (version : Nat) s', d.Tracks s' child →
      d.Allows (if version ≤ since then pure .skip else policy.visit parent index child depth) s' :=
    fun _ _ htracks => .ite (fun _ => .pure trivial) fun _ => hadmits _ _ _ _ _ htracks
  refine .look (a := (s.cell child.id).version) rfl ?_
  cases (s.cell child.id).version with
  | some version => exact .look rfl (hdecide version s htracks)
  | none =>
      exact (page_obeys htracks).bind fun page s' hlater _ =>
        .look rfl (hdecide page.version s' (d.tracks_later hlater htracks))

/-- Whatever cursors scan by obeys the conduct. -/
theorem Scans.admits {kind : TreeKind} (hscans : policy.Scans kind) : d.Admits policy := by
  cases hscans with
  | entries => exact enterAll_admits _
  | depthLimited maxDepth =>
      exact fun _ _ _ _ _ htracks => .ite (fun _ => .pure trivial) fun _ =>
        (leastKey_obeys htracks).bind fun _ _ _ _ => .pure trivial
  | delta since => exact delta_admits (enterAll_admits _) since
  | tiles => exact enterAll_admits _
  | region x y =>
      exact fun _ _ _ _ _ _ => .ite (fun _ => .pure trivial) fun _ => .pure trivial

end Policy

/-- Reads keep to the rules. -/
theorem Query.run_obeys (t : Tree) (query : Query) (htracks : d.Tracks s t.root) :
    d.Allows (query.run t) s := by
  have hitems : ∀ {ι : Type} {policy : Policy ι} {kind : TreeKind}, policy.Scans kind →
      d.Allows ((Cursor.start t.root policy).items .forward) s :=
    fun hscans => Cursor.items_obeys hscans.admits .forward (.start htracks)
  cases query with
  | find key => exact BTree.find_obeys htracks
  | contains key => exact (BTree.find_obeys htracks).bind fun _ _ _ _ => .pure trivial
  | first => exact BTree.first_obeys htracks
  | last => exact BTree.last_obeys htracks
  | next key => exact BTree.next_obeys htracks
  | previous key => exact BTree.previous_obeys htracks
  | indexOf key => exact BTree.indexOf_obeys htracks
  | entry index => exact BTree.entry_obeys htracks
  | entries => exact hitems .entries
  | value => exact UTree.get_obeys htracks
  | valueAt key x y => exact QTree.get_obeys htracks
  | locate key => exact QTree.entry_obeys htracks
  | tiles => exact hitems .tiles
  | region x y => exact hitems (.region x y)

end PageTree
