import PageTree.Proofs.Cache.Answers
import PageTree.Proofs.System.Anchored

/-!
# Cursors that fail

A cursor that leads to pages in use goes on to do so, whatever is asked of it and whether or not a
page can be had (`CursorM.Abides`).  A call that fails leaves a cursor of which more may be
asked (`Cursor.after`), and no call fails because a page has no place (`Cursor.after_error`).
-/

namespace PageTree

open StoreM

variable {ι α β : Type} {base c c' : Chart} {s s' : Store} {policy : Policy ι} {k k' : Cursor ι}
  {r : PageRef}

namespace Cursor

/-- All that the cursor leads to is in use. -/
structure Grounded (base : Chart) (policy : Policy ι) (k : Cursor ι) (c : Chart) : Prop where
  le : base ≤ c
  policy_eq : k.policy = policy
  leads : ∀ f ∈ k.stack, Leads base c f.node

namespace Grounded

variable {f : Frame} {outer : List Frame} {m : PageRef} {copy : PageCopy} {index : Nat}
  {d : Direction}

theorem mono (hgrounded : k.Grounded base policy c) (hle : c ≤ c') :
    k.Grounded base policy c' where
  le := Chart.le_trans hgrounded.le hle
  policy_eq := hgrounded.policy_eq
  leads f hf := (hgrounded.leads f hf).mono hle

/-- A cursor over a tree that is in use. -/
theorem start (hle : base ≤ c) (hr : c.refs r) (hsound : base.Sound r.site) :
    (start r policy).Grounded base policy c where
  le := hle
  policy_eq := rfl
  leads f hf := by
    rw [List.mem_singleton.1 hf]
    exact ⟨hr, hsound⟩

/-- The cursor may go elsewhere among frames that are about the same. -/
theorem moved (hgrounded : k.Grounded base policy c) (hpolicy : k'.policy = k.policy)
    (hnodes : ∀ f ∈ k'.stack, ∃ g ∈ k.stack, f.node = g.node) : k'.Grounded base policy c where
  le := hgrounded.le
  policy_eq := hpolicy.trans hgrounded.policy_eq
  leads f hf := by
    obtain ⟨g, hg, hnode⟩ := hnodes f hf
    rw [hnode]
    exact hgrounded.leads g hg

/-- The innermost frame may stand elsewhere. -/
theorem setTop (hgrounded : k.Grounded base policy c) (hstack : k.stack = f :: outer)
    (frame : Frame) (position : Nat) (hnode : frame.node = f.node) :
    ({ k.setTop frame with position } : Cursor ι).Grounded base policy c := by
  refine hgrounded.moved rfl fun g hg => ?_
  have hstack' : ({ k.setTop frame with position } : Cursor ι).stack = frame :: outer := by
    simp [Cursor.setTop, hstack]
  rw [hstack', List.mem_cons] at hg
  rcases hg with rfl | hg
  · exact ⟨f, by simp [hstack], hnode⟩
  · exact ⟨g, by simp [hstack, hg], rfl⟩

theorem passing (hgrounded : k.Grounded base policy c) (hstack : k.stack = f :: outer)
    (d : Direction) (n : Nat) : (k.passing f d n).Grounded base policy c :=
  hgrounded.setTop hstack (f.past d) _ rfl

/-- The cursor may go back to the frame outside. -/
theorem leaving (hgrounded : k.Grounded base policy c) (hleaving : k.leaving? d = some k') :
    k'.Grounded base policy c := by
  obtain ⟨policy', stack, position⟩ := k
  match stack, hleaving with
  | [], hleaving => cases hleaving
  | [f], hleaving => cases hleaving
  | f :: g :: outer, hleaving =>
      cases hleaving
      refine hgrounded.moved rfl fun h hh => ?_
      have hnode : (g.left d).node = g.node := by
        unfold Frame.left
        split <;> rfl
      rcases List.mem_cons.1 hh with rfl | hh
      · exact ⟨g, by simp, hnode⟩
      · exact ⟨h, by simp [hh], rfl⟩

/-- The child of a frame. -/
theorem child (hgrounded : k.Grounded base policy c) (hstack : k.stack = f :: outer)
    (hchild : f.child? index = some m) : c.refs m ∧ base.Sound m.site := by
  have hleads := hgrounded.leads f (by rw [hstack]; exact List.mem_cons_self)
  obtain ⟨node, gap, entered, childDepth⟩ := f
  cases node with
  | root r =>
      cases hchild
      exact hleads
  | page copy => exact hleads m (List.mem_of_getElem? hchild)

/-- The cursor may enter the page of a child. -/
theorem entering (hgrounded : k.Grounded base policy c) (hstack : k.stack = f :: outer)
    (hsound : base.Sound m.site) (hopens : m.Opens copy c) :
    (k.entering f d index copy).Grounded base policy c where
  le := hgrounded.le
  policy_eq := hgrounded.policy_eq
  leads g hg := by
    rw [stack_entering hstack, List.mem_cons, List.mem_cons] at hg
    rcases hg with rfl | rfl | hg
    · -- what lies beneath the page lies beneath the child in the base chart
      obtain ⟨p, hp⟩ := hsound.page
      have hsame := (Chart.page_mono hgrounded.le hp).symm.trans hopens.1
      cases hsame
      intro n hn
      refine ⟨hopens.2 n hn, hsound.child hp ?_⟩
      rw [Page.map_children]
      exact List.mem_map_of_mem hn
    · exact hgrounded.leads f (by rw [hstack]; exact List.mem_cons_self)
    · exact hgrounded.leads g (by rw [hstack]; exact List.mem_cons_of_mem f hg)

theorem toEnd (hgrounded : k.Grounded base policy c) : k.toEnd.Grounded base policy c := by
  unfold Cursor.toEnd
  cases hroot : k.root? with
  | none => exact ⟨hgrounded.le, hgrounded.policy_eq, by simp⟩
  | some r =>
      unfold root? at hroot
      cases hlast : k.stack.getLast? with
      | none =>
          rw [hlast] at hroot
          cases hroot
      | some g =>
          rw [hlast] at hroot
          cases hnode : g.node with
          | page copy => simp [hnode] at hroot
          | root r' =>
              simp only [Option.map_some, hnode, Option.some.injEq] at hroot
              subst hroot
              refine hgrounded.moved rfl fun f hf => ⟨g, List.mem_of_getLast? hlast, ?_⟩
              rw [List.mem_singleton.1 hf, hnode]
              rfl

end Grounded
end Cursor

/-! ## Moves that may fail -/

namespace CursorM

open Cursor

/-- The move leaves a cursor that leads to pages in use, and if it fails, then not because a page
has no place. -/
def Abides (base : Chart) (policy : Policy ι) (act : CursorM ι α) (k : Cursor ι) (s : Store)
    (c : Chart) : Prop :=
  ∃ c', Grows s c (act.exec k s).2 c' ∧ (act.exec k s).1.2.Grounded base policy c' ∧
    ∀ e, (act.exec k s).1.1 = .error e → ¬ e.SaysUncommitted

namespace Abides

theorem pure (hrep : Represents s c) (hk : k.Grounded base policy c) (a : α) :
    Abides base policy (pure a) k s c :=
  ⟨c, .refl hrep, hk, fun _ he => nomatch he⟩

theorem throw {e : StoreError} (hrep : Represents s c) (hk : k.Grounded base policy c)
    (he : ¬ e.SaysUncommitted) : Abides base policy (throw e : CursorM ι α) k s c := by
  refine ⟨c, .refl hrep, hk, ?_⟩
  rintro _ ⟨⟩
  exact he

protected theorem bind {m : CursorM ι α} {f : α → CursorM ι β} (hm : Abides base policy m k s c)
    (hf : ∀ a k' s' c', c ≤ c' → Represents s' c' → k'.Grounded base policy c' →
      Abides base policy (f a) k' s' c') : Abides base policy (m >>= f) k s c := by
  obtain ⟨c', hgrows, hk', hsaid⟩ := hm
  unfold Abides
  rw [exec_bind]
  generalize m.exec k s = outcome at hgrows hk' hsaid
  obtain ⟨⟨e | a, k'⟩, s'⟩ := outcome
  · refine ⟨c', hgrows, hk', ?_⟩
    rintro _ ⟨⟩
    exact hsaid e rfl
  · obtain ⟨c'', hgrows', hk'', hsaid'⟩ := hf a k' s' c' hgrows.le hgrows.represents hk'
    exact ⟨c'', hgrows.trans hgrows', hk'', hsaid'⟩

protected theorem get {f : Cursor ι → CursorM ι β} (hf : Abides base policy (f k) k s c) :
    Abides base policy (get >>= f) k s c :=
  hf

protected theorem set {f : Unit → CursorM ι β} (hf : Abides base policy (f ()) k' s c) :
    Abides base policy (set k' >>= f) k s c :=
  hf

protected theorem ofStore {act : StoreM α} {R : α → Store → Chart → Prop} {f : α → CursorM ι β}
    (hact : Runs act s c R) (hk : k.Grounded base policy c)
    (hf : ∀ a s' c', c ≤ c' → Represents s' c' → k.Grounded base policy c' → R a s' c' →
      Abides base policy (f a) k s' c') :
    Abides base policy (ofStore act >>= f) k s c := by
  unfold Abides
  rw [exec_bind, exec_ofStore]
  rcases hact.cases with ⟨a, s', c', hexec, hgrows, hR⟩ | ⟨e, s', c', hexec, hgrows, hfail, -⟩
  · rw [hexec]
    obtain ⟨c'', hgrows', hk', hsaid⟩ :=
      hf a s' c' hgrows.le hgrows.represents (hk.mono hgrows.le) hR
    exact ⟨c'', hgrows.trans hgrows', hk', hsaid⟩
  · rw [hexec]
    refine ⟨c', hgrows, hk.mono hgrows.le, ?_⟩
    rintro _ ⟨⟩
    exact hfail.not_saysUncommitted

/-- The cursor may be taken back. -/
theorem glance {act : CursorM ι α} (hact : Abides base policy act k s c)
    (hk : k.Grounded base policy c) : Abides base policy (CursorM.glance act) k s c := by
  have hexec : (CursorM.glance act).exec k s =
      (((act.exec k s).1.1, k), (act.exec k s).2) := rfl
  obtain ⟨c', hgrows, -, hsaid⟩ := hact
  unfold Abides
  rw [hexec]
  exact ⟨c', hgrows, hk.mono hgrows.le, hsaid⟩

/-- Whether there is an item. -/
theorem isSome {act : CursorM ι (Option α)} (hact : Abides base policy act k s c) :
    Abides base policy (do return (← act).isSome) k s c :=
  hact.bind fun item? _ _ _ _ hrep hk => pure hrep hk item?.isSome

end Abides

section Walks

variable {d : Direction}

/-- A walk that a step leads on. -/
theorem walk_abides {step : CursorM ι (Progress α)}
    (hstep : ∀ {k s c}, Represents s c → k.Grounded base policy c →
      Abides base policy step k s c) (hrep : Represents s c) (hk : k.Grounded base policy c)
    (steps : Nat) : Abides base policy (walk step steps) k s c := by
  induction steps generalizing k s c with
  | zero => exact .throw hrep hk not_false
  | succ steps ih =>
      refine (hstep hrep hk).bind fun progress k' s' c' _ hrep' hk' => ?_
      cases progress with
      | ends a => exact .pure hrep' hk' a
      | goesOn => exact ih hrep' hk'

theorem stepBound_abides (hrep : Represents s c) (hk : k.Grounded base policy c) (count : Nat) :
    Abides base policy (stepBound count) k s c := by
  refine .ofStore (R := fun _ _ _ => True) (Runs.get (f := Pure.pure) (Runs.pure hrep trivial)) hk
    fun s' s'' c' _ hrep' hk' _ => .get ?_
  cases k.root? with
  | none => exact .pure hrep' hk' 0
  | some r => exact .pure hrep' hk' _

/-- To go back to the frame outside, if there is one. -/
theorem leaving_abides (hrep : Represents s c) (hk : k.Grounded base policy c) (a : α) :
    Abides base policy
      (match k.leaving? d with
        | none => Pure.pure (.ends a)
        | some k => do
          set k
          return (.goesOn : Progress α)) k s c := by
  cases hleaving : k.leaving? d with
  | none => exact .pure hrep hk _
  | some k' => exact .set (.pure hrep (hk.leaving hleaving) _)

theorem stepTowards_abides (hdecides : policy.Decides base) (hrep : Represents s c)
    (hk : k.Grounded base policy c) : Abides base policy (stepTowards d) k s c := by
  refine .get ?_
  cases hstack : k.stack with
  | nil => exact .pure hrep hk _
  | cons f outer =>
      simp only [List.head?_cons]
      cases f.ahead? d with
      | none => exact leaving_abides hrep hk none
      | some index =>
          dsimp only
          cases f.leaf? with
          | some page =>
              have hpassing := hk.passing hstack d 1
              refine .set ?_
              cases k.policy.slot page index with
              | some item => exact .pure hrep hpassing _
              | none => exact .pure hrep hpassing _
          | none =>
              dsimp only
              cases hchild : f.child? index with
              | none => exact .set (.pure hrep (hk.setTop hstack (f.past d) k.position rfl) _)
              | some child =>
                  obtain ⟨hr, hsound⟩ := hk.child hstack hchild
                  obtain ⟨decision, hdecide⟩ :=
                    hdecides.visit hsound (f.page?.map (Page.map PageRef.site)) index f.childDepth
                  have hvisit : Runs (policy.visit f.page? index child f.childDepth) s c
                      fun decided _ _ => decided = decision := hdecide hk.le hrep hr rfl rfl
                  rw [← hk.policy_eq] at hvisit
                  refine .ofStore hvisit hk fun decided s' c' hle hrep' hk' _ => ?_
                  cases decided with
                  | skip => exact .set (.pure hrep' (hk'.passing hstack d _) _)
                  | emit item => exact .set (.pure hrep' (hk'.passing hstack d _) _)
                  | descend =>
                      refine .ofStore (PageRef.pageCopy_runs hrep' (hle.refs child hr)) hk'
                        fun copy s'' c'' _ hrep'' hk'' hopens => ?_
                      exact .set (.pure hrep'' (hk''.entering hstack hsound hopens) _)

theorem stepTo_abides (target : Nat) (hrep : Represents s c) (hk : k.Grounded base policy c) :
    Abides base policy (stepTo target) k s c := by
  refine .get ?_
  by_cases hdone : target ≤ k.position
  · rw [if_pos hdone]
    exact .pure hrep hk _
  · rw [if_neg hdone]
    cases hstack : k.stack with
    | nil => exact .pure hrep hk _
    | cons f outer =>
        simp only [List.head?_cons]
        cases f.ahead? .forward with
        | none => exact leaving_abides hrep hk ()
        | some index =>
            dsimp only
            cases f.leaf? with
            | some page =>
                have hmoved := fun i n => hk.setTop hstack { f with index := i } n rfl
                exact .set (.pure hrep (hmoved _ _) _)
            | none =>
                dsimp only
                cases hchild : f.child? index with
                | none =>
                    exact .set (.pure hrep (hk.setTop hstack (f.past .forward) k.position rfl) _)
                | some child =>
                    obtain ⟨hr, hsound⟩ := hk.child hstack hchild
                    dsimp only
                    by_cases hwhole : child.span ≤ target - k.position
                    · rw [if_pos hwhole]
                      exact .set (.pure hrep (hk.passing hstack .forward _) _)
                    · rw [if_neg hwhole]
                      refine .ofStore (PageRef.pageCopy_runs hrep hr) hk
                        fun copy s' c' _ hrep' hk' hopens => ?_
                      exact .set (.pure hrep' (hk'.entering hstack hsound hopens) _)

theorem advance_abides (hdecides : policy.Decides base) (hrep : Represents s c)
    (hk : k.Grounded base policy c) : Abides base policy (advance d) k s c :=
  (stepBound_abides hrep hk 1).bind fun steps _ _ _ _ hrep' hk' =>
    walk_abides (stepTowards_abides hdecides) hrep' hk' steps

theorem skip_abides (hrep : Represents s c) (hk : k.Grounded base policy c) (count : Nat) :
    Abides base policy (skip count) k s c := by
  refine .get ?_
  refine (stepBound_abides hrep hk count).bind fun steps k' s' c' _ hrep' hk' => ?_
  refine (walk_abides (stepTo_abides _) hrep' hk' steps).bind fun _ k'' s'' c'' _ hrep'' hk'' => ?_
  exact .get (.pure hrep'' hk'' _)

/-- A call that does not open the cursor over another tree. -/
theorem call_abides (hdecides : policy.Decides base) {call : CursorCall}
    (hstays : call.root? = none) (hrep : Represents s c) (hk : k.Grounded base policy c) :
    Abides base policy call.make k s c := by
  have hadvance : ∀ d, Abides base policy (advance d) k s c :=
    fun d => advance_abides hdecides hrep hk
  have hanswer : ∀ {β : Type} {act : CursorM ι β} (f : β → CursorAnswer ι),
      Abides base policy act k s c → Abides base policy (do return f (← act)) k s c :=
    fun f hact => hact.bind fun b _ _ _ _ hrep hk => .pure hrep hk (f b)
  cases call with
  | next => exact hanswer .item (hadvance .forward)
  | previous => exact hanswer .item (hadvance .backward)
  | skip count => exact hanswer .count (skip_abides hrep hk count)
  | head => exact hanswer .item ((hadvance .forward).glance hk)
  | step => exact hanswer .flag (hadvance .forward).isSome
  | hasNext => exact hanswer .flag ((hadvance .forward).glance hk).isSome
  | hasPrevious => exact hanswer .flag ((hadvance .backward).glance hk).isSome
  | toEnd => exact .get (.set (.pure hrep hk.toEnd _))
  | reopen root => cases hstays

end Walks
end CursorM

namespace Cursor

/-- The cursor and the store after some calls, whether or not they fail. -/
def after (k : Cursor ι) (s : Store) : List CursorCall → Cursor ι × Store
  | [] => (k, s)
  | call :: calls =>
    let outcome := call.make.exec k s
    outcome.1.2.after outcome.2 calls

/-- Calls leave a cursor that leads to pages in use. -/
theorem after_grounded (hdecides : policy.Decides base) {calls : List CursorCall}
    (hstays : ∀ call ∈ calls, call.root? = none) (hrep : Represents s c)
    (hk : k.Grounded base policy c) :
    ∃ c', Grows s c (k.after s calls).2 c' ∧ (k.after s calls).1.Grounded base policy c' := by
  induction calls generalizing k s c with
  | nil => exact ⟨c, .refl hrep, hk⟩
  | cons call calls ih =>
      obtain ⟨c', hgrows, hk', -⟩ :=
        CursorM.call_abides hdecides (hstays call List.mem_cons_self) hrep hk
      obtain ⟨c'', hgrows', hk''⟩ :=
        ih (fun call hcall => hstays call (List.mem_cons_of_mem _ hcall)) hgrows.represents hk'
      exact ⟨c'', hgrows.trans hgrows', hk''⟩

/-- No call of a cursor, after any others, fails because a page has no place. -/
theorem after_error (hdecides : policy.Decides c) {calls : List CursorCall} {call : CursorCall}
    {e : StoreError} (hstays : ∀ call' ∈ call :: calls, call'.root? = none)
    (hrep : Represents s c) (hr : c.refs r)
    (herror : (call.make.exec ((start r policy).after s calls).1
      ((start r policy).after s calls).2).1.1 = .error e) : ¬ e.SaysUncommitted := by
  have hstart : (start r policy).Grounded c policy c :=
    .start (Chart.le_refl c) hr (hrep.sound r hr)
  obtain ⟨c', hgrows, hk⟩ := after_grounded hdecides
    (fun call' hcall => hstays call' (List.mem_cons_of_mem _ hcall)) hrep hstart
  obtain ⟨c'', -, -, hsaid⟩ :=
    CursorM.call_abides hdecides (hstays call List.mem_cons_self) hgrows.represents hk
  exact hsaid e herror

end Cursor
end PageTree
