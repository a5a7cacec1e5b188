import PageTree.Cursor.Basic
import PageTree.Proofs.Cursor.Gaps
import PageTree.Proofs.Effect

/-!
# Moves and walks

What a cursor does to itself and to the store: a move either succeeds or fails because a page
cannot be had (`Moves`), and what it has changed stays changed when it fails, so the judgment says
where the cursor then stands too.

A step of a walk towards the next item passes over at most one stretch (`stepTowards_moves`), so a
walk passes over stretches for which nothing is yielded and ends with the first item, or where
there are no more (`advance_moves`).  Each step leaves less to do, and what there is to do at
first is bounded by the size of the tree.
-/

namespace PageTree

/-! ## Moves -/

section Moves

open StoreM

variable {ι α β : Type}

namespace CursorM

/-- The outcome of a move, the cursor afterwards and the store that it leaves. -/
def exec (act : CursorM ι α) (k : Cursor ι) (s : Store) :
    (Except StoreError α × Cursor ι) × Store :=
  (k.run act).run s

@[simp] theorem exec_pure (a : α) (k : Cursor ι) (s : Store) :
    exec (pure a) k s = ((.ok a, k), s) := rfl

theorem exec_bind (m : CursorM ι α) (f : α → CursorM ι β) (k : Cursor ι) (s : Store) :
    exec (m >>= f) k s =
      match exec m k s with
      | ((.ok a, k'), s') => exec (f a) k' s'
      | ((.error e, k'), s') => ((.error e, k'), s') := by
  simp only [exec, Cursor.run, ExceptT.run_bind, StateT.run_bind]
  generalize (((m.run).run k).run s : Id _) = outcome
  obtain ⟨⟨_ | _, _⟩, _⟩ := outcome <;> rfl

@[simp] theorem exec_get (k : Cursor ι) (s : Store) :
    exec (get : CursorM ι (Cursor ι)) k s = ((.ok k, k), s) := rfl

@[simp] theorem exec_set (k k' : Cursor ι) (s : Store) :
    exec (set k' : CursorM ι Unit) k s = ((.ok (), k'), s) := rfl

@[simp] theorem exec_ofStore (act : StoreM α) (k : Cursor ι) (s : Store) :
    exec (ofStore act) k s = (((StoreM.exec act s).1, k), (StoreM.exec act s).2) := rfl

end CursorM

/-- The move makes the chart grow and gives a result with a property, and no load fails, or it
fails because a page cannot be had, and leaves the cursor with another. -/
def Moves (act : CursorM ι α) (k : Cursor ι) (s : Store) (c : Chart)
    (post : α → Cursor ι → Chart → Prop) (stop : Cursor ι → Chart → Prop) : Prop :=
  ∃ c', Grows s c (act.exec k s).2 c' ∧
    match (act.exec k s).1 with
    | (.ok a, k') => (act.exec k s).2.failures = s.failures ∧ post a k' c'
    | (.error e, k') => e.IsLoadFailure ∧ Lacks s c e (act.exec k s).2 ∧ stop k' c'

namespace Moves

variable {k : Cursor ι} {s : Store} {c : Chart} {P P' : α → Cursor ι → Chart → Prop}
  {Q : β → Cursor ι → Chart → Prop} {stop stop' : Cursor ι → Chart → Prop}

/-- What holds of the outcome of a move, the count of failed loads included. -/
theorem tallied {act : CursorM ι α} (hmoves : Moves act k s c P stop) :
    (∃ a k' s' c', act.exec k s = ((.ok a, k'), s') ∧ Grows s c s' c' ∧
        s'.failures = s.failures ∧ P a k' c') ∨
      ∃ e k' s' c', act.exec k s = ((.error e, k'), s') ∧ Grows s c s' c' ∧ e.IsLoadFailure ∧
        Lacks s c e s' ∧ stop k' c' := by
  obtain ⟨c', hgrows, hpost⟩ := hmoves
  generalize act.exec k s = outcome at hgrows hpost
  obtain ⟨⟨e | a, k'⟩, s'⟩ := outcome
  · exact Or.inr ⟨e, k', s', c', rfl, hgrows, hpost⟩
  · exact Or.inl ⟨a, k', s', c', rfl, hgrows, hpost⟩

/-- What holds of the outcome of a move. -/
theorem cases {act : CursorM ι α} (hmoves : Moves act k s c P stop) :
    (∃ a k' s' c', act.exec k s = ((.ok a, k'), s') ∧ Grows s c s' c' ∧ P a k' c') ∨
      ∃ e k' s' c', act.exec k s = ((.error e, k'), s') ∧ Grows s c s' c' ∧ e.IsLoadFailure ∧
        Lacks s c e s' ∧ stop k' c' := by
  rcases hmoves.tallied with ⟨a, k', s', c', hexec, hgrows, -, hpost⟩ | herror
  · exact Or.inl ⟨a, k', s', c', hexec, hgrows, hpost⟩
  · exact Or.inr herror

/-- A store that serves every page makes the move succeed. -/
theorem succeeds {act : CursorM ι α} (hmoves : Moves act k s c P stop) (hserves : Serves s c) :
    ∃ a k' s' c', act.exec k s = ((.ok a, k'), s') ∧ Grows s c s' c' ∧ P a k' c' := by
  rcases hmoves.cases with hok | ⟨_, _, _, _, _, _, _, hlacks, _⟩
  · exact hok
  · exact absurd hserves hlacks.unserved

theorem ok {act : CursorM ι α} {a : α} {k' : Cursor ι} {s' : Store} {c' : Chart}
    (hexec : act.exec k s = ((.ok a, k'), s')) (hgrows : Grows s c s' c')
    (hsame : s'.failures = s.failures) (hpost : P a k' c') : Moves act k s c P stop :=
  ⟨c', by rw [hexec]; exact hgrows, by rw [hexec]; exact ⟨hsame, hpost⟩⟩

theorem error {act : CursorM ι α} {e : StoreError} {k' : Cursor ι} {s' : Store} {c' : Chart}
    (hexec : act.exec k s = ((.error e, k'), s')) (hgrows : Grows s c s' c')
    (hfail : e.IsLoadFailure) (hlacks : Lacks s c e s') (hstop : stop k' c') :
    Moves act k s c P stop :=
  ⟨c', by rw [hexec]; exact hgrows, by rw [hexec]; exact ⟨hfail, hlacks, hstop⟩⟩

protected theorem pure (hrep : Represents s c) {a : α} (hpost : P a k c) :
    Moves (pure a : CursorM ι α) k s c P stop :=
  ok (CursorM.exec_pure a k s) (Grows.refl hrep) rfl hpost

/-- A move may be traded for what is left of it. -/
theorem of_rest {act act' : CursorM ι α} {k' : Cursor ι} {s' : Store} {c' : Chart}
    (hexec : act.exec k s = act'.exec k' s') (hgrows : Grows s c s' c')
    (hsame : s'.failures = s.failures) (hmoves : Moves act' k' s' c' P stop) :
    Moves act k s c P stop := by
  rcases hmoves.tallied with
    ⟨a, k'', s'', c'', hexec', hgrows', hsame', hpost⟩ |
      ⟨e, k'', s'', c'', hexec', hgrows', hfail, hlacks, hstop⟩
  · exact ok (hexec.trans hexec') (hgrows.trans hgrows') (hsame'.trans hsame) hpost
  · exact error (hexec.trans hexec') (hgrows.trans hgrows') hfail (hlacks.after hgrows hsame) hstop

protected theorem bind {m : CursorM ι α} {f : α → CursorM ι β} (hm : Moves m k s c P stop)
    (hf : ∀ a k' s' c', Grows s c s' c' → P a k' c' → Moves (f a) k' s' c' Q stop) :
    Moves (m >>= f) k s c Q stop := by
  rcases hm.tallied with
    ⟨a, k', s', c', hexec, hgrows, hsame, hpost⟩ |
      ⟨e, k', s', c', hexec, hgrows, hfail, hlacks, hstop⟩
  · exact of_rest (by rw [CursorM.exec_bind, hexec]) hgrows hsame (hf a k' s' c' hgrows hpost)
  · exact error (by rw [CursorM.exec_bind, hexec]) hgrows hfail hlacks hstop

theorem mono {act : CursorM ι α} (hmoves : Moves act k s c P stop)
    (hpost : ∀ a k' s' c', Grows s c s' c' → P a k' c' → P' a k' c')
    (hstop : ∀ k' s' c', Grows s c s' c' → stop k' c' → stop' k' c') :
    Moves act k s c P' stop' := by
  rcases hmoves.tallied with
    ⟨a, k', s', c', hexec, hgrows, hsame, hP⟩ |
      ⟨e, k', s', c', hexec, hgrows, hfail, hlacks, hQ⟩
  · exact ok hexec hgrows hsame (hpost a k' s' c' hgrows hP)
  · exact error hexec hgrows hfail hlacks (hstop k' s' c' hgrows hQ)

/-- The cursor may be looked at. -/
protected theorem get {f : Cursor ι → CursorM ι β} (hf : Moves (f k) k s c Q stop) :
    Moves (get >>= f) k s c Q stop :=
  hf

/-- The cursor may be replaced. -/
protected theorem set {k' : Cursor ι} {f : Unit → CursorM ι β}
    (hf : Moves (f ()) k' s c Q stop) : Moves (set k' >>= f) k s c Q stop :=
  hf

/-- The cursor stays where it is while the store is at work. -/
protected theorem ofStore {act : StoreM α} {R : α → Store → Chart → Prop}
    {f : α → CursorM ι β} (hact : Runs act s c R) (hstop : ∀ c', c ≤ c' → stop k c')
    (hf : ∀ a s' c', Grows s c s' c' → R a s' c' → Moves (f a) k s' c' Q stop) :
    Moves (CursorM.ofStore act >>= f) k s c Q stop := by
  rcases hact.tallied with
    ⟨a, s', c', hexec, hgrows, hsame, hR⟩ | ⟨e, s', c', hexec, hgrows, hfail, hlacks⟩
  · refine of_rest ?_ hgrows hsame (hf a s' c' hgrows hR)
    rw [CursorM.exec_bind, CursorM.exec_ofStore, hexec]
  · have hfails : (CursorM.ofStore act >>= f).exec k s = ((.error e, k), s') := by
      rw [CursorM.exec_bind, CursorM.exec_ofStore, hexec]
    exact error hfails hgrows hfail hlacks (hstop c' hgrows.le)

end Moves

end Moves

open StoreM

variable {ι : Type}

namespace Cursor

variable {s : Store} {c c' : Chart} {scheme : Scheme ι} {r : PageRef} {k k' : Cursor ι}
  {before after : List (Stretch ι)}

open CursorM (Progress)

/-- What a step of a walk comes to. -/
def Steps (d : Direction) (scheme : Scheme ι) (r : PageRef) (k : Cursor ι)
    (before after : List (Stretch ι)) : Progress (Option ι) → Cursor ι → Chart → Prop
  | .goesOn, k', c' => k'.work d < k.work d ∧ ∃ xs before' after', Stretch.Silent xs ∧
      d.Travels before after xs before' after' ∧ k'.Stands c' scheme r before' after'
  | .ends none, k', c' => d.rest before after = [] ∧ k'.Stands c' scheme r before after
  | .ends (some item), k', c' => ∃ n before' after',
      d.Travels before after [⟨n, some item⟩] before' after' ∧
        k'.Stands c' scheme r before' after'

/-- The position goes with the gap. -/
theorem position_of_travels {d : Direction} {n : Nat} {item? : Option ι}
    {before' after' : List (Stretch ι)} {position : Nat}
    (hposition : position = Stretch.total before)
    (htravels : d.Travels before after [⟨n, item?⟩] before' after') :
    d.move position n = Stretch.total before' := by
  cases d with
  | forward =>
      obtain ⟨-, rfl⟩ := htravels
      simp [Direction.move, hposition]
  | backward =>
      obtain ⟨rfl, -⟩ := htravels
      simp [Direction.move, hposition]

namespace StandsIn

variable {f : Frame} {outer : List Frame} {parts : List (List (Stretch ι))} {d : Direction}
  {index : Nat}

/-- The item that comes next in a direction lies at the gap. -/
theorem near (hin : k.StandsIn c scheme r f outer parts before after)
    (hahead : f.ahead? d = some index) : f.index = d.near index ∧ index < f.size :=
  Frame.near_of_ahead (hin.length_eq ▸ hin.index_le) hahead

/-- Without an item in a direction, the gap is at the end of the frame. -/
theorem at_end (hin : k.StandsIn c scheme r f outer parts before after)
    (hahead : f.ahead? d = none) : f.index = if d = .forward then parts.length else 0 := by
  rw [hin.length_eq]
  exact Frame.end_of_ahead (hin.length_eq ▸ hin.index_le) hahead

/-- The cursor passes over an item of its innermost frame. -/
theorem passing (hin : k.StandsIn c scheme r f outer parts before after) {n : Nat} {item? : Option ι}
    (hahead : f.ahead? d = some index) (hpart : parts[index]? = some [⟨n, item?⟩]) :
    (k.passing f d n).work d < k.work d ∧ ∃ before' after',
      d.Travels before after [⟨n, item?⟩] before' after' ∧
        (k.passing f d n).Stands c scheme r before' after' := by
  obtain ⟨hnear, hlt⟩ := hin.near hahead
  have hwithin := hin.within
  rw [hnear] at hwithin
  obtain ⟨before', after', htravels, hwithin'⟩ := hwithin.pass hpart
  refine ⟨work_passing hin.stack hin.entered hnear hlt n, before', after', htravels, hin.follows,
    position_of_travels hin.position htravels, _, outer, parts, stack_passing hin.stack hnear n,
    hin.entered, hin.shows, ?_, hwithin'⟩
  rw [hin.length_eq]
  cases d with
  | forward => exact hlt
  | backward => exact Nat.le_of_lt hlt

/-- The cursor goes back to the frame above its innermost one. -/
theorem leaving (hin : k.StandsIn c scheme r f outer parts before after)
    (hend : f.index = if d = .forward then parts.length else 0) :
    (k.leaving? d = none ∧ d.rest before after = []) ∨
      ∃ k', k.leaving? d = some k' ∧ k'.work d < k.work d ∧
        k'.Stands c scheme r before after := by
  have hwithin := hin.within
  cases outer with
  | nil =>
      refine Or.inl ⟨by simp [leaving?, hin.stack], ?_⟩
      generalize f.node = node at hwithin
      cases hwithin
      cases d with
      | forward =>
          rw [if_pos rfl] at hend
          simp [Direction.rest, hend]
      | backward => simp_all [Direction.rest]
  | cons g outer =>
      refine Or.inr ⟨{ k with stack := g.left d :: outer }, by simp [leaving?, hin.stack], ?_⟩
      obtain ⟨copy, hcopy⟩ : ∃ copy, f.node = .page copy := by
        generalize f.node = node at hwithin
        cases hwithin
        exact ⟨_, rfl⟩
      rw [hcopy] at hwithin
      obtain ⟨index, parts', hentered, hshows', hle, hwithin'⟩ := hwithin.leave hend
      refine ⟨work_leaving hin.stack hentered, hin.follows, hin.position, g.left d, outer, parts',
        rfl, ?_⟩
      rw [Frame.left_eq hentered]
      exact ⟨rfl, hshows', hle, hwithin'⟩

/-- The cursor enters a child from its near end. -/
theorem entering (hin : k.StandsIn c scheme r f outer parts before after) {w : Nat}
    {parts' : List (List (Stretch ι))} {part : List (Stretch ι)} {copy : PageCopy}
    (hahead : f.ahead? d = some index) (hpart : parts[index]? = some part)
    (hw : f.node.weights[index]? = some w) (hlighter : (FrameNode.page copy).weight < w)
    (hshows' : (FrameNode.page copy).Shows c scheme (f.childDepth + 1) parts')
    (hparts' : parts'.flatten = part) :
    (k.entering f d index copy).work d < k.work d ∧
      (k.entering f d index copy).Stands c scheme r before after := by
  obtain ⟨hnear, hlt⟩ := hin.near hahead
  have hlength : parts'.length = copy.page.arity := hshows'.length 0 none 0
  have hwithin := hin.within
  rw [hnear] at hwithin
  have hwithin' := hwithin.enter hin.shows hpart hw hlighter hshows' hparts'
  refine ⟨work_entering hin.stack hin.entered hnear hw hlighter, hin.follows, hin.position, _, _,
    parts', stack_entering hin.stack copy, rfl, hshows', ?_, hwithin'⟩
  rw [hlength]
  cases d <;> simp [Frame.page]

/-! ## A step -/

/-- At the end of its innermost frame, the cursor leaves it for the one above. -/
theorem leaving_moves (hrep : Represents s c)
    (hin : k.StandsIn c scheme r f outer parts before after) (hahead : f.ahead? d = none) :
    Moves (match k.leaving? d with
      | none => pure (.ends none)
      | some k => do
        set k
        return .goesOn) k s c (Steps d scheme r k before after) fun k' _ => k' = k := by
  rcases hin.leaving (hin.at_end hahead) with ⟨hnone, hrest⟩ | ⟨k', hsome, hless, hstands⟩
  · simp only [hnone]
    exact Moves.pure hrep ⟨hrest, hin.stands⟩
  · simp only [hsome]
    exact Moves.set (Moves.pure hrep ⟨hless, [], before, after, Stretch.silent_nil,
      Direction.Travels.refl d before after, hstands⟩)

/-- In a leaf, the cursor passes over a slot. -/
theorem slot_moves (hrep : Represents s c)
    (hin : k.StandsIn c scheme r f outer parts before after) (hahead : f.ahead? d = some index)
    {page : LivePage} (hleaf : f.leaf? = some page) :
    Moves (do
        set (k.passing f d 1)
        match k.policy.slot page index with
        | some item => return .ends (some item)
        | none => return .goesOn) k s c (Steps d scheme r k before after) fun k' _ => k' = k := by
  obtain ⟨hpart, -⟩ := hin.shows.slot hleaf (hin.near hahead).2
  obtain ⟨hless, before', after', htravels, hstands⟩ := hin.passing hahead hpart
  refine Moves.set ?_
  rw [hin.follows.slot]
  cases hslot : scheme.slot page.body.shape index with
  | none =>
      rw [hslot] at htravels
      exact Moves.pure hrep ⟨hless, _, before', after', by simp [Stretch.Silent], htravels, hstands⟩
  | some item =>
      rw [hslot] at htravels
      exact Moves.pure hrep ⟨1, before', after', htravels, hstands⟩

/-- The cursor enters a child that the tour goes through. -/
theorem entering_moves {α : Type} {result : α} (hrep : Represents s c)
    (hin : k.StandsIn c scheme r f outer parts before after) (hahead : f.ahead? d = some index)
    {child : PageRef} {part : List (Stretch ι)} (hrefs : c.refs child)
    (hpart : parts[index]? = some part) (hw : f.node.weights[index]? = some (child.treeSize + 1))
    (henter : ∀ c' copy, c ≤ c' → c'.page child.site = some (copy.page.map PageRef.site) →
      (∀ m ∈ copy.page.children, c'.refs m) → ∃ parts',
        (FrameNode.page copy).Shows c' scheme (f.childDepth + 1) parts' ∧ parts'.flatten = part) :
    Moves (do
        set (k.entering f d index (← CursorM.ofStore child.pageCopy))
        return result) k s c (fun a k' c' => a = result ∧ k'.work d < k.work d ∧
          k'.Stands c' scheme r before after) fun k' _ => k' = k := by
  refine Moves.ofStore (PageRef.pageCopy_runs hrep hrefs) (fun _ _ => rfl) ?_
  rintro copy s' c' hgrows ⟨hpage, hchildren⟩
  obtain ⟨parts', hshows', hparts'⟩ := henter c' copy hgrows.le hpage hchildren
  have hlighter := FrameNode.weight_page_lt hgrows.represents (hgrows.le.refs _ hrefs) hpage
  exact Moves.set (Moves.pure hgrows.represents ⟨rfl,
    (hin.mono hgrows.le).entering hahead hpart hw hlighter hshows' hparts'⟩)

/-- In a node, the policy says whether the cursor passes over a child or enters it. -/
theorem visit_moves (hrep : Represents s c)
    (hin : k.StandsIn c scheme r f outer parts before after) (hahead : f.ahead? d = some index)
    {child : PageRef} {part : List (Stretch ι)} (hrefs : c.refs child)
    (hpart : parts[index]? = some part) (hw : f.node.weights[index]? = some (child.treeSize + 1))
    (htours : c.Tours scheme (f.page?.map (Page.map PageRef.site)) index f.childDepth child.site
      part) :
    Moves (do
        match ← CursorM.ofStore (k.policy.visit f.page? index child f.childDepth) with
        | .descend =>
          set (k.entering f d index (← CursorM.ofStore child.pageCopy))
          return .goesOn
        | .skip =>
          set (k.passing f d child.span)
          return .goesOn
        | .emit item =>
          set (k.passing f d child.span)
          return .ends (some item)) k s c (Steps d scheme r k before after)
      fun k' _ => k' = k := by
  have hspan : child.site.header.span = child.span := by rw [PageRef.header_site]; rfl
  -- the tour has been decided before the walk, and the policy decides the same
  rcases htours.cases hin.follows with ⟨hvisit, rfl⟩ | ⟨item, hvisit, rfl⟩ | ⟨hvisit, henter⟩
  · rw [hspan] at hpart
    refine Moves.ofStore (hin.follows.visit hrep hrefs hvisit) (fun _ _ => rfl) ?_
    rintro _ s' c' hgrows rfl
    obtain ⟨hless, before', after', htravels, hstands⟩ := (hin.mono hgrows.le).passing hahead hpart
    exact Moves.set (Moves.pure hgrows.represents ⟨hless, _, before', after',
      by simp [Stretch.Silent], htravels, hstands⟩)
  · rw [hspan] at hpart
    refine Moves.ofStore (hin.follows.visit hrep hrefs hvisit) (fun _ _ => rfl) ?_
    rintro _ s' c' hgrows rfl
    obtain ⟨-, before', after', htravels, hstands⟩ := (hin.mono hgrows.le).passing hahead hpart
    exact Moves.set (Moves.pure hgrows.represents ⟨_, before', after', htravels, hstands⟩)
  · refine Moves.ofStore (hin.follows.visit hrep hrefs hvisit) (fun _ _ => rfl) ?_
    rintro _ s' c' hgrows rfl
    refine ((hin.mono hgrows.le).entering_moves hgrows.represents hahead (hgrows.le.refs _ hrefs)
      hpart hw fun c'' copy hle => henter c'' copy (Chart.le_trans hgrows.le hle)).mono ?_
      fun _ _ _ _ hsame => hsame
    rintro _ k' s'' c'' - ⟨rfl, hless, hstands⟩
    exact ⟨hless, [], before, after, Stretch.silent_nil, Direction.Travels.refl d before after,
      hstands⟩

end StandsIn

/-- A step of a walk passes over a stretch at most. -/
theorem Stands.stepTowards_moves (hrep : Represents s c)
    (hstands : k.Stands c scheme r before after) (d : Direction) :
    Moves (CursorM.stepTowards d) k s c (Steps d scheme r k before after)
      fun k' _ => k' = k := by
  obtain ⟨f, outer, parts, hin⟩ := hstands.exists_in
  refine Moves.get ?_
  simp only [hin.stack, List.head?_cons]
  cases hahead : f.ahead? d with
  | none => exact hin.leaving_moves hrep hahead
  | some index =>
      cases hleaf : f.leaf? with
      | some page => exact hin.slot_moves hrep hahead hleaf
      | none =>
          obtain ⟨child, part, hchild, hrefs, hpart, htours, hw⟩ :=
            hin.shows.child hleaf (hin.near hahead).2
          simp only [hchild]
          exact hin.visit_moves hrep hahead hrefs hpart hw htours

/-! ## Whole walks -/

/-- The cursor has come to stand past some stretches. -/
def Passed (d : Direction) (scheme : Scheme ι) (r : PageRef) (before after xs : List (Stretch ι))
    (k : Cursor ι) (c : Chart) : Prop :=
  ∃ before' after', d.Travels before after xs before' after' ∧ k.Stands c scheme r before' after'

/-- The cursor has passed only stretches for which nothing is yielded. -/
def Strays (d : Direction) (scheme : Scheme ι) (r : PageRef) (before after : List (Stretch ι))
    (k : Cursor ι) (c : Chart) : Prop :=
  ∃ xs, Stretch.Silent xs ∧ Passed d scheme r before after xs k c

/-- What a walk comes to: the first item in its direction, or none up to the end. -/
def Arrives (d : Direction) (scheme : Scheme ι) (r : PageRef) (before after : List (Stretch ι)) :
    Option ι → Cursor ι → Chart → Prop
  | none, k, c => Stretch.Silent (d.rest before after) ∧
      Passed d scheme r before after (d.rest before after) k c
  | some item, k, c => ∃ xs n, Stretch.Silent xs ∧
      Passed d scheme r before after (xs ++ [⟨n, some item⟩]) k c

theorem Passed.trans {d : Direction} {xs ys before' after' : List (Stretch ι)}
    (htravels : d.Travels before after xs before' after')
    (hpassed : Passed d scheme r before' after' ys k c) :
    Passed d scheme r before after (xs ++ ys) k c := by
  obtain ⟨before'', after'', htravels', hstands⟩ := hpassed
  exact ⟨before'', after'', htravels.trans htravels', hstands⟩

theorem Stands.passed_nil (hstands : k.Stands c scheme r before after) (d : Direction) :
    Passed d scheme r before after [] k c :=
  ⟨before, after, Direction.Travels.refl d before after, hstands⟩

theorem Strays.trans {d : Direction} {xs before' after' : List (Stretch ι)}
    (hsilent : Stretch.Silent xs) (htravels : d.Travels before after xs before' after')
    (hstrays : Strays d scheme r before' after' k c) : Strays d scheme r before after k c := by
  obtain ⟨ys, hsilent', hpassed⟩ := hstrays
  exact ⟨xs ++ ys, hsilent.append hsilent', hpassed.trans htravels⟩

theorem Arrives.trans {d : Direction} {xs before' after' : List (Stretch ι)}
    (hsilent : Stretch.Silent xs) (htravels : d.Travels before after xs before' after')
    {item? : Option ι} (harrives : Arrives d scheme r before' after' item? k c) :
    Arrives d scheme r before after item? k c := by
  cases item? with
  | none =>
      obtain ⟨hsilent', hpassed⟩ := harrives
      have hrest := htravels.rest_eq
      exact ⟨hrest ▸ hsilent.append hsilent', hrest ▸ hpassed.trans htravels⟩
  | some item =>
      obtain ⟨ys, n, hsilent', hpassed⟩ := harrives
      refine ⟨xs ++ ys, n, hsilent.append hsilent', ?_⟩
      rw [List.append_assoc]
      exact hpassed.trans htravels

/-- A walk passes over stretches for which nothing is yielded, up to the first item. -/
theorem Stands.walk_moves (hrep : Represents s c) (hstands : k.Stands c scheme r before after)
    (d : Direction) {steps : Nat} (hsteps : k.work d < steps) :
    Moves (CursorM.walk (CursorM.stepTowards d) steps) k s c (Arrives d scheme r before after)
      (Strays d scheme r before after) := by
  -- By induction on the steps that are left; each one leaves less to do.
  induction steps generalizing k s c before after with
  | zero => exact absurd hsteps (Nat.not_lt_zero _)
  | succ steps ih =>
      have hstep : Moves (CursorM.stepTowards d) k s c (Steps d scheme r k before after)
          (Strays d scheme r before after) := by
        refine (hstands.stepTowards_moves hrep d).mono (fun _ _ _ _ _ hpost => hpost) ?_
        rintro _ s' c' hgrows rfl
        exact ⟨[], Stretch.silent_nil, (hstands.mono hgrows.le).passed_nil d⟩
      refine hstep.bind ?_
      rintro (_ | item?) k' s' c' hgrows hpost
      · obtain ⟨hless, xs, before', after', hsilent, htravels, hstands'⟩ := hpost
        refine (ih hgrows.represents hstands' (by omega)).mono ?_ ?_
        · intro item? _ _ _ _ harrives
          exact harrives.trans hsilent htravels
        · intro _ _ _ _ hstrays
          exact hstrays.trans hsilent htravels
      · cases item? with
        | none =>
            obtain ⟨hrest, hstands'⟩ := hpost
            refine Moves.pure hgrows.represents ?_
            rw [Arrives, hrest]
            exact ⟨Stretch.silent_nil, hstands'.passed_nil d⟩
        | some item =>
            obtain ⟨n, before', after', htravels, hstands'⟩ := hpost
            exact Moves.pure hgrows.represents
              ⟨[], n, Stretch.silent_nil, before', after', htravels, hstands'⟩

theorem exec_stepBound (hroot : k.root? = some r) (count : Nat) (s : Store) :
    (CursorM.stepBound count).exec k s =
      ((.ok (s.walkBound r (k.position + count)), k), s) := by
  simp only [CursorM.stepBound, CursorM.exec_bind, CursorM.exec_ofStore, exec_get,
    CursorM.exec_get, hroot, CursorM.exec_pure]

theorem Stands.exec_stepBound (hstands : k.Stands c scheme r before after) (count : Nat)
    (s : Store) :
    (CursorM.stepBound count).exec k s =
      ((.ok (s.walkBound r (k.position + count)), k), s) :=
  Cursor.exec_stepBound hstands.root_eq count s

/-- The bound on the steps of a walk is more than what there can be to do. -/
theorem lt_walkBound (hrep : Mirrors s c) (hr : c.refs r) (position : Nat) :
    r.treeSize + 2 < s.walkBound r position := by
  have hpos := (hrep.sound r hr).area_pos
  rw [PageRef.header_site] at hpos
  change 0 < r.treeSize at hpos
  have hbase : r.treeSize + 1 ≤ s.depthBound r + r.span + position := by
    rw [Store.depthBound]
    omega
  have htwo : 2 ≤ s.depthBound r + r.span + position := by omega
  rw [Store.walkBound]
  calc r.treeSize + 2 < 2 * 2 * (r.treeSize + 1) := by omega
    _ ≤ _ := Nat.mul_le_mul (Nat.mul_le_mul htwo htwo) hbase

/-- A walk may take more steps than what is left to do. -/
theorem Stands.stepBound_moves {α : Type} {f : Nat → CursorM ι α}
    {post : α → Cursor ι → Chart → Prop} {stop : Cursor ι → Chart → Prop} (hrep : Represents s c)
    (hstands : k.Stands c scheme r before after) (count : Nat)
    (hf : ∀ steps, r.treeSize + 2 < steps → Moves (f steps) k s c post stop) :
    Moves (CursorM.stepBound count >>= f) k s c post stop := by
  have hexec : (CursorM.stepBound count >>= f).exec k s =
      (f (s.walkBound r (k.position + count))).exec k s := by
    rw [CursorM.exec_bind, hstands.exec_stepBound]
  exact Moves.of_rest hexec (Grows.refl hrep) rfl
    (hf _ (lt_walkBound hrep.toMirrors hstands.tour.1 _))

/-- To advance is to pass over the first item in a direction and to give it. -/
theorem Stands.advance_moves (hrep : Represents s c)
    (hstands : k.Stands c scheme r before after) (d : Direction) :
    Moves (CursorM.advance d) k s c (Arrives d scheme r before after)
      (Strays d scheme r before after) := by
  refine hstands.stepBound_moves hrep 1 ?_
  intro steps hsteps
  exact hstands.walk_moves hrep d (Nat.lt_of_le_of_lt (hstands.work_le d) hsteps)

end Cursor

end PageTree
