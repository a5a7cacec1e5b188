import PageTree.Proofs.Client.Observers

/-!
# Scans of a map

A client moves a cursor over its map, call by call, while loads of pages fail.  A move that has
failed is made again on a cursor that is opened at the position where the last attempt has left
it, so every attempt begins at an index into the list of the entries, and a call comes to its end
after no more failures than there are retries, or with the one after these
(`MapCursorM.retrying_ventures`).

As long as no one changes the tree and the client never gives it up, what the calls give is what
they would give of the list and the index, whichever loads fail (`MapScan.calls_guided`).  A call
for which too many fail leaves the cursor at an index that it has come to on its way, and the
calls after it go on from there.
-/

namespace PageTree

open StoreM

variable {ι α β : Type}

/-- In a store that is open the failure to have a page is not fatal. -/
theorem Lacks.isFatal_eq {s s' : Store} {c : Chart} {e : StoreError} (hlacks : Lacks s c e s')
    (hfail : e.IsLoadFailure) (hopen : s.zones.isClosed = false) : e.isFatal = false := by
  cases hfail with
  | closed =>
      have hclosed := hlacks.refused rfl
      rw [hopen] at hclosed
      cases hclosed
  | pageNotFound | zoneNotFound | malformedPage => rfl

/-! ## Attempts -/

/-- The store is open, and the client keeps its tree whatever fails. -/
structure Scene.Steady (w : Scene) : Prop where
  isOpen : w.store.zones.isClosed = false
  never : w.mayReset = false

/-- Pages have been read, and nothing else has happened. -/
structure Scene.Reads (w : Scene) (c : Chart) (w' : Scene) (c' : Chart) : Prop where
  grows : Grows w.store c w'.store c'
  client : w'.client = w.client

namespace Scene.Reads

variable {w w' w'' : Scene} {c c' c'' : Chart}

theorem refl (hrep : Represents w.store c) : w.Reads c w c :=
  ⟨.refl hrep, rfl⟩

theorem trans (hreads : w.Reads c w' c') (hreads' : w'.Reads c' w'' c'') : w.Reads c w'' c'' :=
  ⟨hreads.grows.trans hreads'.grows, hreads'.client.trans hreads.client⟩

theorem maxRetries_eq (hreads : w.Reads c w' c') : w'.maxRetries = w.maxRetries := by
  rw [maxRetries, hreads.grows.settings, maxRetries]

theorem steady (hreads : w.Reads c w' c') (hsteady : w.Steady) : w'.Steady where
  isOpen := by rw [hreads.grows.zones, hsteady.isOpen]
  never := by
    have hnever := hsteady.never
    rw [mayReset] at hnever ⊢
    rw [hreads.grows.settings, hreads.client, hnever]

end Scene.Reads

namespace MapCursorM

variable {k : MapCursor ι} {w : Scene} {c : Chart} {spare : Nat}
  {post post' : α → MapCursor ι → Chart → Prop} {stop stop' : MapCursor ι → Chart → Prop}

theorem exec_get (k : MapCursor ι) (w : Scene) :
    exec (get : MapCursorM ι (MapCursor ι)) k w = ((.ok k, k), w) := rfl

theorem exec_ofCursor (act : CursorM ι α) (k : MapCursor ι) (w : Scene) :
    exec (ofCursor act) k w =
      (((act.exec k.cursor w.store).1.1, { k with cursor := (act.exec k.cursor w.store).1.2 }),
        ⟨w.client, (act.exec k.cursor w.store).2⟩) := rfl

/-- The move only reads pages.  It bears so many failed loads and gives a result with a property,
or it fails with the load that fails after these, and leaves the cursor with another property. -/
def Ventures (act : MapCursorM ι α) (k : MapCursor ι) (w : Scene) (c : Chart) (spare : Nat)
    (post : α → MapCursor ι → Chart → Prop) (stop : MapCursor ι → Chart → Prop) : Prop :=
  ∃ result k' w' c', exec act k w = ((result, k'), w') ∧ w.Reads c w' c' ∧
    match result with
    | .ok a => (∃ n, n ≤ spare ∧ w'.store.failures = w.store.failures + n) ∧ post a k' c'
    | .error e => e.IsLoadFailure ∧ e.isFatal = false ∧
        w'.store.failures = w.store.failures + spare + 1 ∧ stop k' c'

namespace Ventures

/-- A move of the cursor itself is made once. -/
theorem ofCursor {act : CursorM ι α} {P : α → Cursor ι → Chart → Prop}
    {S : Cursor ι → Chart → Prop} (hsteady : w.Steady)
    (hmoves : Moves act k.cursor w.store c P S) :
    Ventures (ofCursor act) k w c 0 (fun a k' c' => P a k'.cursor c')
      (fun k' c' => S k'.cursor c') := by
  rcases hmoves.tallied with
    ⟨a, cursor, s, c', hexec, hgrows, hsame, hpost⟩ |
      ⟨e, cursor, s, c', hexec, hgrows, hfail, hlacks, hstop⟩
  · exact ⟨.ok a, { k with cursor }, ⟨w.client, s⟩, c', by rw [exec_ofCursor, hexec],
      ⟨hgrows, rfl⟩, ⟨0, Nat.le_refl 0, hsame⟩, hpost⟩
  · exact ⟨.error e, { k with cursor }, ⟨w.client, s⟩, c', by rw [exec_ofCursor, hexec],
      ⟨hgrows, rfl⟩, hfail, hlacks.isFatal_eq hfail hsteady.isOpen, hlacks.counted hsteady.isOpen,
      hstop⟩

theorem mono {act : MapCursorM ι α} (hact : Ventures act k w c spare post stop)
    (hpost : ∀ a k' c', post a k' c' → post' a k' c')
    (hstop : ∀ k' c', stop k' c' → stop' k' c') : Ventures act k w c spare post' stop' := by
  obtain ⟨result, k', w', c', hexec, hreads, hresult⟩ := hact
  refine ⟨result, k', w', c', hexec, hreads, ?_⟩
  cases result with
  | ok a => exact ⟨hresult.1, hpost a k' c' hresult.2⟩
  | error e => exact ⟨hresult.1, hresult.2.1, hresult.2.2.1, hstop k' c' hresult.2.2.2⟩

/-- Two moves of one attempt. -/
protected theorem bind {act : MapCursorM ι α} {f : α → MapCursorM ι β}
    {Q : β → MapCursor ι → Chart → Prop} (hact : Ventures act k w c 0 post stop)
    (hf : ∀ a k' w' c', w.Reads c w' c' → post a k' c' → Ventures (f a) k' w' c' 0 Q stop) :
    Ventures (act >>= f) k w c 0 Q stop := by
  obtain ⟨result, k', w', c', hexec, hreads, hresult⟩ := hact
  cases result with
  | ok a =>
      obtain ⟨⟨n, hn, hfailures⟩, hpost⟩ := hresult
      obtain rfl := Nat.le_zero.1 hn
      obtain ⟨result, k'', w'', c'', hexec', hreads', hresult'⟩ := hf a k' w' c' hreads hpost
      -- the first move has met no failure, so what the second one counts is the count of both
      rw [hfailures] at hresult'
      exact ⟨result, k'', w'', c'', by rw [exec_bind, hexec]; exact hexec', hreads.trans hreads',
        hresult'⟩
  | error e => exact ⟨.error e, k', w', c', by rw [exec_bind, hexec], hreads, hresult⟩

/-- What is made of a result without another move. -/
theorem giving {act : MapCursorM ι α} {f : α → MapCursorM ι β} {g : α → MapCursor ι → β}
    (hact : Ventures act k w c spare post stop)
    (hf : ∀ a k w, exec (f a) k w = ((.ok (g a k), k), w)) :
    Ventures (act >>= f) k w c spare (fun b k' c' => ∃ a, b = g a k' ∧ post a k' c') stop := by
  obtain ⟨result, k', w', c', hexec, hreads, hresult⟩ := hact
  cases result with
  | ok a =>
      exact ⟨.ok (g a k'), k', w', c', by rw [exec_bind, hexec]; exact hf a k' w', hreads,
        hresult.1, a, rfl, hresult.2⟩
  | error e => exact ⟨.error e, k', w', c', by rw [exec_bind, hexec], hreads, hresult⟩

end Ventures
end MapCursorM

/-! ## Retries -/

/-- The cursor stands at an index into a list, and the index has a property. -/
def MapCursor.Rests (k : MapCursor ι) (c : Chart) (itemsOf : PageBody Unit → List ι)
    (items : List ι) (P : Nat → Prop) : Prop :=
  ∃ r p, P p ∧ k.cursor.AtIndex c itemsOf r ⟨items, p⟩

namespace MapCursorM

variable {k : MapCursor ι} {w : Scene} {c : Chart} {itemsOf : PageBody Unit → List ι}
  {items : List ι} {P : Nat → Prop} {post : α → MapCursor ι → Chart → Prop}
  {move : MapCursorM ι α}

/-- A cursor that is opened again stands where it has stood before, and so does one that cannot
be opened again. -/
theorem reopenIfStale_ventures (hsteady : w.Steady) (hrep : Represents w.store c)
    (hitems : c.HasItems itemsOf w.client.trunk.tree.root items)
    (hk : k.Rests c itemsOf items P) :
    Ventures reopenIfStale k w c 0 (fun _ k' c' => k'.Rests c' itemsOf items P)
      (fun k' c' => k'.Rests c' itemsOf items P) := by
  obtain ⟨r, p, hp, hat⟩ := hk
  have hexec := exec_reopenIfStale k w
  by_cases hstale : k.isStale = true
  · rw [if_pos hstale] at hexec
    rcases (Cursor.reopened_runs hrep hat.between.follows hitems).tallied with
      ⟨cursor, s, c', hopened, hgrows, hsame, hbetween⟩ |
        ⟨e, s, c', hrefused, hgrows, hfail, hlacks⟩
    · rw [hopened] at hexec
      rw [hat.position_eq] at hbetween
      exact ⟨.ok (), _, _, c', hexec, ⟨hgrows, rfl⟩, ⟨0, Nat.le_refl 0, hsame⟩,
        w.client.trunk.tree.root, p, hp, hat.position_le, hbetween⟩
    · rw [hrefused] at hexec
      exact ⟨.error e, _, _, c', hexec, ⟨hgrows, rfl⟩, hfail,
        hlacks.isFatal_eq hfail hsteady.isOpen, hlacks.counted hsteady.isOpen, r, p, hp,
        hat.mono hgrows.le⟩
  · rw [if_neg hstale] at hexec
    exact ⟨.ok (), k, w, c, hexec, .refl hrep, ⟨0, Nat.le_refl 0, rfl⟩, r, p, hp, hat⟩

/-- A client that keeps its tree does nothing about a failure. -/
theorem exec_pass_keeping {e : StoreError} (hminor : e.isFatal = false) (hsteady : w.Steady)
    (left : Nat) : ClientM.exec (ClientM.pass e left) w = (.ok (), w) := by
  obtain ⟨w', hexec, hgivesUp⟩ := ClientM.exec_giveUp w
  rw [Scene.GivesUp, hsteady.never, if_neg Bool.false_ne_true] at hgivesUp
  rw [ClientM.exec_pass, hminor, if_neg Bool.false_ne_true, hexec, hgivesUp, ite_self]

theorem exec_retryWithin (move : MapCursorM ι α) (left : Nat) (k : MapCursor ι) (w : Scene) :
    exec (retryWithin move (left + 1)) k w =
      match exec (attempt move) k w with
      | ((.ok a, k'), w') => ((.ok a, k'), w')
      | ((.error e, k'), w') =>
        match ClientM.exec (ClientM.pass e left) w' with
        | (.ok (), w'') => exec (retryWithin move left) { k' with isStale := true } w''
        | (.error e', w'') => ((.error e', k'), w'') := by
  rw [retryWithin, exec_bind]
  -- an attempt is made so that its failure can be looked at
  have hmade : exec (attempting (attempt move)) k w =
      ((.ok (exec (attempt move) k w).1.1, (exec (attempt move) k w).1.2),
        (exec (attempt move) k w).2) := rfl
  rw [hmade]
  generalize exec (attempt move) k w = made
  obtain ⟨⟨e | a, k'⟩, w'⟩ := made
  · show exec (ofClient (ClientM.pass e left) >>= _) k' w' = _
    rw [exec_bind, exec_ofClient]
    dsimp only
    generalize ClientM.exec (ClientM.pass e left) w' = passed
    obtain ⟨_ | _, _⟩ := passed <;> rfl
  · rfl

/-- A move is made again until it succeeds or fails once too often. -/
theorem retryWithin_ventures (hsteady : w.Steady) (hrep : Represents w.store c)
    (hitems : c.HasItems itemsOf w.client.trunk.tree.root items)
    (hk : k.Rests c itemsOf items P)
    (hmove : ∀ k' w' c', w.Reads c w' c' → k'.Rests c' itemsOf items P →
      Ventures move k' w' c' 0 post (fun k' c' => k'.Rests c' itemsOf items P)) (left : Nat) :
    Ventures (retryWithin move left) k w c left post
      (fun k' c' => k'.Rests c' itemsOf items P) := by
  -- By induction on the retries that are left; the cursor rests before each attempt.
  induction left generalizing k w c with
  | zero =>
      exact (reopenIfStale_ventures hsteady hrep hitems hk).bind
        fun _ k' w' c' hreads hk' => hmove k' w' c' hreads hk'
  | succ left ih =>
      have hattempt : Ventures (attempt move) k w c 0 post
          (fun k' c' => k'.Rests c' itemsOf items P) :=
        (reopenIfStale_ventures hsteady hrep hitems hk).bind
          fun _ k' w' c' hreads hk' => hmove k' w' c' hreads hk'
      obtain ⟨result, k', w', c', hexec, hreads, hresult⟩ := hattempt
      have hretry := exec_retryWithin move left k w
      rw [hexec] at hretry
      cases result with
      | ok a =>
          obtain ⟨⟨n, hn, hfailures⟩, hpost⟩ := hresult
          exact ⟨.ok a, k', w', c', hretry, hreads, ⟨n, by omega, hfailures⟩, hpost⟩
      | error e =>
          obtain ⟨hfail, hminor, hfailures, hrests⟩ := hresult
          simp only [exec_pass_keeping hminor (hreads.steady hsteady)] at hretry
          -- whether the cursor is stale makes no difference to where it rests
          have hrests' : MapCursor.Rests { k' with isStale := true } c' itemsOf items P := hrests
          obtain ⟨r, p, -, hat⟩ := hrests
          have hitems' : c'.HasItems itemsOf w'.client.trunk.tree.root items := by
            rw [hreads.client]
            exact hitems.mono hat.between.follows hreads.grows.le
          have hagain : Ventures (retryWithin move left) { k' with isStale := true } w' c' left post
              (fun k' c' => k'.Rests c' itemsOf items P) :=
            ih (hreads.steady hsteady) hreads.grows.represents hitems' hrests'
              fun k₁ w₁ c₁ hreads₁ => hmove k₁ w₁ c₁ (hreads.trans hreads₁)
          obtain ⟨result, k'', w'', c'', hexec', hreads', hresult'⟩ := hagain
          refine ⟨result, k'', w'', c'', hretry.trans hexec', hreads.trans hreads', ?_⟩
          cases result with
          | ok a =>
              obtain ⟨⟨n, hn, hfailures'⟩, hpost⟩ := hresult'
              exact ⟨⟨n + 1, by omega, by omega⟩, hpost⟩
          | error e' =>
              obtain ⟨hfail', hminor', hfailures', hrests''⟩ := hresult'
              exact ⟨hfail', hminor', by omega, hrests''⟩

/-- A move bears as many failures as there are retries. -/
theorem retrying_ventures (hsteady : w.Steady) (hrep : Represents w.store c)
    (hitems : c.HasItems itemsOf w.client.trunk.tree.root items)
    (hk : k.Rests c itemsOf items P)
    (hmove : ∀ k' w' c', w.Reads c w' c' → k'.Rests c' itemsOf items P →
      Ventures move k' w' c' 0 post (fun k' c' => k'.Rests c' itemsOf items P)) :
    Ventures (retrying move) k w c w.maxRetries post
      (fun k' c' => k'.Rests c' itemsOf items P) := by
  have hexec : exec (retrying move) k w = exec (retryWithin move w.maxRetries) k w := rfl
  rw [Ventures, hexec]
  exact retryWithin_ventures hsteady hrep hitems hk hmove w.maxRetries

end MapCursorM

/-! ## Calls -/

namespace MapMove

/-- Makes the move. -/
def answer : MapMove → MapCursorM ι (CursorAnswer ι)
  | advance d => return .item (← MapCursorM.advance d)
  | head => return .item (← MapCursorM.head)
  | hasNext => return .flag (← MapCursorM.hasNext)
  | hasPrevious => return .flag (← MapCursorM.hasPrevious)
  | skip count => return .count (← MapCursorM.skip count)

/-- The call of a cursor that the move stands for. -/
def call : MapMove → CursorCall
  | advance .forward => .next
  | advance .backward => .previous
  | head => .head
  | hasNext => .hasNext
  | hasPrevious => .hasPrevious
  | skip count => .skip count

/-- How far a move that fails may have come. -/
def reach : MapMove → Nat
  | skip count => count
  | _ => 0

variable {k : MapCursor ι} {w : Scene} {c : Chart} {itemsOf : PageBody Unit → List ι}
  {x x' : CursorIndex ι}

open MapCursorM (Ventures)

/-- Where a move starts is on its way. -/
theorem rests_onWay (move : MapMove) (hk : k.Rests c itemsOf x.items (· = x.position)) :
    k.Rests c itemsOf x.items fun p =>
      x.position ≤ p ∧ p ≤ min (x.position + move.reach) x.items.length := by
  obtain ⟨r, _, rfl, hat⟩ := hk
  have hle : x.position ≤ x.items.length := hat.position_le
  exact ⟨r, x.position, by omega, hat⟩

/-- A move that a failure leaves where it was stays there when it fails once too often. -/
theorem retrying_ventures {act : CursorM ι α} {a : α} (move : MapMove)
    (answer : α → CursorAnswer ι) (hsteady : w.Steady) (hrep : Represents w.store c)
    (hitems : c.HasItems itemsOf w.client.trunk.tree.root x.items)
    (hk : k.Rests c itemsOf x.items (· = x.position)) (hsame : x'.items = x.items)
    (hmoves : ∀ {k s c r}, Represents s c → k.AtIndex c itemsOf r x →
      Moves act k s c (fun a' k' c' => a' = a ∧ k'.AtIndex c' itemsOf r x')
        (fun k' c' => k'.AtIndex c' itemsOf r x)) :
    Ventures (do return answer (← MapCursorM.retrying (MapCursorM.ofCursor act))) k w c w.maxRetries
      (fun b k' c' => b = answer a ∧ k'.Rests c' itemsOf x.items (· = x'.position))
      (fun k' c' => k'.Rests c' itemsOf x.items fun p =>
        x.position ≤ p ∧ p ≤ min (x.position + move.reach) x.items.length) := by
  have hattempt : ∀ k' w' c', w.Reads c w' c' → k'.Rests c' itemsOf x.items (· = x.position) →
      Ventures (MapCursorM.ofCursor act) k' w' c' 0
        (fun a' k' c' => a' = a ∧ k'.Rests c' itemsOf x.items (· = x'.position))
        (fun k' c' => k'.Rests c' itemsOf x.items (· = x.position)) := by
    rintro k' w' c' hreads ⟨r, _, rfl, hat⟩
    refine (Ventures.ofCursor (hreads.steady hsteady)
      (hmoves hreads.grows.represents hat)).mono ?_ fun _ _ hat' => ⟨r, _, rfl, hat'⟩
    rintro a' k'' c'' ⟨ha, hat'⟩
    obtain ⟨items, p⟩ := x'
    obtain rfl : items = x.items := hsame
    exact ⟨ha, r, p, rfl, hat'⟩
  refine ((MapCursorM.retrying_ventures hsteady hrep hitems hk hattempt).giving
    fun _ _ _ => rfl).mono ?_ fun _ _ => move.rests_onWay
  rintro _ k' c' ⟨_, rfl, rfl, hk'⟩
  exact ⟨rfl, hk'⟩

/-- An attempt to skip to a position. -/
def skippingTo (target : Nat) : MapCursorM ι Nat := do
  let position := (← get).cursor.position
  MapCursorM.ofCursor (CursorM.skip (target - position))

theorem exec_skippingTo (target : Nat) (k : MapCursor ι) (w : Scene) :
    MapCursorM.exec (skippingTo target) k w =
      MapCursorM.exec (MapCursorM.ofCursor (CursorM.skip (target - k.cursor.position))) k w := by
  rw [skippingTo, MapCursorM.exec_bind, MapCursorM.exec_get]

/-- An attempt to skip leads to its target, or it fails on its way there. -/
theorem skippingTo_ventures {items : List ι} {start target : Nat} (hsteady : w.Steady)
    (hrep : Represents w.store c)
    (hk : k.Rests c itemsOf items fun p => start ≤ p ∧ p ≤ min target items.length) :
    Ventures (skippingTo target) k w c 0
      (fun _ k' c' => k'.Rests c' itemsOf items (· = min target items.length))
      (fun k' c' => k'.Rests c' itemsOf items fun p => start ≤ p ∧ p ≤ min target items.length) := by
  obtain ⟨r, p, ⟨hfrom, hto⟩, hat⟩ := hk
  have hmoves := hat.skip_moves hrep (target - k.cursor.position)
  rw [Ventures, exec_skippingTo]
  refine (Ventures.ofCursor hsteady hmoves).mono ?_ ?_
  · rintro _ k' c' ⟨rfl, hat'⟩
    refine ⟨r, _, ?_, hat'⟩
    dsimp only
    rw [hat.position_eq]
    dsimp only
    omega
  · rintro k' c' ⟨n, hn, hat'⟩
    refine ⟨r, _, ?_, hat'⟩
    rw [hat.position_eq] at hn
    dsimp only at hn ⊢
    omega

theorem exec_skip (count : Nat) (k : MapCursor ι) (w : Scene) :
    MapCursorM.exec (MapCursorM.skip count) k w =
      MapCursorM.exec (MapCursorM.retrying (skippingTo (k.cursor.position + count)) >>= fun _ => do
        return (← get).cursor.position - k.cursor.position) k w := by
  rw [MapCursorM.skip, MapCursorM.exec_bind, MapCursorM.exec_get]
  dsimp only [skippingTo]

/-- A skip that fails on its way goes on to the same target when it is made again. -/
theorem skip_ventures (count : Nat) (hsteady : w.Steady) (hrep : Represents w.store c)
    (hitems : c.HasItems itemsOf w.client.trunk.tree.root x.items)
    (hk : k.Rests c itemsOf x.items (· = x.position)) :
    Ventures (MapCursorM.skip count) k w c w.maxRetries
      (fun n k' c' => n = min count (x.items.length - x.position) ∧
        k'.Rests c' itemsOf x.items (· = x.position + min count (x.items.length - x.position)))
      (fun k' c' => k'.Rests c' itemsOf x.items fun p =>
        x.position ≤ p ∧ p ≤ min (x.position + count) x.items.length) := by
  obtain ⟨r, _, rfl, hat⟩ := hk
  have hle : x.position ≤ x.items.length := hat.position_le
  have hposition : k.cursor.position = x.position := hat.position_eq
  have hskips := MapCursorM.retrying_ventures hsteady hrep hitems
    (⟨r, x.position, by omega, hat⟩ : k.Rests c itemsOf x.items fun p =>
      x.position ≤ p ∧ p ≤ min (x.position + count) x.items.length)
    fun _ _ _ hreads hrests =>
      skippingTo_ventures (hreads.steady hsteady) hreads.grows.represents hrests
  rw [Ventures, exec_skip, hposition]
  refine (hskips.giving fun _ _ _ => rfl).mono ?_ fun _ _ hrests => hrests
  rintro _ k' c' ⟨n, rfl, r', _, rfl, hat'⟩
  have hposition' := hat'.position_eq
  dsimp only at hposition'
  refine ⟨by omega, r', _, ?_, hat'⟩
  dsimp only
  omega

/-- A call gives what it gives of the index, or it fails where it has come to on its way. -/
theorem answer_ventures (move : MapMove) (lists : PageRef → List ι) (hsteady : w.Steady)
    (hrep : Represents w.store c) (hitems : c.HasItems itemsOf w.client.trunk.tree.root x.items)
    (hk : k.Rests c itemsOf x.items (· = x.position)) :
    Ventures move.answer k w c w.maxRetries
      (fun a k' c' => a = (x.call lists move.call).1 ∧
        k'.Rests c' itemsOf x.items (· = (x.call lists move.call).2.position))
      (fun k' c' => k'.Rests c' itemsOf x.items fun p =>
        x.position ≤ p ∧ p ≤ min (x.position + move.reach) x.items.length) := by
  -- all moves but a skip are moves of the cursor itself, made again until one succeeds
  cases move with
  | advance d =>
      cases d with
      | forward =>
          exact retrying_ventures _ .item hsteady hrep hitems hk x.items_succ
            fun hrep hat => hat.next_moves hrep
      | backward =>
          exact retrying_ventures _ .item hsteady hrep hitems hk rfl
            fun hrep hat => hat.previous_moves hrep
  | head =>
      exact retrying_ventures _ .item hsteady hrep hitems hk rfl
        fun hrep hat => hat.head_moves hrep
  | hasNext =>
      exact retrying_ventures _ .flag hsteady hrep hitems hk rfl
        fun hrep hat => hat.hasNext_moves hrep
  | hasPrevious =>
      exact retrying_ventures _ .flag hsteady hrep hitems hk rfl
        fun hrep hat => hat.hasPrevious_moves hrep
  | skip count =>
      refine ((skip_ventures count hsteady hrep hitems hk).giving fun _ _ _ => rfl).mono ?_
        fun _ _ hrests => hrests
      rintro _ k' c' ⟨_, rfl, rfl, hk'⟩
      exact ⟨rfl, hk'⟩

end MapMove

/-! ## Scans -/

/-- A call of a cursor as it went. -/
structure MapCall (ι : Type) where
  move : MapMove
  /-- What the call has given. -/
  outcome : Except StoreError (CursorAnswer ι)
  /-- The index of the next entry after the call. -/
  nextIndex : Nat
  /-- So many loads have failed during the call. -/
  failures : Nat

namespace MapCall

/-- What is seen of a call: what it has given, and the index of the next entry. -/
def shown (call : MapCall ι) : Except StoreError (CursorAnswer ι) × Nat :=
  (call.outcome, call.nextIndex)

/-- The call is as an index into a list has it.  If it has met no more failures than there are
retries, it gives what it gives of the index and leads to the index after that.  Otherwise it has
met one failure more and gives the error of that, and it leads as far as it has come. -/
def Suits (retries : Nat) (x : CursorIndex ι) (call : MapCall ι) : Prop :=
  if call.failures ≤ retries then
    call.outcome = .ok (x.call (fun _ => x.items) call.move.call).1 ∧
      call.nextIndex = (x.call (fun _ => x.items) call.move.call).2.position
  else
    call.failures = retries + 1 ∧
      (∃ e, call.outcome = .error e ∧ e.IsLoadFailure ∧ e.isFatal = false) ∧
      x.position ≤ call.nextIndex ∧
      call.nextIndex ≤ min (x.position + call.move.reach) x.items.length

end MapCall

/-- Each call is as an index has it, and the next one is as the index has it that it leads to. -/
def CursorIndex.Guides (retries : Nat) : CursorIndex ι → List (MapCall ι) → Prop
  | _, [] => True
  | x, call :: log => call.Suits retries x ∧ Guides retries ⟨x.items, call.nextIndex⟩ log

/-- A move leads to no other list. -/
theorem MapMove.items_call (x : CursorIndex ι) (lists : PageRef → List ι) (move : MapMove) :
    (x.call lists move.call).2.items = x.items := by
  cases move with
  | advance d =>
      cases d with
      | forward => exact x.items_succ
      | backward => rfl
  | head | hasNext | hasPrevious | skip => rfl

/-- Calls that meet no more failures than there are retries give what they give of the index. -/
theorem CursorIndex.Guides.shown_eq {retries : Nat} {x : CursorIndex ι} {log : List (MapCall ι)}
    (hguides : x.Guides retries log) (hfew : ∀ call ∈ log, call.failures ≤ retries) :
    log.map MapCall.shown =
      (x.play (fun _ => x.items) (log.map fun call => call.move.call)).map
        fun (answer, index) => (.ok answer, index) := by
  induction log generalizing x with
  | nil => rfl
  | cons call log ih =>
      obtain ⟨hsuits, hrest⟩ := hguides
      rw [MapCall.Suits, if_pos (hfew call List.mem_cons_self)] at hsuits
      obtain ⟨houtcome, hindex⟩ := hsuits
      have hnext : (x.call (fun _ => x.items) call.move.call).2 = ⟨x.items, call.nextIndex⟩ := by
        have hitems := call.move.items_call x fun _ => x.items
        rw [hindex]
        generalize (x.call (fun _ => x.items) call.move.call).2 = x' at hitems
        rw [← hitems]
      rw [List.map_cons, List.map_cons, play, List.map_cons, hnext,
        ih hrest fun call' hcall' => hfew call' (List.mem_cons_of_mem call hcall'), MapCall.shown,
        houtcome]

/-- A client that goes over its map with a cursor, and its store. -/
structure MapScan (ι : Type) where
  scene : Scene
  cursor : MapCursor ι

namespace MapScan

/-- Something has become of the store. -/
def withStore (x : MapScan ι) (s : Store) : MapScan ι :=
  { x with scene := { x.scene with store := s } }

/-- Makes a move. -/
def make (x : MapScan ι) (move : MapMove) : Except StoreError (CursorAnswer ι) × MapScan ι :=
  let (((outcome, cursor), client), store) :=
    ((x.cursor.run move.answer).run x.scene.client).run x.scene.store
  (outcome, ⟨⟨client, store⟩, cursor⟩)

/-- How a move goes. -/
def call (x : MapScan ι) (move : MapMove) : MapCall ι where
  move := move
  outcome := (x.make move).1
  nextIndex := (x.make move).2.cursor.cursor.nextIndex
  failures := (x.make move).2.scene.store.failures - x.scene.store.failures

/-- A client comes to the tree of a system, where no one else is at work any more, and opens a
cursor before the first entry or past the last one.  Its trunk has the tree with any version, also
one that pages of the tree are newer than. -/
structure Begins (y : System) (policy : Policy ι) (x : MapScan ι) : Prop where
  store : x.scene.store = y.store
  tree : x.scene.client.trunk.tree = y.trunk.tree
  others : x.scene.client.others = []
  cursor : x.cursor = .start x.scene.client policy ∨
    x.cursor = (MapCursor.start x.scene.client policy).toEnd

/-- The calls that are made of a cursor, one after another.  In between, the store is tended to
and not closed, and it is settled which of the next loads will fail. -/
inductive Logs : MapScan ι → List (MapCall ι) → Prop where
  | nil (x : MapScan ι) : Logs x []
  | tend {x : MapScan ι} {s : Store} {log : List (MapCall ι)}
      (tending : x.scene.client.trunk.Tending x.scene.store s)
      (isOpen : s.zones.isClosed = false) (rest : Logs (x.withStore s) log) : Logs x log
  | foresee {x : MapScan ι} {log : List (MapCall ι)} (upcoming : List Bool)
      (rest : Logs (x.withStore
        { x.scene.store with faults := { x.scene.store.faults with upcoming } }) log) : Logs x log
  | call {x : MapScan ι} {log : List (MapCall ι)} (move : MapMove)
      (rest : Logs (x.make move).2 log) : Logs x (x.call move :: log)

/-! ## What calls keep -/

/-- The cursor is at an index into the entries of a tree that the client never gives up. -/
structure Sound (itemsOf : PageBody Unit → List ι) (items : List ι) (retries position : Nat)
    (x : MapScan ι) (c : Chart) : Prop where
  represents : Represents x.scene.store c
  zones : x.scene.store.zones.Sound
  steady : x.scene.Steady
  retries_eq : x.scene.maxRetries = retries
  others : x.scene.client.others = []
  fit : ∃ kind stem version, c.Fit kind stem version x.scene.client.trunk.tree.root
  lists : c.HasItems itemsOf x.scene.client.trunk.tree.root items
  cursor : x.cursor.Rests c itemsOf items (· = position)

section

variable {itemsOf : PageBody Unit → List ι} {items : List ι} {retries position : Nat}
  {x : MapScan ι} {c c' : Chart} {s : Store}

/-- Whatever becomes of a store that stays open, the cursor stays at its index. -/
theorem Sound.tended (hx : x.Sound itemsOf items retries position c)
    (htended : x.scene.store.Tended c s c') (hopen : s.zones.isClosed = false) :
    (x.withStore s).Sound itemsOf items retries position c' := by
  obtain ⟨r, p, hp, hat⟩ := hx.cursor
  obtain ⟨kind, stem, version, hfit⟩ := hx.fit
  exact {
    represents := htended.represents
    zones := htended.zones
    steady :=
      { isOpen := hopen
        never := by
          have hnever := hx.steady.never
          rw [Scene.mayReset] at hnever ⊢
          rw [← hnever]
          show s.settings.failurePolicy.allowsReset _ = _
          rw [htended.settings]
          rfl }
    retries_eq := by
      rw [← hx.retries_eq]
      show s.settings.maxRetries = _
      rw [htended.settings]
      rfl
    others := hx.others
    fit := ⟨kind, stem, version, hfit.mono htended.le⟩
    lists := hx.lists.mono hat.between.follows htended.le
    cursor := ⟨r, p, hp, hat.mono htended.le⟩ }

/-- A call is as the index has it, and the cursor is then at the index that it leads to. -/
theorem Sound.call (hx : x.Sound itemsOf items retries position c) (move : MapMove) :
    (x.call move).Suits retries ⟨items, position⟩ ∧
      ∃ c', (x.make move).2.Sound itemsOf items retries (x.call move).nextIndex c' := by
  obtain ⟨result, k, w, c', hexec, hreads, hresult⟩ :=
    move.answer_ventures (x := ⟨items, position⟩) (fun _ => items) hx.steady hx.represents
      hx.lists hx.cursor
  -- there is no other client whose turn it could be
  have hmake : x.make move = (result, ⟨w, k⟩) := by
    have hothers : (move.answer.exec x.cursor x.scene).2.client.others = [] := by
      rw [hexec, hreads.client, hx.others]
    rw [make, MapCursor.run_alone hx.others hothers, hexec]
  have hcall : x.call move =
      ⟨move, result, k.cursor.nextIndex, w.store.failures - x.scene.store.failures⟩ := by
    rw [MapScan.call, hmake]
  have hsound : k.Rests c' itemsOf items (· = k.cursor.nextIndex) →
      Sound itemsOf items retries k.cursor.nextIndex ⟨w, k⟩ c' := by
    intro hrests
    obtain ⟨r, p, -, hat⟩ := hx.cursor
    obtain ⟨kind, stem, version, hfit⟩ := hx.fit
    exact {
      represents := hreads.grows.represents
      zones := by
        rw [hreads.grows.zones]
        exact hx.zones
      steady := hreads.steady hx.steady
      retries_eq := hreads.maxRetries_eq.trans hx.retries_eq
      others := by rw [hreads.client, hx.others]
      fit := by
        rw [hreads.client]
        exact ⟨kind, stem, version, hfit.mono hreads.grows.le⟩
      lists := by
        rw [hreads.client]
        exact hx.lists.mono hat.between.follows hreads.grows.le
      cursor := hrests }
  rw [hcall, hmake]
  dsimp only [MapCall.Suits]
  cases result with
  | ok a =>
      obtain ⟨⟨n, hn, hfailures⟩, rfl, r, p, rfl, hat⟩ := hresult
      have hindex := hat.position_eq
      rw [hx.retries_eq] at hn
      rw [if_pos (by omega)]
      exact ⟨⟨rfl, hindex⟩, c', hsound ⟨r, _, hindex.symm, hat⟩⟩
  | error e =>
      obtain ⟨hfail, hminor, hfailures, r, p, ⟨hfrom, hto⟩, hat⟩ := hresult
      have hindex : k.cursor.nextIndex = p := hat.position_eq
      rw [hx.retries_eq] at hfailures
      rw [if_neg (by omega)]
      refine ⟨⟨by omega, ⟨e, rfl, hfail, hminor⟩, ?_⟩, c', hsound ⟨r, p, hindex.symm, hat⟩⟩
      rw [hindex]
      exact ⟨hfrom, hto⟩

/-- What holds of a cursor goes on to hold, so all its calls are as its index has them. -/
theorem Sound.guides (hx : x.Sound itemsOf items retries position c) {log : List (MapCall ι)}
    (hlogs : x.Logs log) : CursorIndex.Guides retries ⟨items, position⟩ log := by
  -- Only calls move the cursor; what is done to the store in between leaves it sound.
  induction hlogs generalizing position c with
  | nil => exact trivial
  | tend tending isOpen _ ih =>
      obtain ⟨kind, stem, version, hfit⟩ := hx.fit
      obtain ⟨c', htended⟩ := tending.tended hx.represents hx.zones hfit
      exact ih (hx.tended htended isOpen)
  | @foresee x _ upcoming _ ih =>
      have htended : x.scene.store.Tended c
          { x.scene.store with faults := { x.scene.store.faults with upcoming } } c :=
        .of_memory (hx.represents.of_cells_eq rfl rfl) hx.zones rfl rfl
      exact ih (hx.tended htended hx.steady.isOpen)
  | call move _ ih =>
      obtain ⟨hsuits, c', hx'⟩ := hx.call move
      exact ⟨hsuits, ih hx'⟩

end

end MapScan

/-! ## Entries of a map -/

/-- What a client's map holds, as it is read leaf by leaf. -/
structure Scene.Holds (read : PageRef → StoreM (List ι)) (w : Scene) (items : List ι) :
    Prop where
  size : w.client.trunk.tree.span = items.length
  /-- Whatever a read brings is right. -/
  right : ∀ found s, exec (read w.client.trunk.tree.root) w.store = (.ok found, s) →
    found = items
  /-- Where the pages of the tree are in memory, or the zones give them, all is read. -/
  read : ∀ c, Represents w.store c → c.refs w.client.trunk.tree.root → Serves w.store c →
    (exec (read w.client.trunk.tree.root) w.store).1 = .ok items

namespace MapScan

variable {policy : Policy ι} {kind : TreeKind} {read : PageRef → StoreM (List ι)}
  {allowed : Operation → Prop} {seed : Seed} {y : System} {past : List System} {x : MapScan ι}

/-- The tree of a system has a list of entries, and a cursor that is opened over it is at an index
into the list. -/
theorem Begins.sound (hplain : policy.Plain kind read)
    (hlives : System.Lives allowed seed y past) (hkind : y.trunk.tree.kind = kind)
    (hbegins : x.Begins y policy) (hsteady : x.scene.Steady) :
    ∃ itemsOf items c, x.scene.Holds read items ∧
      x.Sound itemsOf items x.scene.maxRetries x.cursor.cursor.nextIndex c := by
  obtain ⟨itemsOf, hall, hread⟩ := hplain.yieldsAll
  obtain ⟨origin, c, hy, -⟩ := hlives.coherent
  have hrep : Represents x.scene.store c := by
    rw [hbegins.store]
    exact hy.represents
  have hfit := hy.has.fit
  rw [← hbegins.tree] at hfit hkind
  obtain ⟨q, hq, htree, -⟩ := hfit.page
  have hroot : x.scene.client.trunk.tree.root.tree = kind :=
    (hrep.fits _ q hfit.refs hq).1.trans (htree.trans hkind)
  obtain ⟨items, hitems⟩ := hrep.hasItems hall hfit.refs hroot
  have hreads : ∀ {c' items'}, Represents x.scene.store c' →
      c'.HasItems itemsOf x.scene.client.trunk.tree.root items' →
      Runs (read x.scene.client.trunk.tree.root) x.scene.store c'
        fun found _ _ => found = items' := by
    intro c' items' hrep' hitems'
    rw [hread]
    exact (hitems'.leaves_runs hrep').bind fun _ _ _ hgrows hleaves =>
      Runs.pure hgrows.represents hleaves
  have hright : ∀ found s,
      exec (read x.scene.client.trunk.tree.root) x.scene.store = (.ok found, s) →
        found = items := by
    intro found s hexec
    obtain ⟨-, -, rfl⟩ := (hreads hrep hitems).of_ok hexec
    rfl
  have hstart : (Cursor.start x.scene.client.trunk.tree.root policy).AtIndex c itemsOf
      x.scene.client.trunk.tree.root ⟨items, 0⟩ :=
    ⟨Nat.zero_le _, Cursor.between_start hall.follows hitems⟩
  have hend : (Cursor.start x.scene.client.trunk.tree.root policy).toEnd.AtIndex c itemsOf
      x.scene.client.trunk.tree.root ⟨items, items.length⟩ := by
    refine ⟨Nat.le_refl _, ?_⟩
    rw [List.take_length, List.drop_length]
    exact hstart.between.toEnd hrep
  refine ⟨itemsOf, items, c, ⟨(hitems.length_eq hrep).symm, hright, ?_⟩, hrep, ?_, hsteady, rfl,
    hbegins.others, ⟨_, _, _, hfit⟩, hitems, ?_⟩
  · intro c' hrep' hr hserves
    -- what another chart makes of the leaves is what is read, and that is known already
    obtain ⟨items', hitems'⟩ := hrep'.hasItems hall hr hroot
    obtain ⟨found, s, -, hexec, -, -⟩ := (hreads hrep' hitems').succeeds hserves
    rw [hexec, hright found s hexec]
  · rw [hbegins.store]
    exact hy.zones
  · rcases hbegins.cursor with hcursor | hcursor
    · rw [hcursor]
      exact ⟨_, _, hstart.position_eq.symm, hstart⟩
    · rw [hcursor]
      exact ⟨_, _, hend.position_eq.symm, hend⟩

/-- A client comes to a map, whatever the map has been through before, and goes over it with a
cursor, from its first entry or back from its last one, and nobody changes the map and the client
never gives it up.  Whichever loads fail, the cursor is an index into the list of the entries: a
call that meets no more failures than there are retries gives what it gives of the index, and one
that meets more comes back with the error of the last, which is not fatal, at an index from which
the calls after it go on.  So calls that meet no more failures give what they give where no load
fails. -/
theorem calls_guided (hplain : policy.Plain kind read)
    (hlives : System.Lives allowed seed y past) (hkind : y.trunk.tree.kind = kind)
    (hbegins : x.Begins y policy) (hsteady : x.scene.Steady) :
    ∃ items, x.scene.Holds read items ∧ ∀ log, x.Logs log →
      CursorIndex.Guides x.scene.maxRetries ⟨items, x.cursor.cursor.nextIndex⟩ log ∧
      ((∀ call ∈ log, call.failures ≤ x.scene.maxRetries) →
        log.map MapCall.shown =
          (CursorIndex.play (fun _ => items) ⟨items, x.cursor.cursor.nextIndex⟩
            (log.map fun call => call.move.call)).map (fun (answer, index) => (.ok answer, index)) ∧
        ∀ log', x.Logs log' → (∀ call ∈ log', call.failures = 0) →
          log'.map MapCall.move = log.map MapCall.move →
            log'.map MapCall.shown = log.map MapCall.shown) := by
  obtain ⟨itemsOf, items, c, hholds, hx⟩ := hbegins.sound hplain hlives hkind hsteady
  refine ⟨items, hholds, fun log hlogs => ⟨hx.guides hlogs, fun hfew => ?_⟩⟩
  have hshown := (hx.guides hlogs).shown_eq hfew
  refine ⟨hshown, fun log' hlogs' hnone hmoves => ?_⟩
  have hshown' := (hx.guides hlogs').shown_eq fun call hcall => by
    rw [hnone call hcall]
    exact Nat.zero_le _
  have hcalls : (log'.map fun call => call.move.call) = log.map fun call => call.move.call := by
    have hsame := congrArg (List.map MapMove.call) hmoves
    rwa [List.map_map, List.map_map] at hsame
  rw [hshown', hshown, hcalls]

/-- A system with a B-tree without entries that is never given up. -/
def lasting : System :=
  { System.ordered with
    store := (exec (Tree.empty System.orderedSeed)
      (.create { Settings.forTrials with failurePolicy := .never } false ⟨0⟩)).2 }

theorem starts_lasting : System.Starts System.orderedSeed lasting where
  tree := ⟨_, false, ⟨0⟩, _, false, false, rfl, rfl⟩
  calls _ := rfl
  stage := rfl
  softeners := rfl
  readers := rfl
  log := rfl
  filed _ _ _ := id

/-- A cursor over two committed entries whose pages have been let go.  A call for which three
loads fail, when there are two retries, leaves the cursor where it has been, and the calls after it
go on from there; over the same map a scan meets two failures and gives both entries. -/
theorem calls_guided_two_entries :
    ∃ (y : System) (past : List System) (x : MapScan Entry),
      System.Lives (fun _ => True) System.orderedSeed y past ∧ x.Begins y .entries ∧
      x.scene.maxRetries = 2 ∧
      (∀ log, x.Logs log → CursorIndex.Guides x.scene.maxRetries
        ⟨[(.int 1, .int 10), (.int 2, .int 20)], x.cursor.cursor.nextIndex⟩ log) ∧
      (∃ log, x.Logs log ∧
        log.map (fun call => (call.outcome.toOption, call.nextIndex, call.failures)) =
          [(none, 0, 3), (some (.flag true), 0, 1), (some (.count 1), 1, 2),
            (some (.item (some (.int 2, .int 20))), 2, 0)]) ∧
      ∃ log, x.Logs log ∧ log.map MapCall.failures = [2, 0, 0] ∧
        log.map MapCall.shown =
          [(.ok (.item (some (.int 1, .int 10))), 1), (.ok (.item (some (.int 2, .int 20))), 2),
            (.ok (.item none), 2)] := by
  have hstart : System.Lives (fun _ => True) System.orderedSeed lasting [] :=
    .start starts_lasting
  have hput : ∀ key value : Int64,
      (Operation.put (.int key) (.int value)).Suits lasting.trunk.tree.kind :=
    fun _ _ => rfl
  -- the entries are put by two clients, and the tree is committed
  obtain ⟨y₁, past₁, hlives₁, hstore₁, htrunk₁, -, -, hstage₁, hcalls₁⟩ :=
    hstart.call (i := 0) trivial rfl (hput 1 10)
      (exec_eq_ok (by decide +kernel)) (by decide +kernel)
  obtain ⟨y₂, past₂, hlives₂, hstore₂, htrunk₂, -, -, hstage₂, -⟩ :=
    hlives₁.call (i := 1) trivial (hcalls₁ 1 (by decide)) (by rw [htrunk₁]; exact hput 2 20)
      (by rw [hstore₁, htrunk₁]; exact exec_eq_ok (by decide +kernel))
      (by rw [htrunk₁]; decide +kernel)
  rw [htrunk₁] at htrunk₂
  obtain ⟨y, past, hlives, hstore, htrunk, -⟩ :=
    hlives₂.commit (hstage₂.trans hstage₁)
      (show exec (y₂.trunk.commit .plain) y₂.store = (.ok _, _) by
        rw [hstore₂, htrunk₂]; exact exec_eq_ok (by decide +kernel)) (by decide +kernel)
  have hbegins : Begins y Policy.entries
      ⟨⟨⟨_, 0, [], false, [], none, 0⟩, _⟩, .start ⟨_, 0, [], false, [], none, 0⟩ Policy.entries⟩ :=
    ⟨hstore.symm, (congrArg Trunk.tree htrunk).symm, rfl, .inl rfl⟩
  obtain ⟨items, hholds, hguides⟩ := calls_guided .entries hlives
    (by rw [htrunk]; decide +kernel) hbegins ⟨by decide +kernel, by decide +kernel⟩
  obtain rfl : items = [(.int 1, .int 10), (.int 2, .int 20)] :=
    (hholds.right _ _ (exec_eq_ok (by decide +kernel))).symm.trans (by decide +kernel)
  -- in both scans the pages are let go of before the first call, so that it has to load them
  refine ⟨y, past, _, hlives, hbegins, ?_, fun log hlogs => (hguides log hlogs).1, ?_, ?_⟩
  · decide +kernel
  · exact ⟨_, .tend .soften (by decide +kernel) <|
      .tend (.reclaim ⟨[], []⟩) (by decide +kernel) <|
      .foresee [true, true, true] <| .call (.advance .forward) <|
      .foresee [true] <| .call .hasNext <|
      .tend .soften (by decide +kernel) <| .tend (.reclaim ⟨[], []⟩) (by decide +kernel) <|
      .foresee [true, true] <| .call (.skip 1) <|
      .call (.advance .forward) <| .nil _, by decide +kernel⟩
  · exact ⟨_, .tend .soften (by decide +kernel) <|
      .tend (.reclaim ⟨[], []⟩) (by decide +kernel) <|
      .foresee [true, true] <| .call (.advance .forward) <| .call (.advance .forward) <|
      .call (.advance .forward) <| .nil _, by decide +kernel, by decide +kernel⟩

end MapScan

end PageTree
