import Mathlib.Data.List.Forall2
import PageTree.Proofs.Memory
import PageTree.Ref.Load

/-!
# What operations on trees do to a store

Operations that read and rebuild trees leave the zones and the settings of a store alone.  In
memory they only add: new references, and pages loaded for references that had none
(`Grows`).  `Runs m s c post` says that `m` makes such a change and either gives a result with
the property `post`, or fails because some page cannot be had; if the store serves every page
(`Serves`), it does not fail.  The rules below build such judgments along the steps of an
operation.
-/

namespace PageTree

variable {α β : Type}

/-! ## Running an operation -/

namespace StoreM

/-- The outcome of an operation and the store that it leaves. -/
def exec (m : StoreM α) (s : Store) : Except StoreError α × Store :=
  m.run.run s

@[simp] theorem exec_pure (a : α) (s : Store) : exec (pure a : StoreM α) s = (.ok a, s) := rfl

theorem exec_bind (m : StoreM α) (f : α → StoreM β) (s : Store) :
    exec (m >>= f) s =
      match exec m s with
      | (.ok a, s') => exec (f a) s'
      | (.error e, s') => (.error e, s') := by
  simp only [exec, ExceptT.run_bind, StateT.run_bind]
  generalize (m.run.run s : Id _) = outcome
  obtain ⟨_ | _, s'⟩ := outcome <;> rfl

/-- A failure lies in the first part of an operation or in the rest. -/
theorem exec_bind_eq_error {m : StoreM α} {f : α → StoreM β} {s s' : Store} {e : StoreError}
    (hfailed : exec (m >>= f) s = (.error e, s')) :
    exec m s = (.error e, s') ∨
      ∃ a s₁, exec m s = (.ok a, s₁) ∧ exec (f a) s₁ = (.error e, s') := by
  rw [exec_bind] at hfailed
  split at hfailed
  · next a s₁ hexec => exact Or.inr ⟨a, s₁, hexec, hfailed⟩
  · next hexec =>
      cases hfailed
      exact Or.inl hexec

@[simp] theorem exec_throw (e : StoreError) (s : Store) :
    exec (throw e : StoreM α) s = (.error e, s) := rfl

@[simp] theorem exec_get (s : Store) : exec (get : StoreM Store) s = (.ok s, s) := rfl

@[simp] theorem exec_modify (f : Store → Store) (s : Store) :
    exec (modify f : StoreM Unit) s = (.ok (), f s) := rfl

@[simp] theorem exec_modifyGet (f : Store → α × Store) (s : Store) :
    exec (modifyGet f : StoreM α) s = (.ok (f s).1, (f s).2) := rfl

@[simp] theorem exec_set (s' s : Store) : exec (set s' : StoreM Unit) s = (.ok (), s') := rfl

/-- The outcome of an operation that has a result. -/
theorem exec_eq_ok {m : StoreM α} {s : Store} (hok : (exec m s).1.toOption.isSome) :
    exec m s = (.ok ((exec m s).1.toOption.get hok), (exec m s).2) := by
  generalize exec m s = outcome at hok
  obtain ⟨_ | a, s'⟩ := outcome
  · cases hok
  · rfl

/-- The outcome of an operation whose result is a pair. -/
theorem exec_eq_ok_pair {m : StoreM (α × β)} {s : Store} (hok : (exec m s).1.toOption.isSome) :
    exec m s = (.ok (((exec m s).1.toOption.get hok).1, ((exec m s).1.toOption.get hok).2),
      (exec m s).2) :=
  exec_eq_ok hok

/-- The outcome of an operation that has something to give. -/
theorem exec_eq_ok_some {m : StoreM (Option α)} {s : Store}
    (hsome : (exec m s).1.toOption.join.isSome) :
    exec m s = (.ok (some ((exec m s).1.toOption.join.get hsome)), (exec m s).2) := by
  generalize exec m s = outcome at hsome
  obtain ⟨_ | _ | a, s'⟩ := outcome
  · cases hsome
  · cases hsome
  · rfl

/-- The result of an operation that has one, and the store that it leaves. -/
def exec? (m : StoreM α) (s : Store) : Option (α × Store) :=
  match exec m s with
  | (.ok a, s') => some (a, s')
  | (.error _, _) => none

theorem exec?_eq_some {m : StoreM α} {s s' : Store} {a : α} :
    exec? m s = some (a, s') ↔ exec m s = (.ok a, s') := by
  unfold exec?
  generalize exec m s = outcome
  obtain ⟨_ | _, _⟩ := outcome <;> simp

theorem exec_tryCatch (m : StoreM α) (f : StoreError → StoreM α) (s : Store) :
    exec (tryCatch m f) s =
      match exec m s with
      | (.ok a, s') => (.ok a, s')
      | (.error e, s') => exec (f e) s' := by
  simp only [exec, tryCatch, tryCatchThe, MonadExceptOf.tryCatch, ExceptT.tryCatch,
    ExceptT.run_mk, StateT.run_bind]
  change ((m.run.run s : Id _) >>= _) = _
  generalize (m.run.run s : Id _) = outcome
  obtain ⟨_ | _, s'⟩ := outcome <;> rfl

theorem exec_ofZones (f : Zones → Except StoreError α) (s : Store) :
    exec (ofZones f) s = (f s.zones, s) := by
  unfold ofZones
  rw [exec_bind, exec_get]
  cases h : f s.zones <;> simp [h]

end StoreM

open StoreM

/-! ## Growth -/

/-- The number of loads that have failed. -/
def Store.failures (s : Store) : Nat :=
  s.faults.injected + s.stats.loadFailures

namespace Faults

theorem pending_passed_le (faults : Faults) : faults.passed.pending ≤ faults.pending :=
  (List.tail_sublist _).count_le _

theorem pending_pos {faults : Faults} (hstrikes : faults.strikes = true) : 0 < faults.pending := by
  obtain ⟨upcoming, injected⟩ := faults
  cases upcoming with
  | nil => cases hstrikes
  | cons strikes upcoming =>
      obtain rfl : strikes = true := hstrikes
      simp [pending]

theorem injected_passed (faults : Faults) :
    faults.passed.injected = faults.injected + if faults.strikes then 1 else 0 := rfl

end Faults

/-- What an operation on trees makes of a store and its chart. -/
structure Grows (s : Store) (c : Chart) (s' : Store) (c' : Chart) : Prop where
  represents : Represents s' c'
  le : c ≤ c'
  filed : c'.filed = c.filed
  foldings : c'.foldings = c.foldings
  zones : s'.zones = s.zones
  settings : s'.settings = s.settings
  takesPart : s'.takesPart = s.takesPart
  now : s'.now = s.now
  faults : s'.faults.pending ≤ s.faults.pending
  cells : s.cells.size ≤ s'.cells.size
  keeps : s.Keeps s'
  /-- Where all pages are in memory, the new ones are too. -/
  resident : Resident s c → Resident s' c'

namespace Grows

variable {s s' s'' : Store} {c c' c'' : Chart}

theorem refl (hrep : Represents s c) : Grows s c s c where
  represents := hrep
  le := Chart.le_refl c
  filed := rfl
  foldings := rfl
  zones := rfl
  settings := rfl
  takesPart := rfl
  now := rfl
  faults := Nat.le_refl _
  cells := Nat.le_refl _
  keeps := .refl s
  resident hall := hall

theorem trans (hgrows : Grows s c s' c') (hgrows' : Grows s' c' s'' c'') : Grows s c s'' c'' where
  represents := hgrows'.represents
  le := Chart.le_trans hgrows.le hgrows'.le
  filed := hgrows'.filed.trans hgrows.filed
  foldings := hgrows'.foldings.trans hgrows.foldings
  zones := hgrows'.zones.trans hgrows.zones
  settings := hgrows'.settings.trans hgrows.settings
  takesPart := hgrows'.takesPart.trans hgrows.takesPart
  now := hgrows'.now.trans hgrows.now
  faults := Nat.le_trans hgrows'.faults hgrows.faults
  cells := Nat.le_trans hgrows.cells hgrows'.cells
  keeps := hgrows.keeps.trans hgrows'.keeps
  resident hall := hgrows'.resident (hgrows.resident hall)

/-- An operation that leaves the cells alone changes nothing that a chart is about. -/
theorem of_cells_eq (hrep : Represents s c) (hcells : s'.cells = s.cells)
    (hzones : s'.zones = s.zones) (hsettings : s'.settings = s.settings)
    (htakesPart : s'.takesPart = s.takesPart) (hnow : s'.now = s.now)
    (hfaults : s'.faults.pending ≤ s.faults.pending) : Grows s c s' c := by
  have hhold : ∀ r, s'.hold r = s.hold r := fun r => by
    simp only [Store.hold, Store.cell, hcells]
  exact {
    represents := hrep.of_cells_eq hcells hzones
    le := Chart.le_refl c
    filed := rfl
    foldings := rfl
    zones := hzones
    settings := hsettings
    takesPart := htakesPart
    now := hnow
    faults := hfaults
    cells := Nat.le_of_eq (by rw [hcells])
    keeps := .of_cells_eq hcells
    resident := fun hall r hr => by rw [hhold]; exact hall r hr }

/-- Taking a new reference into use. -/
theorem add (hrep : Represents s c) {r : PageRef} {cell : Cell} {p : Page Site}
    (hadm : r.Admissible cell s c p)
    (hcell : Resident s c → cell.hold.copy?.isSome) :
    Grows s c (s.pushCell cell) (c.add r p) where
  represents := hrep.add hadm
  le := Chart.le_add (hrep.live_fresh hadm.id_eq)
  filed := rfl
  foldings := rfl
  zones := rfl
  settings := rfl
  takesPart := rfl
  now := rfl
  faults := Nat.le_refl _
  cells := by simp
  keeps := .pushCell s cell
  resident hall := hall.add hrep.toMirrors hadm.id_eq (hcell hall)

end Grows

/-! ## Failures -/

/-- The error says that a page cannot be had. -/
inductive StoreError.IsLoadFailure : StoreError → Prop where
  | closed : IsLoadFailure .closed
  | pageNotFound (description : String) (zone base : Nat) :
      IsLoadFailure (.pageLoad description (.pageNotFound zone base))
  | zoneNotFound (description : String) (zone : Nat) :
      IsLoadFailure (.pageLoad description (.zoneNotFound zone))
  | malformedPage (description reason text : String) :
      IsLoadFailure (.pageLoad description (.malformedPage reason text))

/-- A load failure already names the reference that it is about. -/
theorem StoreError.IsLoadFailure.withPageRef {e : StoreError} (hfail : e.IsLoadFailure)
    (description : String) : e.withPageRef description = e := by
  cases hfail <;> rfl

/-- Only a fatal error is still the error that it was when it has been given a name. -/
theorem StoreError.isFatal_of_withPageRef {e : StoreError} {description : String}
    (hclosed : e.withPageRef description = .closed) : e.isFatal = true := by
  unfold withPageRef at hclosed
  split at hclosed
  · cases hclosed
  · split at hclosed
    · assumption
    · cases hclosed

/-- Every page in use can be had: all are in memory, or all that have been written can be
loaded. -/
def Serves (s : Store) (c : Chart) : Prop :=
  Resident s c ∨
    s.zones.isClosed = false ∧ s.faults.pending = 0 ∧
      ∀ z b p, c.filed z b = some p →
        (s.zones.text? z).isSome ∧ Page.parse p.toText = .ok p

theorem Grows.serves {s s' : Store} {c c' : Chart} (hgrows : Grows s c s' c')
    (hserves : Serves s c) : Serves s' c' := by
  rcases hserves with hall | ⟨hopen, hfaults, hfiled⟩
  · exact Or.inl (hgrows.resident hall)
  · refine Or.inr ⟨by rw [hgrows.zones, hopen], ?_, ?_⟩
    · have := hgrows.faults
      omega
    · rw [hgrows.filed, hgrows.zones]
      exact hfiled

/-- What makes an operation fail: some page cannot be had.  An open store has counted one load
more that has failed. -/
structure Lacks (s : Store) (c : Chart) (e : StoreError) (s' : Store) : Prop where
  unserved : ¬ Serves s c
  refused : e = .closed → s.zones.isClosed = true
  counted : s.zones.isClosed = false → s'.failures = s.failures + 1

/-- What comes after other operations may fail them all. -/
theorem Lacks.after {s s' s'' : Store} {c c' : Chart} {e : StoreError} (hgrows : Grows s c s' c')
    (hsame : s'.failures = s.failures) (hlacks : Lacks s' c' e s'') : Lacks s c e s'' where
  unserved hserves := hlacks.unserved (hgrows.serves hserves)
  refused hclosed := by rw [← hgrows.zones, hlacks.refused hclosed]
  counted hopen := by rw [hlacks.counted (by rw [hgrows.zones, hopen]), hsame]

/-! ## Judgments -/

/-- The operation makes the chart grow and has an outcome with a property. -/
def Effect (m : StoreM α) (s : Store) (c : Chart)
    (post : Except StoreError α → Store → Chart → Prop) : Prop :=
  ∃ c', Grows s c (exec m s).2 c' ∧ post (exec m s).1 (exec m s).2 c'

/-- The outcome is a result with a property, which no load has failed for, or the failure to have
a page. -/
def Outcome (s : Store) (c : Chart) (post : α → Store → Chart → Prop) :
    Except StoreError α → Store → Chart → Prop
  | .ok a, s', c' => s'.failures = s.failures ∧ post a s' c'
  | .error e, s', _ => e.IsLoadFailure ∧ Lacks s c e s'

/-- The operation gives a result with a property, unless some page cannot be had.  One load has
failed if it does not, and none if it does. -/
def Runs (m : StoreM α) (s : Store) (c : Chart) (post : α → Store → Chart → Prop) : Prop :=
  Effect m s c (Outcome s c post)

namespace Runs

variable {s : Store} {c : Chart} {P : α → Store → Chart → Prop} {Q : β → Store → Chart → Prop}

/-- What holds of the outcome of a run, the count of failed loads included. -/
theorem tallied {m : StoreM α} (hruns : Runs m s c P) :
    (∃ a s' c', exec m s = (.ok a, s') ∧ Grows s c s' c' ∧ s'.failures = s.failures ∧
        P a s' c') ∨
      ∃ e s' c', exec m s = (.error e, s') ∧ Grows s c s' c' ∧ e.IsLoadFailure ∧
        Lacks s c e s' := by
  obtain ⟨c', hgrows, hpost⟩ := hruns
  generalize exec m s = outcome at hgrows hpost
  obtain ⟨result, s'⟩ := outcome
  cases result with
  | ok a => exact Or.inl ⟨a, s', c', rfl, hgrows, hpost⟩
  | error e => exact Or.inr ⟨e, s', c', rfl, hgrows, hpost⟩

/-- What holds of the outcome of a run. -/
theorem cases {m : StoreM α} (hruns : Runs m s c P) :
    (∃ a s' c', exec m s = (.ok a, s') ∧ Grows s c s' c' ∧ P a s' c') ∨
      ∃ e s' c', exec m s = (.error e, s') ∧ Grows s c s' c' ∧ e.IsLoadFailure ∧
        Lacks s c e s' := by
  rcases hruns.tallied with ⟨a, s', c', hexec, hgrows, -, hpost⟩ | herror
  · exact Or.inl ⟨a, s', c', hexec, hgrows, hpost⟩
  · exact Or.inr herror

/-- What holds of a result. -/
theorem of_ok {m : StoreM α} {a : α} {s' : Store} (hruns : Runs m s c P)
    (hexec : exec m s = (.ok a, s')) : ∃ c', Grows s c s' c' ∧ P a s' c' := by
  obtain ⟨c', hgrows, hpost⟩ := hruns
  rw [hexec] at hgrows hpost
  exact ⟨c', hgrows, hpost.2⟩

/-- What holds of a failure. -/
theorem of_error {m : StoreM α} {e : StoreError} {s' : Store} (hruns : Runs m s c P)
    (hexec : exec m s = (.error e, s')) :
    ∃ c', Grows s c s' c' ∧ e.IsLoadFailure ∧ Lacks s c e s' := by
  obtain ⟨c', hgrows, hpost⟩ := hruns
  rw [hexec] at hgrows hpost
  exact ⟨c', hgrows, hpost⟩

/-- A store that serves every page makes the operation succeed. -/
theorem succeeds {m : StoreM α} (hruns : Runs m s c P) (hserves : Serves s c) :
    ∃ a s' c', exec m s = (.ok a, s') ∧ Grows s c s' c' ∧ P a s' c' := by
  rcases hruns.cases with hok | ⟨_, _, _, _, _, _, hlacks⟩
  · exact hok
  · exact absurd hserves hlacks.unserved

theorem ok {m : StoreM α} {a : α} {s' : Store} {c' : Chart} (hexec : exec m s = (.ok a, s'))
    (hgrows : Grows s c s' c') (hsame : s'.failures = s.failures) (hpost : P a s' c') :
    Runs m s c P :=
  ⟨c', by rw [hexec]; exact hgrows, by rw [hexec]; exact ⟨hsame, hpost⟩⟩

theorem error {m : StoreM α} {e : StoreError} {s' : Store} {c' : Chart}
    (hexec : exec m s = (.error e, s')) (hgrows : Grows s c s' c') (hfail : e.IsLoadFailure)
    (hlacks : Lacks s c e s') : Runs m s c P :=
  ⟨c', by rw [hexec]; exact hgrows, by rw [hexec]; exact ⟨hfail, hlacks⟩⟩

protected theorem pure (hrep : Represents s c) {a : α} (hpost : P a s c) :
    Runs (pure a : StoreM α) s c P :=
  ok (exec_pure a s) (Grows.refl hrep) rfl hpost

protected theorem bind {m : StoreM α} {f : α → StoreM β} (hm : Runs m s c P)
    (hf : ∀ a s' c', Grows s c s' c' → P a s' c' → Runs (f a) s' c' Q) :
    Runs (m >>= f) s c Q := by
  rcases hm.tallied with
    ⟨a, s', c', hexec, hgrows, hsame, hpost⟩ | ⟨e, s', c', hexec, hgrows, hfail, hlacks⟩
  · rcases (hf a s' c' hgrows hpost).tallied with
      ⟨b, s'', c'', hexec', hgrows', hsame', hpost'⟩ | ⟨e, s'', c'', hexec', hgrows', hfail, hlacks⟩
    · exact ok (by rw [exec_bind, hexec]; exact hexec') (hgrows.trans hgrows')
        (hsame'.trans hsame) hpost'
    · refine error (by rw [exec_bind, hexec]; exact hexec') (hgrows.trans hgrows') hfail ?_
      exact hlacks.after hgrows hsame
  · exact error (by rw [exec_bind, hexec]) hgrows hfail hlacks

theorem mono {m : StoreM α} {P' : α → Store → Chart → Prop} (hm : Runs m s c P)
    (himp : ∀ a s' c', Grows s c s' c' → P a s' c' → P' a s' c') : Runs m s c P' := by
  rcases hm.tallied with
    ⟨a, s', c', hexec, hgrows, hsame, hpost⟩ | ⟨e, s', c', hexec, hgrows, hfail, hlacks⟩
  · exact ok hexec hgrows hsame (himp a s' c' hgrows hpost)
  · exact error hexec hgrows hfail hlacks

/-- The state may be looked at. -/
protected theorem get {f : Store → StoreM β} (hf : Runs (f s) s c Q) :
    Runs (get >>= f) s c Q := by
  obtain ⟨c', hgrows, hpost⟩ := hf
  exact ⟨c', by rw [exec_bind]; exact hgrows, by rw [exec_bind]; exact hpost⟩

/-- Memory may be looked at. -/
protected theorem softPage {r : PageRef} {f : Option LivePage → StoreM β}
    (hf : Runs (f ((s.hold r).copy?.map PageCopy.page)) s c Q) :
    Runs (r.softPage? >>= f) s c Q := by
  obtain ⟨c', hgrows, hpost⟩ := hf
  exact ⟨c', by rw [exec_bind]; exact hgrows, by rw [exec_bind]; exact hpost⟩

/-- What memory holds strongly may be looked at. -/
protected theorem hardPage {r : PageRef} {f : Option LivePage → StoreM β}
    (hf : Runs (f ((s.hold r).strong?.map PageCopy.page)) s c Q) :
    Runs (r.hardPage? >>= f) s c Q := by
  obtain ⟨c', hgrows, hpost⟩ := hf
  exact ⟨c', by rw [exec_bind]; exact hgrows, by rw [exec_bind]; exact hpost⟩

protected theorem ite {p : Prop} [Decidable p] {m m' : StoreM α} (hthen : p → Runs m s c P)
    (helse : ¬ p → Runs m' s c P) : Runs (if p then m else m') s c P := by
  split
  · next hp => exact hthen hp
  · next hp => exact helse hp

/-- A load failure is not named again. -/
theorem naming {m : StoreM α} (r : PageRef) (hm : Runs m s c P) : Runs (r.naming m) s c P := by
  rcases hm.tallied with
    ⟨a, s', c', hexec, hgrows, hsame, hpost⟩ | ⟨e, s', c', hexec, hgrows, hfail, hlacks⟩
  · refine ok ?_ hgrows hsame hpost
    rw [PageRef.naming, exec_tryCatch, hexec]
  · refine error (e := e) ?_ hgrows hfail hlacks
    rw [PageRef.naming, exec_tryCatch, hexec]
    simp only [exec_bind, PageRef.describe, PageRef.hold, exec_get, exec_pure, exec_throw,
      hfail.withPageRef]

/-- An operation may be traded for another with the same outcome. -/
theorem of_exec_eq {m m' : StoreM α} {s' : Store} (hexec : exec m s = exec m' s')
    (hgrows : Grows s c s' c) (hsame : s'.failures = s.failures) (hm : Runs m' s' c P) :
    Runs m s c P := by
  rcases hm.tallied with
    ⟨a, s'', c'', hok, hgrows', hsame', hpost⟩ | ⟨e, s'', c'', herr, hgrows', hfail, hlacks⟩
  · exact ok (hexec.trans hok) (hgrows.trans hgrows') (hsame'.trans hsame) hpost
  · exact error (hexec.trans herr) (hgrows.trans hgrows') hfail (hlacks.after hgrows hsame)

/-- An action on every item of a list that keeps an invariant, where what holds of a result goes
on to hold. -/
theorem listMapM_keeping {f : α → StoreM β} {R : α → β → Store → Chart → Prop}
    {I : Store → Chart → Prop} (hrep : Represents s c) (hinit : I s c) (l : List α)
    (hstable : ∀ a b s' c' s'' c'', Grows s' c' s'' c'' → R a b s' c' → R a b s'' c'')
    (hf : ∀ a ∈ l, ∀ s' c', Grows s c s' c' → I s' c' →
      Runs (f a) s' c' fun b s'' c'' => R a b s'' c'' ∧ I s'' c'') :
    Runs (l.mapM f) s c fun bs s' c' =>
      List.Forall₂ (fun a b => R a b s' c') l bs ∧ I s' c' := by
  induction l generalizing s c with
  | nil => exact Runs.pure hrep ⟨List.Forall₂.nil, hinit⟩
  | cons a l ih =>
      rw [List.mapM_cons]
      refine Runs.bind (hf a List.mem_cons_self s c (Grows.refl hrep) hinit) ?_
      rintro b s' c' hgrows ⟨hb, hinv⟩
      refine Runs.bind (ih hgrows.represents hinv ?_) ?_
      · intro a' ha' s'' c'' hgrows' hinv'
        exact hf a' (List.mem_cons_of_mem a ha') s'' c'' (hgrows.trans hgrows') hinv'
      · rintro bs s'' c'' hgrows' ⟨hbs, hinv'⟩
        exact Runs.pure hgrows'.represents
          ⟨List.Forall₂.cons (hstable a b s' c' s'' c'' hgrows' hb) hbs, hinv'⟩

/-- An action on every item of a list, where what holds of a result goes on to hold. -/
theorem listMapM {f : α → StoreM β} {R : α → β → Store → Chart → Prop} (hrep : Represents s c)
    (l : List α)
    (hstable : ∀ a b s' c' s'' c'', Grows s' c' s'' c'' → R a b s' c' → R a b s'' c'')
    (hf : ∀ a ∈ l, ∀ s' c', Grows s c s' c' → Runs (f a) s' c' (R a)) :
    Runs (l.mapM f) s c fun bs s' c' => List.Forall₂ (fun a b => R a b s' c') l bs := by
  refine (listMapM_keeping (I := fun _ _ => True) hrep trivial l hstable ?_).mono
    fun _ _ _ _ hpost => hpost.1
  intro a ha s' c' hgrows _
  exact (hf a ha s' c' hgrows).mono fun _ _ _ _ hpost => ⟨hpost, trivial⟩

end Runs
end PageTree
