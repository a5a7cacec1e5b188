import PageTree.Proofs.Memory
import PageTree.Proofs.References
import PageTree.Store.Reclaim
import PageTree.Trunk

/-!
# Letting go of pages

Softening and reclaiming memory let go of pages that lie in zones.  A chart says what a tree means
whichever of its pages are in memory, so a store that agrees with a chart goes on to do so
(`PageRef.soften_loosens`, `Represents.reclaim`).
-/

namespace PageTree

open StoreM

variable {α β : Type} {s s' s'' : Store} {c : Chart} {r : PageRef}

/-- The stores differ in their cells only. -/
def Store.Recelled (s s' : Store) : Prop :=
  s' = { s with cells := s'.cells }

theorem Store.Recelled.trans (hrecelled : s.Recelled s') (hrecelled' : s'.Recelled s'') :
    s.Recelled s'' := by
  rw [Store.Recelled] at hrecelled hrecelled' ⊢
  rw [hrecelled] at hrecelled'
  exact hrecelled'

/-- The operation changes nothing but what memory holds, and memory goes on to agree with the
chart. -/
def Loosens (m : StoreM α) (c : Chart) : Prop :=
  ∀ s, Represents s c → Represents (exec m s).2 c ∧ s.Recelled (exec m s).2

namespace Loosens

theorem pure (a : α) : Loosens (pure a) c :=
  fun _ hrep => ⟨hrep, rfl⟩

theorem throw (e : StoreError) : Loosens (throw e : StoreM α) c :=
  fun _ hrep => ⟨hrep, rfl⟩

theorem bind {m : StoreM α} {f : α → StoreM β} (hm : Loosens m c)
    (hf : ∀ a, Loosens (f a) c) : Loosens (m >>= f) c := by
  intro s hrep
  obtain ⟨hrep', hrest⟩ := hm s hrep
  rw [exec_bind]
  generalize exec m s = outcome at hrep' hrest ⊢
  obtain ⟨result, s'⟩ := outcome
  cases result with
  | error e => exact ⟨hrep', hrest⟩
  | ok a =>
      obtain ⟨hrep'', hrest'⟩ := hf a s' hrep'
      exact ⟨hrep'', hrest.trans hrest'⟩

/-- A page in memory is one over references in use. -/
theorem softPage {f : Option LivePage → StoreM β} (hr : c.refs r) (hnone : Loosens (f none) c)
    (hsome : ∀ page : LivePage, (∀ m ∈ page.children, c.refs m) → Loosens (f (some page)) c) :
    Loosens (r.softPage? >>= f) c := by
  intro s hrep
  have hexec : exec (r.softPage? >>= f) s =
      exec (f ((s.hold r).copy?.map PageCopy.page)) s := rfl
  rw [hexec]
  cases hcopy : (s.hold r).copy? with
  | none => exact hnone s hrep
  | some copy => exact hsome copy.page (hrep.held r copy hr hcopy).2 s hrep

theorem forM {f : PageRef → StoreM Unit} (rs : List PageRef) (hf : ∀ r ∈ rs, Loosens (f r) c) :
    Loosens (rs.forM f) c := by
  induction rs with
  | nil => exact .pure ()
  | cons r rs ih =>
      rw [List.forM]
      exact (hf r List.mem_cons_self).bind fun _ =>
        ih fun r' hr' => hf r' (List.mem_cons_of_mem r hr')

end Loosens

namespace PageRef

/-- A page that lies in a zone may be held weakly. -/
theorem weaken_loosens (hr : c.refs r) (hcommitted : r.isCommitted = true) :
    Loosens (modify fun s => s.modifyCell r.id fun cell =>
      match cell.hold with
      | .strong copy => { cell with hold := .weak (some copy) }
      | _ => cell) c := by
  intro s hrep
  refine ⟨hrep.modifyCell hr hcommitted _ ?_ ?_, rfl⟩
  · intro copy hcopy
    refine hrep.held r copy hr ?_
    rw [Store.hold]
    generalize s.cell r.id = cell at hcopy
    obtain ⟨hold, version⟩ := cell
    cases hold <;> exact hcopy
  · intro v p hv hp
    refine hrep.dated r v p hr ?_ hp
    generalize s.cell r.id = cell at hv
    obtain ⟨hold, version⟩ := cell
    cases hold <;> exact hv

theorem softenWithin_loosens (version depth : Nat) (hr : c.refs r) :
    Loosens (softenWithin version depth r) c := by
  induction depth generalizing r with
  | zero => exact .throw _
  | succ depth ih =>
      unfold softenWithin
      refine .softPage hr (.pure ()) ?_
      intro page hchildren
      refine .bind (.forM _ fun m hm => ih (hchildren m hm)) fun _ => ?_
      split
      · next hcommitted =>
          rw [Bool.and_eq_true] at hcommitted
          exact weaken_loosens hr hcommitted.1
      · exact .pure ()

/-- Softening a tree lets go of pages in memory and changes nothing else. -/
theorem soften_loosens (version : Nat) (hr : c.refs r) : Loosens (r.soften version) c := by
  intro s hrep
  exact softenWithin_loosens version (s.depthBound r) hr s hrep

end PageRef

/-- Softening the tree of a trunk lets go of pages in memory and changes nothing else. -/
theorem Trunk.soften_loosens {t : Trunk} (hroot : c.refs t.tree.root) : Loosens t.soften c := by
  unfold Trunk.soften Tree.soften
  split
  · exact PageRef.soften_loosens t.version hroot
  · exact .pure ()

/-! ## Reclaiming -/

/-- What is left of a cell is what it held, or nothing if it held the page weakly. -/
theorem Store.prune_cases (reached : Reached) (cell : Cell) :
    Reached.prune reached cell = cell ∨
      ∃ copy, cell.hold = .weak (some copy) ∧
        Reached.prune reached cell = { cell with hold := .weak none } := by
  unfold Store.Reached.prune
  split
  · next copy hhold =>
      split
      · exact Or.inl rfl
      · exact Or.inr ⟨copy, hhold, rfl⟩
  · exact Or.inl rfl

theorem Store.cell_reclaim (s : Store) (holders : Holders) (id : Nat) :
    (s.reclaim holders).cell id = Reached.prune (s.reach holders) (s.cell id) := by
  simp only [Store.cell, Store.reclaim, Array.getD_eq_getD_getElem?, Array.getElem?_map]
  cases s.cells[id]? <;> rfl

/-- Reclaiming memory drops pages that lie in zones, whoever holds something. -/
theorem Represents.reclaim (hrep : Represents s c) (holders : Holders) :
    Represents (s.reclaim holders) c := by
  -- only what is held weakly is let go of, so nothing uncommitted is lost
  have hcopies : ∀ r copy, ((s.reclaim holders).hold r).copy? = some copy →
      (s.hold r).copy? = some copy := by
    intro r copy hcopy
    rw [Store.hold, s.cell_reclaim] at hcopy
    rcases Store.prune_cases (s.reach holders) (s.cell r.id) with heq | ⟨_, _, heq⟩
    · rwa [heq] at hcopy
    · rw [heq] at hcopy
      cases hcopy
  exact { hrep with
    allocated := by simpa [Store.reclaim] using hrep.allocated
    charted := by simpa [Store.reclaim] using hrep.charted
    held := fun r copy hr hcopy => hrep.held r copy hr (hcopies r copy hcopy)
    strong := by
      intro r hr huncommitted
      obtain ⟨copy, hhold⟩ := hrep.strong r hr huncommitted
      refine ⟨copy, ?_⟩
      rw [Store.hold, s.cell_reclaim]
      change (s.cell r.id).hold = .strong copy at hhold
      rcases Store.prune_cases (s.reach holders) (s.cell r.id) with heq | ⟨_, hweak, _⟩
      · rw [heq, hhold]
      · rw [hhold] at hweak
        cases hweak
    dated := by
      intro r v p hr hv hp
      refine hrep.dated r v p hr ?_ hp
      rw [s.cell_reclaim] at hv
      rcases Store.prune_cases (s.reach holders) (s.cell r.id) with heq | ⟨_, _, heq⟩
      · rwa [heq] at hv
      · rwa [heq] at hv }

end PageTree
