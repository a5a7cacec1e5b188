import PageTree.Proofs.Folds
import PageTree.Proofs.System.Lives

/-!
# Folds all through the life of a tree

Calls that fold leave their folds with the pages, and commits write them; later calls use them
again.  Whatever a tree has been through, its fold is the fold of all its values in the order of
the entries, if all calls that fold do so with the same lawful folding
(`System.reductions_fold`).
-/

namespace PageTree

open StoreM

variable {s s' : Store} {c c' : Chart} {version : Nat} {t t' : Tree} {content : Content}
  {f : PageRef.Folding}

/-! ## Reading what has been folded -/

/-- What is read of a Q-tree whose leaves are known. -/
theorem QTree.exec_entries {r : PageRef} {depth : Nat} {shapes : List (PageBody Unit)}
    (hrep : Represents s c) (hserves : Serves s c) (hr : c.refs r)
    (hreads : c.Reads depth r.site shapes) :
    (exec (entries r) s).1 = .ok ((shapes.flatMap slotsOf).map Slot.entry) := by
  obtain ⟨es, s', c', hexec, hgrows, depth', shapes', hreads', rfl⟩ :=
    (entries_gather hrep hr).succeeds hserves
  rw [hexec, (hreads.mono hgrows.le).unique hreads']

/-- Two trees read alike, entry by entry, as a content, and the fold of the second is that of the
values of the entries in their order. -/
def Content.IsReduced (f : PageRef.Folding) (s : Store) (t : Tree) (s' : Store) (t' : Tree) :
    Content → Prop
  | .listing es =>
    (exec (BTree.entries t.root) s).1 = .ok es ∧ (exec (BTree.entries t'.root) s').1 = .ok es ∧
      t'.fold = f.total (es.map Prod.snd)
  | .register value =>
    (exec (UTree.get t) s).1 = .ok value ∧ (exec (UTree.get t') s').1 = .ok value ∧
      t'.fold = f.total (if value.isDefined then [value] else [])
  | .plane g => ∃ es, QTree.Lists es g ∧
    (exec (QTree.entries t.root) s).1 = .ok es ∧ (exec (QTree.entries t'.root) s').1 = .ok es ∧
      t'.fold = f.total (es.map PlaneEntry.value)

/-- A tree alike whose fold is known has been folded. -/
theorem Chart.Has.isReduced (hhas : c.Has version t content) (hrep : Represents s c)
    (hserves : Serves s c) (hgrows : Grows s c s' c')
    (hhas' : c'.Has version t' content) (halike : c'.Alike t.root.site t'.root.site)
    (hlawful : f.Lawful) (honly : ∀ g, c'.foldings g → g = f) (hfold : c'.HasFold t'.root) :
    content.IsReduced f s t s' t' := by
  have hrep' := hgrows.represents
  have hserves' := hgrows.serves hserves
  have hread := hhas.isRead hrep hserves
  have hread' := hhas'.isRead hrep' hserves'
  have hfolds := hhas'.folds_root hrep'.toMirrors hlawful honly hfold
  cases content with
  | listing es => exact ⟨hread, hread', hfolds⟩
  | register value => exact ⟨hread, hread', hfolds⟩
  | plane g =>
      obtain ⟨shapes, hreads⟩ :=
        Chart.Reads.exists_of_sound (hrep.sound _ hhas.fit.refs) (Nat.lt_succ_self _)
      have hsound' := hrep'.sound _ hhas'.fit.refs
      have hreads' := (hreads.mono hgrows.le).alike halike
      refine ⟨_, QTree.Contains.lists hhas hreads,
        QTree.exec_entries hrep hserves hhas.fit.refs hreads,
        QTree.exec_entries hrep' hserves' hhas'.fit.refs hreads', ?_⟩
      rw [Tree.fold, hfold.eq_total hsound' hlawful honly hreads',
        QTree.flatMap_values (hhas'.treeKind hsound' hreads')]

namespace System

variable {allowed : Operation → Prop} {seed : Seed} {x : System} {past : List System}

/-- All that commits have written can be read. -/
structure Readable (x : System) : Prop where
  isOpen : x.store.zones.isClosed = false
  faults : x.store.faults.pending = 0
  kept : ∀ z b p, x.filed z b p → (x.store.zones.text? z).isSome ∧ Page.parse p.toText = .ok p

/-- Whatever a tree has been through with calls that fold, if at all, with one lawful folding: what
comes of folding it has the fold of all its values in the order of the entries, and keeps the
entries; and it comes to that where all can be read that commits have written. -/
theorem reductions_fold (hlawful : f.Lawful) (honly : ∀ g, allowed (.reduce g) → g = f)
    (hlives : Lives allowed seed x past) :
    (∀ t s, exec (x.trunk.tree.reduced f x.trunk.version) x.store = (.ok t, s) →
      x.trunk.tree.Rerooted t ∧ (replay x.trunk.tree.kind x.log).Folds f t.fold) ∧
    (x.Readable → ∃ t s,
      exec (x.trunk.tree.reduced f x.trunk.version) x.store = (.ok t, s) ∧
        (replay x.trunk.tree.kind x.log).IsReduced f x.store x.trunk.tree s t) := by
  obtain ⟨origin, c, hlast, -, hallowed⟩ := hlives.coherent
  -- the folding may not have been used yet
  have hx := hlast.allow fun g => g = f
  have hgiven : ∀ g, (c.allow fun g => g = f).foldings g → g = f :=
    fun g hg => hg.elim (fun hold => honly g (hallowed g hold)) id
  have hkind : x.trunk.tree.kind = origin.kind := hx.kin.kind
  have hruns := Tree.reduced_runs hx.represents hx.has (Or.inr (rfl : f = f))
  rw [hkind]
  constructor
  · intro t s hexec
    obtain ⟨c', hgrows, hrerooted, hhas, -, hfold⟩ := hruns.of_ok hexec
    refine ⟨hrerooted, hhas.folds_root hgrows.represents.toMirrors hlawful ?_ hfold⟩
    rwa [hgrows.foldings]
  · intro hreadable
    have hserves : Serves x.store (c.allow fun g => g = f) :=
      Or.inr ⟨hreadable.isOpen, hreadable.faults,
        fun z b p hfiled => hreadable.kept z b p ((hx.filed z b p).2 hfiled)⟩
    obtain ⟨t, s, c', hexec, hgrows, -, hhas, halike, hfold⟩ := hruns.succeeds hserves
    refine ⟨t, s, hexec,
      hx.has.isReduced hx.represents hserves hgrows hhas halike hlawful ?_ hfold⟩
    rwa [hgrows.foldings]

/-- A value is stored, the values are folded, and another value is stored before they are folded
again. -/
theorem reductions_fold_sums :
    ∃ allowed x past t s, (∀ g, allowed (.reduce g) → g = NamedFolding.sum.folding (.int 0)) ∧
      Lives allowed orderedSeed x past ∧ x.log = [(0, .put (.int 1) (.int 10)),
        (1, .reduce (NamedFolding.sum.folding (.int 0))), (2, .put (.int 2) (.int 20))] ∧
      exec (x.trunk.tree.reduced (NamedFolding.sum.folding (.int 0)) x.trunk.version) x.store =
        (.ok t, s) ∧ t.fold = .int 30 ∧
      (exec (BTree.entries t.root) s).1 = .ok [(.int 1, .int 10), (.int 2, .int 20)] := by
  obtain ⟨allowed, hput, hreduce, honly⟩ : ∃ allowed : Operation → Prop,
      (∀ key value, allowed (.put key value)) ∧
      allowed (.reduce (NamedFolding.sum.folding (.int 0))) ∧
      ∀ g, allowed (.reduce g) → g = NamedFolding.sum.folding (.int 0) :=
    ⟨fun op => ∀ g, op = .reduce g → g = NamedFolding.sum.folding (.int 0),
      fun _ _ => nofun, fun _ h => (Operation.reduce.inj h).symm, fun g h => h g rfl⟩
  have hstart : Lives allowed orderedSeed ordered [] := .start starts_ordered
  obtain ⟨x₁, past₁, hlives₁, hstore₁, htrunk₁, hlog₁, hfiled₁, -, hcalls₁⟩ :=
    hstart.call (hput (.int 1) (.int 10)) (i := 0) rfl rfl
      (exec_eq_ok (by decide +kernel)) (by decide +kernel)
  obtain ⟨x₂, past₂, hlives₂, hstore₂, htrunk₂, hlog₂, hfiled₂, -, hcalls₂⟩ :=
    hlives₁.call hreduce (i := 1) (hcalls₁ 1 (by decide)) trivial
      (by rw [hstore₁, htrunk₁]; exact exec_eq_ok (by decide +kernel))
      (by rw [htrunk₁]; decide +kernel)
  rw [htrunk₁] at htrunk₂
  obtain ⟨x, past, hlives, hstore, htrunk, hlog, hfiled, -⟩ :=
    hlives₂.call (hput (.int 2) (.int 20)) (i := 2)
      ((hcalls₂ 2 (by decide)).trans (hcalls₁ 2 (by decide))) (by rw [htrunk₂]; rfl)
      (by rw [hstore₂, htrunk₂]; exact exec_eq_ok (by decide +kernel))
      (by rw [htrunk₂]; decide +kernel)
  rw [htrunk₂] at htrunk
  have hreadable : x.Readable := by
    refine ⟨by rw [hstore]; decide +kernel, by rw [hstore]; decide +kernel, fun z b p hp => ?_⟩
    rw [hfiled, hfiled₂, hfiled₁] at hp
    exact absurd hp id
  obtain ⟨t, s, hexec, hreduced⟩ :=
    (reductions_fold NamedFolding.lawful_sum honly hlives).2 hreadable
  have hkind : x.trunk.tree.kind = .btree := by
    rw [htrunk]
    decide +kernel
  rw [hlog₂, hlog₁] at hlog
  rw [hkind, hlog] at hreduced
  obtain ⟨-, hentries, hfold⟩ := hreduced
  exact ⟨allowed, x, past, t, s, honly, hlives, hlog, hexec, hfold, hentries⟩

end System
end PageTree
