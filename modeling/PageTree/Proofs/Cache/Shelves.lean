import PageTree.Proofs.Cache.Answers
import PageTree.Proofs.Contents

/-!
# Reads do not see what memory holds

A committed tree may be softened, loaded, read and opened again from its seed, in any order, and
what is no longer held may be reclaimed (`CacheStep`).  All of this changes only what memory holds
(`Shelf.Sound.run`), so every tree that one has then reads as the committed tree does when all its
pages are held strongly (`System.memory_unseen`).
-/

namespace PageTree

open StoreM

variable {ι : Type} {s s' s₀ : Store} {c c' c₀ : Chart} {t t' t₀ : Tree} {version : Nat}
  {content : Content}

/-- A committed tree that is opened again is another reference to the same site. -/
theorem Tree.reopened_recaches (hrep : Represents s c) (hhas : c.Has version t content)
    (hcommitted : t.root.isCommitted = true) :
    ∃ c', s.Recaches c (s.pushCell ⟨.unloaded, none⟩) c' ∧ c'.refs (t.reopened s).root := by
  obtain ⟨c', hrep', hle, hfiled, -, hrefs⟩ := Tree.reopened_represents hrep hhas hcommitted
  exact ⟨c', ⟨hrep', hle, hfiled, rfl, Nat.le_refl _⟩, hrefs⟩

/-! ## What one may do -/

/-- A store with the trees that one has of it. -/
structure Shelf where
  store : Store
  trees : List Tree

/-- Something that changes what memory holds. -/
inductive CacheStep : Shelf → Shelf → Prop where
  /-- Pages are loaded on the way to some page of a tree, and the page and what lies beneath it is
  softened. -/
  | soften {x : Shelf} {t : Tree} {s : Store} {r : PageRef} (version : Nat) (mem : t ∈ x.trees)
      (reaches : x.store.Reaches t.root s r) :
      CacheStep x { x with store := (exec (r.soften version) s).2 }
  | load {x : Shelf} {t t' : Tree} {s : Store} (mem : t ∈ x.trees)
      (loaded : exec t.loaded x.store = (.ok t', s)) : CacheStep x ⟨s, t' :: x.trees⟩
  | read {x : Shelf} {t : Tree} (query : Query) (mem : t ∈ x.trees) (suits : query.Suits t.kind) :
      CacheStep x { x with store := (exec (query.run t) x.store).2 }
  | scan {x : Shelf} {t : Tree} {ι : Type} {policy : Policy ι} (calls : List CursorCall)
      (mem : t ∈ x.trees) (scans : policy.Scans t.kind)
      (stays : ∀ call ∈ calls, call.root? = none) :
      CacheStep x { x with
        store := ((CursorM.play calls).exec (Cursor.start t.root policy) x.store).2 }
  /-- Pages that are held weakly and that nobody holds otherwise are dropped. -/
  | reclaim {x : Shelf} (holders : Holders) :
      CacheStep x { x with store := x.store.reclaim holders }
  | reopen {x : Shelf} {t t' : Tree} {s : Store} (mem : t ∈ x.trees)
      (opened : exec (Tree.ofSeed t.kind t.seedText) x.store = (.ok t', s)) :
      CacheStep x ⟨s, t' :: x.trees⟩

/-- Memory has changed since some store, and all trees are at the site of some tree. -/
structure Shelf.Sound (s₀ : Store) (c₀ : Chart) (t₀ : Tree) (x : Shelf) (c : Chart) : Prop where
  recaches : s₀.Recaches c₀ x.store c
  refs : ∀ t ∈ x.trees, c.refs t.root
  header : ∀ t ∈ x.trees, t.root.header = t₀.root.header
  seed : ∀ t ∈ x.trees, t.seed = t₀.seed

section Shelves

variable {x y z : Shelf}

/-- The outcome of a read is its answer, and memory may hold more then. -/
theorem Query.run_cases (hrep : Represents s c) (hhas : c.Has version t content) (query : Query)
    (hsuits : query.Suits t.kind) : ∃ c', Grows s c (exec (query.run t) s).2 c' := by
  by_cases hplane : query.InPlane
  · have hsound := hrep.sound t.root hhas.fit.refs
    have hkind : t.kind = content.kind := hhas.kind_eq
    rw [hkind] at hsuits
    obtain ⟨a, hruns⟩ := query.exists_answer hsound hsuits hplane
    obtain ⟨c', hgrows, -⟩ := hruns s c t (Chart.le_refl c) hrep hhas rfl
    exact ⟨c', hgrows⟩
  · obtain ⟨e, hrefused⟩ := Query.exists_refusal hplane
    rw [hrefused]
    exact ⟨c, .refl hrep⟩

namespace Shelf.Sound

theorem isCommitted (hcommitted : t₀.root.isCommitted = true) (hx : x.Sound s₀ c₀ t₀ c)
    (ht : t ∈ x.trees) : t.root.isCommitted = true := by
  rw [PageRef.isCommitted, hx.header t ht]
  exact hcommitted

theorem site_eq (hcommitted : t₀.root.isCommitted = true) (hx : x.Sound s₀ c₀ t₀ c)
    (ht : t ∈ x.trees) : t.root.site = t₀.root.site := by
  rw [PageRef.site_of_committed hcommitted,
    PageRef.site_of_committed (hx.isCommitted hcommitted ht), hx.header t ht]

/-- Each tree has the content of the first one. -/
theorem has (hhas : c₀.Has version t₀ content) (hcommitted : t₀.root.isCommitted = true)
    (hx : x.Sound s₀ c₀ t₀ c) (ht : t ∈ x.trees) : c.Has version t content := by
  have hhas' := hhas.mono hx.recaches.le
  have hsite := hx.site_eq hcommitted ht
  have hlike : c.Likeness t₀.seed.kind t₀.seed.stem version t₀.root.site t.root := by
    refine ⟨⟨hx.refs t ht, ?_⟩, ?_⟩
    · rw [hsite]
      exact hhas'.fit.page
    · rw [hsite]
      exact .refl _
  have hseed := hx.seed t ht
  exact (hhas'.likeness hlike).congr rfl (by rw [hseed]) (by rw [hseed])

/-- Memory changes, and no tree is added. -/
theorem withStore (hx : x.Sound s₀ c₀ t₀ c) (hrecaches : x.store.Recaches c s c') :
    Sound s₀ c₀ t₀ { x with store := s } c' where
  recaches := hx.recaches.trans hrecaches
  refs t ht := hrecaches.le.refs _ (hx.refs t ht)
  header := hx.header
  seed := hx.seed

/-- Memory changes, and a tree is added. -/
theorem cons (hx : x.Sound s₀ c₀ t₀ c) (hrecaches : x.store.Recaches c s c') (hr : c'.refs t.root)
    (hheader : t.root.header = t₀.root.header) (hseed : t.seed = t₀.seed) :
    Sound s₀ c₀ t₀ ⟨s, t :: x.trees⟩ c' where
  recaches := hx.recaches.trans hrecaches
  refs := List.forall_mem_cons.2 ⟨hr, fun t ht => hrecaches.le.refs _ (hx.refs t ht)⟩
  header := List.forall_mem_cons.2 ⟨hheader, hx.header⟩
  seed := List.forall_mem_cons.2 ⟨hseed, hx.seed⟩

theorem step (hhas : c₀.Has version t₀ content) (hcommitted : t₀.root.isCommitted = true)
    (hsupplies : Supplies s₀ c₀) (hx : x.Sound s₀ c₀ t₀ c) (hstep : CacheStep x y) :
    ∃ c', y.Sound s₀ c₀ t₀ c' := by
  have hrep := hx.recaches.represents
  cases hstep with
  | @soften t s r version mem reaches =>
      obtain ⟨c', hgrows, hfit, -⟩ := reaches.fit hrep (hx.has hhas hcommitted mem).fit
      obtain ⟨hrep', hrecelled⟩ := PageRef.soften_loosens version hfit.refs s hgrows.represents
      refine ⟨c', hx.withStore (hgrows.recaches.trans ⟨hrep', Chart.le_refl c', rfl, ?_, ?_⟩)⟩
      · rw [hrecelled]
      · rw [hrecelled]
  | @load t t' s mem loaded =>
      obtain ⟨s', c', hexec, hwarms, -⟩ := Tree.loaded_warms hrep (hx.recaches.supplies hsupplies)
        (hx.refs t mem) (hx.isCommitted hcommitted mem)
      rw [hexec] at loaded
      cases loaded
      exact ⟨c', hx.cons hwarms.toRecaches (hwarms.le.refs _ (hx.refs t mem)) (hx.header t mem)
        (hx.seed t mem)⟩
  | @read t query mem suits =>
      obtain ⟨c', hgrows⟩ := query.run_cases hrep (hx.has hhas hcommitted mem) suits
      exact ⟨c', hx.withStore hgrows.recaches⟩
  | @scan t ι policy calls mem scans stays =>
      have hr := hx.refs t mem
      obtain ⟨c', hgrows⟩ := Cursor.play_start_grows scans.decides
        (hrep.sound t.root hr) hrep (hx.recaches.supplies hsupplies).serves hr stays
      exact ⟨c', hx.withStore hgrows.recaches⟩
  | reclaim holders =>
      exact ⟨c, hx.withStore ⟨hrep.reclaim holders, Chart.le_refl c, rfl, rfl, Nat.le_refl _⟩⟩
  | @reopen t t' s mem opened =>
      have hhas' := hx.has hhas hcommitted mem
      rcases Tree.ofSeed_cases hrep hhas' with hexec | ⟨-, e, hexec⟩
      · rw [hexec] at opened
        cases opened
        obtain ⟨c', hrecaches, hr⟩ :=
          Tree.reopened_recaches hrep hhas' (hx.isCommitted hcommitted mem)
        exact ⟨c', hx.cons hrecaches hr (hx.header t mem) (hx.seed t mem)⟩
      · rw [hexec] at opened
        cases opened

theorem run (hhas : c₀.Has version t₀ content) (hcommitted : t₀.root.isCommitted = true)
    (hsupplies : Supplies s₀ c₀) (hx : x.Sound s₀ c₀ t₀ c)
    (hrun : Relation.ReflTransGen CacheStep x y) : ∃ c', y.Sound s₀ c₀ t₀ c' := by
  induction hrun with
  | refl => exact ⟨c, hx⟩
  | tail _ hstep ih =>
      obtain ⟨c', hy⟩ := ih
      exact hy.step hhas hcommitted hsupplies hstep

end Shelf.Sound

/-! ## What one sees -/

/-- Whatever one asks of two trees, each with a store of its own, the answers are the same. -/
structure Tree.ReadsAlike (t : Tree) (s : Store) (t' : Tree) (s' : Store) : Prop where
  span : t'.span = t.span
  size : t'.size = t.size
  fold : t'.fold = t.fold
  reads : ∀ query : Query, query.Suits t.kind →
    (exec (query.run t') s').1 = (exec (query.run t) s).1
  /-- All reads succeed, but for those of a point beyond the plane. -/
  succeeds : ∀ query : Query, query.Suits t.kind → query.InPlane →
    ∃ a, (exec (query.run t) s).1 = .ok a
  /-- Cursors give the same answers to all calls. -/
  scans : ∀ {ι : Type} {policy : Policy ι}, policy.Scans t.kind →
    ∀ calls : List CursorCall, (∀ call ∈ calls, call.root? = none) →
      ∃ answers, ((CursorM.play calls).exec (Cursor.start t.root policy) s).1.1 = .ok answers ∧
        ((CursorM.play calls).exec (Cursor.start t'.root policy) s').1.1 = .ok answers

namespace Shelf

/-- All trees that one comes to have read alike. -/
theorem Sound.readsAlike (hrep : Represents s₀ c₀) (hhas : c₀.Has version t₀ content)
    (hcommitted : t₀.root.isCommitted = true) (hsupplies : Supplies s₀ c₀)
    (hx : x.Sound s₀ c₀ t₀ c) (hy : y.Sound s₀ c₀ t₀ c') (ht : t ∈ x.trees) (ht' : t' ∈ y.trees) :
    t.ReadsAlike x.store t' y.store := by
  have hsound := hrep.sound t₀.root hhas.fit.refs
  have hsite := hx.site_eq hcommitted ht
  have hsite' := hy.site_eq hcommitted ht'
  have hserves := (hx.recaches.supplies hsupplies).serves
  have hserves' := (hy.recaches.supplies hsupplies).serves
  have hheader : t'.root.header = t.root.header := (hy.header t' ht').trans (hx.header t ht).symm
  -- both stores are as one chart says, and the chart alone decides the answer
  have hanswer : ∀ query : Query, query.Suits t.kind → query.InPlane →
      ∃ a, (exec (query.run t) x.store).1 = .ok a ∧ (exec (query.run t') y.store).1 = .ok a := by
    intro query hsuits hplane
    have hkind : t.kind = content.kind := (hx.has hhas hcommitted ht).kind_eq
    rw [hkind] at hsuits
    obtain ⟨a, hruns⟩ := query.exists_answer hsound hsuits hplane
    obtain ⟨_, _, _, hexec, -, rfl⟩ := (hruns _ _ t hx.recaches.le hx.recaches.represents
      (hx.has hhas hcommitted ht) hsite).succeeds hserves
    obtain ⟨_, _, _, hexec', -, rfl⟩ := (hruns _ _ t' hy.recaches.le hy.recaches.represents
      (hy.has hhas hcommitted ht') hsite').succeeds hserves'
    exact ⟨_, by rw [hexec], by rw [hexec']⟩
  refine ⟨congrArg Header.span hheader, congrArg Header.area hheader,
    congrArg Header.fold hheader, ?_, ?_, ?_⟩
  · intro query hsuits
    by_cases hplane : query.InPlane
    · obtain ⟨a, hok, hok'⟩ := hanswer query hsuits hplane
      rw [hok, hok']
    · obtain ⟨e, hrefused⟩ := Query.exists_refusal hplane
      rw [hrefused, hrefused]
  · intro query hsuits hplane
    obtain ⟨a, hok, -⟩ := hanswer query hsuits hplane
    exact ⟨a, hok⟩
  · intro ι policy hscans calls hstays
    rw [← hsite] at hsound
    exact Cursor.play_start_eq hscans.decides hsound (hsite'.trans hsite.symm) hx.recaches.le
      hy.recaches.le hx.recaches.represents hy.recaches.represents hserves hserves' (hx.refs t ht)
      (hy.refs t' ht') hstays

/-- One starts with a single tree. -/
theorem sound_start (hrep : Represents s₀ c₀) (hhas : c₀.Has version t₀ content) :
    Sound s₀ c₀ t₀ ⟨s₀, [t₀]⟩ c₀ where
  recaches := (Grows.refl hrep).recaches
  refs := by simpa using hhas.fit.refs
  header := by simp
  seed := by simp

end Shelf
end Shelves

/-! ## Committed trees -/

namespace System

variable {seed : Seed} {x₀ x : System} {y : Shelf}

/-- No load can fail: the store is open, no failures are pending, and the zones that commits have
written to are kept. -/
structure Retains (x : System) : Prop where
  isOpen : x.store.zones.isClosed = false
  faultless : x.store.faults.pending = 0
  kept : ∀ z b p, x.filed z b p → (x.store.zones.text? z).isSome

/-- A committed tree reads the same whatever memory holds of it, however one has come to what it
holds: as it does when all its pages are loaded and held strongly, and as do all the trees that
one has softened, loaded, read or opened again. -/
theorem memory_unseen (hstarts : Starts seed x₀) (hstem : seed.stem < 2 ^ 63)
    (hrun : Relation.ReflTransGen Step x₀ x) (hcommitted : x.trunk.tree.root.isCommitted = true)
    (hfits : x.Fits) (hretains : x.Retains)
    (hcaches : Relation.ReflTransGen CacheStep ⟨x.store, [x.trunk.tree]⟩ y) (ht : t ∈ y.trees) :
    (∃ t' s, exec t.loaded y.store = (.ok t', s) ∧ s.Firm t'.root ∧
        t.ReadsAlike y.store t' s) ∧
      (x.trunk.tree.seed.Fits → ∃ t' s, exec (Tree.ofSeed t.kind t.seedText) y.store = (.ok t', s) ∧
        t.ReadsAlike y.store t' s) ∧
      ∀ z, Relation.ReflTransGen CacheStep ⟨x.store, [x.trunk.tree]⟩ z → ∀ t' ∈ z.trees,
        t.ReadsAlike y.store t' z.store := by
  obtain ⟨c₀, hx₀, -, hseed⟩ := Coherent.of_starts hstarts
  obtain ⟨c, hx, -⟩ := hx₀.run hrun
  have hsite := PageRef.site_of_committed hcommitted
  obtain ⟨p, hp, -, hstem', hversion⟩ := hx.has.fit.page
  have hsound := hx.represents.sound _ hx.root
  rw [hsite] at hp hsound
  have hkept : ∀ z b q, c.filed z b = some q → (x.store.zones.text? z).isSome :=
    fun z b q hfiled => hretains.kept z b q ((hx.filed z b q).2 hfiled)
  -- the excerpt for the root has the pages of the tree, and all of them can be loaded
  have hhas := hx.has.excerpt hsite
  have hrep := hx.represents.excerpt x.trunk.tree.root.header
  have hsupplies : Supplies x.store (c.excerpt x.trunk.tree.root.header) := by
    apply hx.represents.supplies_excerpt hsound hp hretains.isOpen hretains.faultless hkept
      hfits.zones hfits.texts hfits.tree
    · rw [hstem', hx.kin.stem, hseed]
      exact hstem
    · exact Nat.lt_of_le_of_lt hversion hfits.version
  have hreaches : ∀ {z}, Relation.ReflTransGen CacheStep ⟨x.store, [x.trunk.tree]⟩ z →
      ∃ c', z.Sound x.store (c.excerpt x.trunk.tree.root.header) x.trunk.tree c' :=
    (Shelf.sound_start hrep hhas).run hhas hcommitted hsupplies
  obtain ⟨c', hy⟩ := hreaches hcaches
  have halike : ∀ z, Relation.ReflTransGen CacheStep ⟨x.store, [x.trunk.tree]⟩ z →
      ∀ t' ∈ z.trees, t.ReadsAlike y.store t' z.store := by
    intro z hz t' ht'
    obtain ⟨c'', hz⟩ := hreaches hz
    exact hy.readsAlike hrep hhas hcommitted hsupplies hz ht ht'
  refine ⟨?_, ?_, halike⟩
  · obtain ⟨s, _, hexec, -, hfirm⟩ := Tree.loaded_warms hy.recaches.represents
      (hy.recaches.supplies hsupplies) (hy.refs t ht) (hy.isCommitted hcommitted ht)
    exact ⟨_, s, hexec, hfirm, halike _ (hcaches.tail (.load ht hexec)) _ List.mem_cons_self⟩
  · intro hseedFits
    have hheader : x.trunk.tree.root.header.Fits := hsound.fits_header hx.represents
      (fun _ _ _ => hx.represents.base_lt hkept hfits.texts) hfits.zones hfits.tree
    rcases Tree.ofSeed_cases hy.recaches.represents (hy.has hhas hcommitted ht) with
      hexec | ⟨hunfit, -⟩
    · exact ⟨_, _, hexec, halike _ (hcaches.tail (.reopen ht hexec)) _ List.mem_cons_self⟩
    · rw [hy.seed t ht, hy.header t ht] at hunfit
      exact absurd ⟨hseedFits, hheader⟩ hunfit

/-- While there has been no zone but the first, that it is kept is enough. -/
theorem Retains.of_first (hstarts : Starts seed x₀) (hrun : Relation.ReflTransGen Step x₀ x)
    (hopen : x.store.zones.isClosed = false) (hfaultless : x.store.faults.pending = 0)
    (hactive : x.store.zones.active = 1) (hfirst : (x.store.zones.text? 1).isSome) : x.Retains where
  isOpen := hopen
  faultless := hfaultless
  kept z b p hfiled := by
    obtain ⟨c₀, hx₀, -⟩ := Coherent.of_starts hstarts
    obtain ⟨c, hx, -⟩ := hx₀.run hrun
    have hle := hx.represents.backed.started z b p ((hx.filed z b p).1 hfiled)
    have hpos := filed_pos hstarts hrun hfiled
    obtain rfl : z = 1 := by omega
    exact hfirst

/-- The tree of two leaves is let go of and opened again, and an entry of its first leaf is read,
so the second leaf is not in memory.  The tree reads as it does with all pages held strongly. -/
theorem memory_unseen_half_loaded :
    ∃ x y t first s second s', Relation.ReflTransGen Step crowded x ∧
      Relation.ReflTransGen CacheStep ⟨x.store, [x.trunk.tree]⟩ y ∧ t ∈ y.trees ∧
      y.store.follow? t.root [0] = some (s, first) ∧ (y.store.hold first).copy?.isSome ∧
      y.store.follow? t.root [1] = some (s', second) ∧ (y.store.hold second).copy? = none ∧
      ∃ t' s, exec t.loaded y.store = (.ok t', s) ∧ s.Firm t'.root ∧ t.ReadsAlike y.store t' s := by
  have hplayed : ((crowded.play? (fun _ _ => true) grown).bind fun x =>
      (exec? (Tree.ofSeed x.trunk.tree.kind x.trunk.tree.seedText)
          ((exec (x.trunk.tree.root.soften 9) x.store).2.reclaim .none)).bind fun opened =>
        (exec? ((Query.find (.int 1)).run opened.1) opened.2).bind fun read =>
          (read.2.follow? opened.1.root [0]).bind fun first =>
            (read.2.follow? opened.1.root [1]).map fun second =>
              (decide (x.Fits ∧ x.trunk.tree.root.isCommitted = true ∧
                x.store.zones.isClosed = false ∧ x.store.faults.pending = 0 ∧
                x.store.zones.active = 1 ∧ (x.store.zones.text? 1).isSome ∧
                opened.1.kind = .btree),
                (read.2.hold first.2).copy?.isSome, (read.2.hold second.2).copy?.isNone)) =
      some (true, true, true) := by
    decide +kernel
  obtain ⟨x, hplay, hx⟩ := Option.bind_eq_some_iff.1 hplayed
  obtain ⟨⟨t, s₁⟩, hopened, ht⟩ := Option.bind_eq_some_iff.1 hx
  obtain ⟨⟨found, s₂⟩, hread, hs₂⟩ := Option.bind_eq_some_iff.1 ht
  obtain ⟨⟨s, first⟩, hfirst, hrest⟩ := Option.bind_eq_some_iff.1 hs₂
  obtain ⟨⟨s', second⟩, hsecond, hfacts⟩ := Option.map_eq_some_iff.1 hrest
  simp only [Prod.mk.injEq, decide_eq_true_eq, Option.isNone_iff_eq_none] at hfacts
  obtain ⟨⟨hfits, hcommitted, hopen, hfaultless, hactive, hzone, hkind⟩, hloaded,
    habsent⟩ := hfacts
  rw [exec?_eq_some] at hopened hread
  have hrun := run_iff.2 ⟨_, hplay⟩
  have hcaches : Relation.ReflTransGen CacheStep ⟨x.store, [x.trunk.tree]⟩
      ⟨s₂, [t, x.trunk.tree]⟩ := by
    have hsteps := Relation.ReflTransGen.refl (r := CacheStep) (a := ⟨x.store, [x.trunk.tree]⟩)
      |>.tail (.soften 9 List.mem_cons_self (.here _ _))
      |>.tail (.reclaim .none)
      |>.tail (.reopen List.mem_cons_self hopened)
      |>.tail (.read (.find (.int 1)) List.mem_cons_self hkind)
    rwa [hread] at hsteps
  obtain ⟨hfirm, -⟩ := memory_unseen starts_crowded (by decide) hrun hcommitted hfits
    (.of_first starts_crowded hrun hopen hfaultless hactive hzone) hcaches List.mem_cons_self
  exact ⟨x, _, t, first, s, second, s', hrun, hcaches, List.mem_cons_self, hfirst, hloaded, hsecond,
    habsent, hfirm⟩

end System
end PageTree
