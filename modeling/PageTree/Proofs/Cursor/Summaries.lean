import Mathlib.Data.List.Infix
import PageTree.Folding
import PageTree.Proofs.BTree.Derived
import PageTree.Proofs.Cursor.Culls
import PageTree.Proofs.Cursor.Mirrors
import PageTree.Proofs.Folds

/-!
# What a cursor of limited depth yields

After a change the folds of some subtrees are known and those of others are not, so a cursor of
limited depth yields summaries and single entries side by side.  Its items sum up runs of entries,
one after another (`BTree.Holds.summaries`): no entry is left out and none is summed up twice, and
wherever the cursor comes to a subtree that can be summed up it does not enter it.  The
folds are those of the values in one go, whatever treatments have led to the tree, and the position
behind an item is the number of entries in all runs up to it (`BTree.derived_summaries`).
-/

namespace PageTree

open StoreM

/-! ## Runs -/

/-- Stretches that divide a list into runs: each yields an item for a run of as many entries. -/
inductive Stretch.Divides {ι α : Type} (R : ι → List α → Prop) :
    List (Stretch ι) → List α → Prop where
  | nil : Divides R [] []
  | cons {item l run rest} (yields : R item run) (divides : Divides R l rest) :
      Divides R (⟨run.length, some item⟩ :: l) (run ++ rest)

namespace Stretch.Divides

variable {ι α : Type} {R : ι → List α → Prop} {l l' : List (Stretch ι)} {as as' : List α}

/-- A single stretch may yield an item for the whole list. -/
theorem whole {item : ι} (hyields : R item as) : Divides R [⟨as.length, some item⟩] as := by
  have hwhole := Divides.nil.cons hyields
  rwa [List.append_nil] at hwhole

theorem append (hdivides : Divides R l as) (hdivides' : Divides R l' as') :
    Divides R (l ++ l') (as ++ as') := by
  induction hdivides with
  | nil => exact hdivides'
  | cons yields _ ih =>
      rw [List.append_assoc]
      exact ih.cons yields

theorem flatten {parts : List (List (Stretch ι))} {lists : List (List α)}
    (hparts : List.Forall₂ (Divides R) parts lists) : Divides R parts.flatten lists.flatten := by
  induction hparts with
  | nil => exact .nil
  | cons hpart _ ih => exact hpart.append ih

/-- Items taken one at a time. -/
theorem each {R : α → List α → Prop} {as : List α} (hyields : ∀ a ∈ as, R a [a]) :
    Divides R (as.map single) as := by
  induction as with
  | nil => exact .nil
  | cons a as ih =>
      exact (ih fun a' ha' => hyields a' (List.mem_cons_of_mem _ ha')).cons
        (hyields a List.mem_cons_self)

/-- The mark of an item is the number of entries in the runs up to its own. -/
theorem marks (hdivides : Divides R l as) :
    ∃ items runs, List.Forall₂ R items runs ∧ runs.flatten = as ∧ ∀ start,
      Stretch.marks start l =
        items.zip (runs.inits.tail.map fun front => start + front.flatten.length) := by
  induction hdivides with
  | nil => exact ⟨[], [], .nil, rfl, fun _ => rfl⟩
  | @cons item l run rest yields _ ih =>
      obtain ⟨items, runs, hitems, rfl, hmarks⟩ := ih
      -- the runs in front of a later item are this one and those in front of it without this one
      have hinits : runs.inits = [] :: runs.inits.tail := by
        cases runs <;> simp
      refine ⟨item :: items, run :: runs, .cons yields hitems, rfl, fun start => ?_⟩
      rw [Stretch.marks, hmarks, List.inits_cons, List.tail_cons, hinits]
      simp [Function.comp_def, Nat.add_assoc]

end Stretch.Divides

/-- A cursor of limited depth comes to a site at a depth: it enters every site above. -/
inductive Chart.ComesTo (c : Chart) (maxDepth : Nat) (root : Site) :
    (depth : Nat) → Site → Prop where
  | root : ComesTo c maxDepth root 0 root
  | child {depth : Nat} {n m : Site} {p : Page Site} (above : ComesTo c maxDepth root depth n)
      (entered : n.Entered maxDepth depth) (page : c.page n = some p) (mem : m ∈ p.children) :
      ComesTo c maxDepth root (depth + 1) m

namespace BTree

variable {s : Store} {c : Chart} {f : PageRef.Folding} {maxDepth height version : Nat}
  {n root : Site} {es : List Entry} {t : Tree}

/-! ## Subtrees -/

/-- The first key of a page is the least key beneath it. -/
theorem Holds.firstKey {p : Page Site} (hholds : Holds c height n es) (hpage : c.page n = some p)
    (hne : es ≠ []) : es.head?.map Prod.fst = some (Policy.firstKeyOf p.body.shape) := by
  cases hnode : p.isNode with
  | false =>
      rw [hholds.of_leaf hpage hnode]
      obtain ⟨e, es, rfl⟩ := List.exists_cons_of_ne_nil hne
      rfl
  | true =>
      obtain ⟨below, children, parts, hbody, hkeyed, rfl⟩ := hholds.of_isNode hpage hnode
      rw [hbody, hkeyed.head_key]
      cases children with
      | nil => exact absurd (hkeyed.flatten_eq_nil.2 rfl) hne
      | cons child children => rfl

/-- A fold that is known folds the values beneath a site. -/
theorem Holds.fold_eq (hsound : c.Sound n) (hholds : Holds c height n es) (hlawful : f.Lawful)
    (honly : ∀ g, c.foldings g → g = f) (hdefined : n.header.fold.isDefined = true) :
    n.header.fold = f.total (es.map Prod.snd) := by
  obtain ⟨p, hp⟩ := hsound.page
  obtain ⟨depth, shapes, hgathers, hfolded⟩ := hsound.folded hp hdefined
  have hreads : c.Reads (depth + 1) n shapes := ⟨p, hp, hgathers⟩
  have hkinds := hreads.treeKind hsound hp
  rw [hholds.treeKind hp] at hkinds
  rw [hfolded.eq_total hlawful honly, flatMap_values hkinds, hholds.reads hreads]

/-! ## Summaries -/

/-- An item sums up a run of entries: it is the only entry of the run, in a leaf that is entered, or
a whole subtree has the run, with a root that is deep enough and has a known fold, and the item is
of the least key of the run and the fold of its values. -/
inductive Sums (c : Chart) (f : PageRef.Folding) (root : Site) (maxDepth : Nat) :
    Entry → List Entry → Prop where
  | entry {depth : Nat} {n : Site} {es : List Entry} {e : Entry}
      (comes : c.ComesTo maxDepth root depth n) (entered : n.Entered maxDepth depth)
      (leaf : Holds c 0 n es) (mem : e ∈ es) : Sums c f root maxDepth e [e]
  | subtree {depth height : Nat} {n : Site} {key : Value} {run : List Entry}
      (comes : c.ComesTo maxDepth root depth n) (deep : maxDepth ≤ depth)
      (known : n.header.fold.isDefined = true) (holds : Holds c height n run)
      (least : run.head?.map Prod.fst = some key) :
      Sums c f root maxDepth (key, f.total (run.map Prod.snd)) run

/-- The stretches beneath a site divide its entries into runs and sum these up. -/
theorem Holds.summaries (hlawful : f.Lawful) (honly : ∀ g, c.foldings g → g = f)
    {parent : Option (Page Site)} {index depth : Nat} {l : List (Stretch Entry)}
    (htours : c.Tours (.depthLimited maxDepth) parent index depth n l) (hsound : c.Sound n)
    (hholds : Holds c height n es) (hcomes : c.ComesTo maxDepth root depth n)
    (hleast : ∀ p, c.page n = some p →
      es.head?.map Prod.fst = some (Policy.leastKeyOf parent index p)) :
    Stretch.Divides (Sums c f root maxDepth) l es := by
  induction htours generalizing height es with
  | skip visit =>
      -- a cursor of limited depth passes over nothing
      rcases Scheme.depthLimited_cases visit with ⟨-, hdecision⟩ | ⟨-, -, p, -, hdecision⟩ <;>
        cases hdecision
  | emit visit =>
      rcases Scheme.depthLimited_cases visit with
        ⟨-, hdecision⟩ | ⟨hdeep, hdefined, p, hp, hdecision⟩
      · cases hdecision
      · cases hdecision
        rw [hholds.span hsound.measured, hholds.fold_eq hsound hlawful honly hdefined]
        exact .whole (.subtree hcomes hdeep hdefined hholds (hleast p hp))
  | @leaf parent index depth n p visit page isLeaf =>
      obtain ⟨v, stem, body⟩ := p
      obtain rfl : body = .btreeLeaf es := hholds.of_leaf page isLeaf
      have hstretches : Chart.slotStretches (.depthLimited maxDepth) (.btreeLeaf es) es.length =
          es.map Stretch.single :=
        Chart.slotStretches_items (show (slotsOf (.btreeLeaf es)).length = es.length from rfl)
      have hleaf : Holds c 0 n es := ⟨hholds.sorted, _, page, rfl⟩
      exact hstretches ▸ Stretch.Divides.each fun e he =>
        .entry hcomes (Scheme.entered_of_descend visit) hleaf he
  | @node parent index depth n p visit page isNode tours length children ih =>
      obtain ⟨v, stem, body⟩ := p
      obtain ⟨below, entries, parts, rfl, hkeyed, rfl⟩ := hholds.of_isNode page isNode
      have hentered := Scheme.entered_of_descend visit
      obtain ⟨hlength, hget⟩ := List.forall₂_iff_get.1 hkeyed
      refine Stretch.Divides.flatten (List.forall₂_iff_get.2 ⟨?_, fun i h h' => ?_⟩)
      · rw [← length, ← hlength]
        exact List.length_map _
      · have hi : i < entries.length := hlength ▸ h'
        have hi' : i < (entries.map Prod.snd).length := by simpa using hi
        obtain ⟨hkey, hpart⟩ := hget i hi h'
        have hpart' : Holds c below ((entries.map Prod.snd).get ⟨i, hi'⟩) (parts.get ⟨i, h'⟩) := by
          simpa using hpart
        have hmem := List.get_mem (entries.map Prod.snd) ⟨i, hi'⟩
        refine ih i hi' h (hsound.child page hmem) hpart' (hcomes.child hentered page hmem) ?_
        -- the key of a child is the one that the node has for it
        intro q _
        rw [hkey, Policy.leastKeyOf, List.getElem?_eq_getElem hi]
        rfl

/-! ## Whole trees -/

/-- A cursor of limited depth yields items that sum up runs of the entries, and its position behind
an item is the number of entries in the runs up to that item. -/
theorem Contains.summaries (hrep : Represents s c) (hcontains : Contains c version t es)
    (hne : es ≠ []) (hlawful : f.Lawful) (honly : ∀ g, c.foldings g → g = f) (maxDepth : Nat) :
    ∃ items runs, List.Forall₂ (Sums c f t.root.site maxDepth) items runs ∧ runs.flatten = es ∧
      ∀ count, Moves (CursorM.track count) (.start t.root (.depthLimited maxDepth)) s c
        (fun tracked _ _ => tracked =
          (items.zip (runs.inits.tail.map fun front => front.flatten.length)).take count)
        (fun _ _ => True) := by
  obtain ⟨height, hsub⟩ := hcontains.root
  have hr := hsub.fit.refs
  have hsound := hrep.sound t.root hr
  obtain ⟨l, htours⟩ := hsound.exists_tours (Scheme.total_depthLimited maxDepth) none 0 0
  have hdivides := hsub.holds.summaries hlawful honly htours hsound .root fun p hp =>
    hsub.holds.firstKey hp hne
  obtain ⟨items, runs, hitems, hruns, hmarks⟩ := hdivides.marks
  refine ⟨items, runs, hitems, hruns, fun count => ?_⟩
  have hstands := Cursor.stands_start (Policy.follows_depthLimited maxDepth) hr htours
  have hmoves := hstands.marks_moves hrep count
  rw [hmarks] at hmoves
  simpa [Cursor.start] using hmoves

/-- Let another tree be derived from one that has no folds but those of a lawful folding, by
treatments at versions that do not go back, of which none folds otherwise.  What a cursor of limited
depth yields then sums up consecutive runs, which are all entries of the tree that is derived, and
the position behind each item is the number of entries in the runs up to it. -/
theorem derived_summaries (hrep : Represents s c) (hzones : s.zones.Sound)
    (hcontains : Contains c version t es) (hlawful : f.Lawful)
    (honly : ∀ g, c.foldings g → g = f) (steps : List (Nat × Treatment))
    (hversions : (steps.map Prod.fst).Pairwise (· ≤ ·))
    (hstart : ∀ step ∈ steps, version ≤ step.1)
    (hreduces : ∀ step ∈ steps, ∀ g, step.2 = .reduce g → g = f) :
    (Resident s c → s.zones.isClosed = false →
      ∃ t' s', exec (derive t steps) s = (.ok t', s')) ∧
    ∀ t' s', exec (derive t steps) s = (.ok t', s') → ∃ c' es',
      es' = (steps.map Prod.snd).foldl Treatment.onListing es ∧ Represents s' c' ∧
      Contains c' ((steps.map Prod.fst).getLastD version) t' es' ∧
      (Resident s c → Resident s' c') ∧
      (es' ≠ [] → ∀ maxDepth, ∃ items runs,
        List.Forall₂ (Sums c' f t'.root.site maxDepth) items runs ∧ runs.flatten = es' ∧
        (Serves s' c' → ∀ count,
          ((CursorM.track count).exec (.start t'.root (.depthLimited maxDepth)) s').1.1 =
            .ok ((items.zip (runs.inits.tail.map fun front => front.flatten.length)).take
              count))) := by
  constructor
  · exact derive_succeeds hrep hzones hcontains steps hversions hstart
  · intro t' s' hexec
    obtain ⟨c', hproceeds, hcontains'⟩ :=
      derive_of_ok hrep hzones hcontains steps hversions hstart hexec
    refine ⟨c', _, rfl, hproceeds.represents, hcontains', hproceeds.resident,
      fun hne maxDepth => ?_⟩
    have honly' : ∀ g, c'.foldings g → g = f := by
      intro g hg
      rcases hproceeds.foldings g hg with hold | ⟨step, hmem, hstep⟩
      · exact honly g hold
      · exact hreduces step hmem g hstep
    obtain ⟨items, runs, hitems, hruns, hmoves⟩ :=
      hcontains'.summaries hproceeds.represents hne hlawful honly' maxDepth
    refine ⟨items, runs, hitems, hruns, fun hserves count => ?_⟩
    obtain ⟨_, k, s₁, c₁, htracked, -, rfl⟩ := (hmoves count).succeeds hserves
    rw [htracked]

/-- The sum of all values, and a change of one of them after it. -/
def sumThenUpdate : List (Nat × Treatment) :=
  [(2, .reduce (NamedFolding.sum.folding (.int 0))), (3, .change (.update (.int 2) (.int 21)) 0)]

/-- A change leaves the folds of other leaves and nodes, which are yielded beside the changed
entry. -/
theorem derived_summaries_after_update :
    ∃ t s c t' s', exec (do derive (← Tree.empty ⟨.btree, 1, ⟨0⟩, ⟨0⟩⟩) fourPuts)
        (.create { Settings.forTrials with pageSplitSize := 0 } false ⟨0⟩) = (.ok t, s) ∧
      Represents s c ∧ s.zones.Sound ∧ Resident s c ∧ (∀ g, ¬ c.foldings g) ∧
      Contains c 1 t [(.int 1, .int 10), (.int 2, .int 20), (.int 3, .int 30), (.int 4, .int 40)] ∧
      exec (derive t sumThenUpdate) s = (.ok t', s') ∧
      ((CursorM.track 5).exec (.start t'.root (.depthLimited 1)) s').1.1 =
        .ok [((.int 1, .int 10), 1), ((.int 2, .int 21), 2), ((.int 3, .int 70), 4)] := by
  obtain ⟨t, s, c, hexec, hproceeds, hall, hcontains⟩ := exists_derived (s := .create
    { Settings.forTrials with pageSplitSize := 0 } false ⟨0⟩) Zones.sound_start rfl
    ⟨.btree, 1, ⟨0⟩, ⟨0⟩⟩ rfl fourPuts (by decide)
  have hnone : ∀ g, ¬ c.foldings g := by
    intro g hg
    rcases hproceeds.foldings g hg with hold | ⟨step, hmem, hstep⟩
    · exact hold
    · simp only [fourPuts, List.mem_cons, List.not_mem_nil, or_false] at hmem
      rcases hmem with rfl | rfl | rfl | rfl <;> cases hstep
  have hreduces : ∀ step ∈ sumThenUpdate, ∀ g, step.2 = .reduce g →
      g = NamedFolding.sum.folding (.int 0) := by
    intro step hmem g hstep
    simp only [sumThenUpdate, List.mem_cons, List.not_mem_nil, or_false] at hmem
    rcases hmem with rfl | rfl <;> cases hstep
    rfl
  obtain ⟨hsucceeds, -⟩ := derived_summaries hproceeds.represents hproceeds.zones hcontains
    NamedFolding.lawful_sum (fun g hg => absurd hg (hnone g)) sumThenUpdate (by decide) (by decide)
    hreduces
  obtain ⟨t', s', hexec'⟩ := hsucceeds hall hproceeds.isClosed
  have hplayed : exec ((do derive (← Tree.empty ⟨.btree, 1, ⟨0⟩, ⟨0⟩⟩) fourPuts) >>= fun t =>
      derive t sumThenUpdate) (.create { Settings.forTrials with pageSplitSize := 0 } false ⟨0⟩) =
        (.ok t', s') := by
    rw [exec_bind, hexec]
    exact hexec'
  have hread : ((exec? ((do derive (← Tree.empty ⟨.btree, 1, ⟨0⟩, ⟨0⟩⟩) fourPuts) >>= fun t =>
        derive t sumThenUpdate)
      (.create { Settings.forTrials with pageSplitSize := 0 } false ⟨0⟩)).map fun made =>
        ((CursorM.track 5).exec (.start made.1.root (.depthLimited 1)) made.2).1.1) =
        some (.ok [((.int 1, .int 10), 1), ((.int 2, .int 21), 2), ((.int 3, .int 70), 4)]) := by
    decide +kernel
  rw [exec?_eq_some.2 hplayed, Option.map_some, Option.some.injEq] at hread
  exact ⟨t, s, c, t', s', hexec, hproceeds.represents, hproceeds.zones, hall, hnone, hcontains,
    hexec', hread⟩

end BTree
end PageTree
