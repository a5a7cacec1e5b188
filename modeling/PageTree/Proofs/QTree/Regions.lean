import PageTree.Proofs.Cursor.Culls
import PageTree.Proofs.Posts.Reads

/-!
# Regions of the plane

A cursor over a region of a Q-tree yields the entries that lie in the region and no others, in the
order of the cursor over the whole tree, and the position behind each is what it is there
(`region_tracks`).  A subtree that the cursor does not enter has no entry in the region, since the
tiles of its header cover the points of all entries beneath it.
-/

namespace PageTree

/-- The entry lies in a region of the plane. -/
def PlaneEntry.LiesIn (x y : Tile) (e : PlaneEntry) : Prop :=
  x.covers e.x ∧ y.covers e.y

instance (x y : Tile) (e : PlaneEntry) : Decidable (e.LiesIn x y) :=
  inferInstanceAs (Decidable (_ ∧ _))

namespace QTree

open StoreM Slots

variable {s : Store} {c : Chart} {height version : Nat} {n : Site} {slots : List Slot} {t : Tree}
  {f : Plane} {x y : Tile}

/-- Something between each child and its part. -/
theorem Filled.exists_between {γ δ : Type} {P : γ → List Slot → Prop} {Q : γ → δ → Prop}
    {R : δ → List Slot → Prop} {children : List γ} {parts : List (List Slot)}
    (hfilled : Filled P children parts)
    (hbetween : ∀ m ∈ children, ∀ part ∈ parts, P m part → ∃ b, R b part ∧ Q m b) :
    ∃ bs, List.Forall₂ Q children bs ∧ List.Forall₂ R bs parts := by
  induction hfilled with
  | nil => exact ⟨[], .nil, .nil⟩
  | cons hchild _ ih =>
      obtain ⟨b, hR, hQ⟩ := hbetween _ List.mem_cons_self _ List.mem_cons_self hchild.2
      obtain ⟨bs, hQs, hRs⟩ := ih fun m hm part hpart =>
        hbetween m (List.mem_cons_of_mem _ hm) part (List.mem_cons_of_mem _ hpart)
      exact ⟨b :: bs, .cons hQ hQs, .cons hR hRs⟩

/-! ## Single entries and whole subtrees -/

/-- A slot at a point overlaps a region if its entry lies in it. -/
theorem overlaps_slot {slot : Slot} (hvalid : (Point.ofSlot slot).Valid) :
    Policy.overlaps (x, y) slot.x slot.y = decide (slot.entry.LiesIn x y) := by
  obtain ⟨px, py, hx, hy, heq⟩ := hvalid
  have hslotX : slot.x = .point px := congrArg Point.x heq
  have hslotY : slot.y = .point py := congrArg Point.y heq
  rw [Bool.eq_iff_iff, decide_eq_true_iff, Policy.overlaps, Bool.and_eq_true, PlaneEntry.LiesIn,
    Slot.entry, hslotX, hslotY, Tile.intersects_point_iff hx, Tile.intersects_point_iff hy,
    Tile.base_point hx, Tile.base_point hy]

/-- Tiles around slots overlap a region in which one of the slots lies. -/
theorem Around.overlaps {h : Header} (haround : Around h slots) {slot : Slot}
    (hslot : slot ∈ slots) (hlies : slot.entry.LiesIn x y) :
    Policy.overlaps (x, y) h.x h.y = true := by
  have hx := Tile.contains_iff_covers.1 (haround.x.contains _ (List.mem_map_of_mem hslot))
  have hy := Tile.contains_iff_covers.1 (haround.y.contains _ (List.mem_map_of_mem hslot))
  rw [Policy.overlaps, Bool.and_eq_true]
  exact ⟨Tile.intersects_of_covers hlies.1 (hx _ (Tile.covers_iff.2 rfl)),
    Tile.intersects_of_covers hlies.2 (hy _ (Tile.covers_iff.2 rfl))⟩

/-- A cursor over a region enters a subtree. -/
def regionEnters (x y : Tile) (h : Header) : Bool :=
  0 < h.span && Policy.overlaps (x, y) h.x h.y

/-- A subtree that is not entered has no entry in the region. -/
theorem Holds.dropped (hmeasured : c.Measured n) (hholds : Holds c height n slots)
    (hvalid : ∀ slot ∈ slots, (Point.ofSlot slot).Valid)
    (hskip : regionEnters x y n.header = false) :
    ∀ e ∈ slots.map Slot.entry, decide (e.LiesIn x y) = false := by
  intro e he
  obtain ⟨slot, hslot, rfl⟩ := List.mem_map.1 he
  rw [decide_eq_false_iff_not]
  intro hlies
  have hne : slots ≠ [] := List.ne_nil_of_mem hslot
  have hspan : 0 < n.header.span := by
    rw [hholds.span hmeasured]
    exact List.length_pos_iff.2 hne
  rw [regionEnters, (hholds.around hmeasured hne hvalid).overlaps hslot hlies, Bool.and_true,
    decide_eq_false_iff_not] at hskip
  exact hskip hspan

/-! ## Tours of a region -/

/-- What a cursor over a region yields for a slot. -/
def regionItem? (x y : Tile) (body : PageBody Unit) (index : Nat) : Option PlaneEntry :=
  (((slotsOf body)[index]?).filter fun slot => Policy.overlaps (x, y) slot.x slot.y).map Slot.entry

/-- What a cursor over a region enters and yields. -/
def regionScheme (x y : Tile) : Scheme PlaneEntry :=
  .sifting (regionEnters x y) (regionItem? x y)

/-- What is decided about a subtree goes by its header. -/
theorem region_visits {parent : Option (Page Site)} {index depth : Nat}
    (henters : regionEnters x y n.header = true) :
    (regionScheme x y).visit c parent index n depth .descend := by
  simp [regionScheme, Scheme.sifting, Visit.ofHeader, henters]

/-- A subtree that is not entered is passed over at once. -/
theorem Holds.culls_skipped (hsound : c.Sound n) (hholds : Holds c height n slots)
    (hvalid : ∀ slot ∈ slots, (Point.ofSlot slot).Valid)
    (hskip : regionEnters x y n.header = false) :
    ∃ l, Stretch.Culls (fun e => decide (e.LiesIn x y)) l (slots.map Slot.entry) ∧
      ∀ parent index depth, c.Tours (regionScheme x y) parent index depth n l := by
  have hculls := Stretch.Culls.passed (hholds.dropped hsound.measured hvalid hskip)
  rw [List.length_map, ← hholds.span hsound.measured] at hculls
  exact ⟨_, hculls, fun _ _ _ =>
    .skip (by simp [regionScheme, Scheme.sifting, Visit.ofHeader, hskip])⟩

/-- The stretches of a leaf are its entries, of which those in the region are yielded. -/
theorem slotStretches_region (hvalid : ∀ slot ∈ slots, (Point.ofSlot slot).Valid) :
    Chart.slotStretches (regionScheme x y) (.qtreeLeaf slots) slots.length =
      (slots.map Slot.entry).map fun e => ⟨1, if decide (e.LiesIn x y) then some e else none⟩ := by
  refine List.ext_getElem (by simp [Chart.slotStretches]) fun index _ hindex => ?_
  rw [List.length_map, List.length_map] at hindex
  have hslot := overlaps_slot (x := x) (y := y) (hvalid _ (List.getElem_mem hindex))
  simp only [Chart.slotStretches, List.getElem_map, List.getElem_range, regionScheme,
    Scheme.sifting, regionItem?, slotsOf, List.getElem?_eq_getElem hindex, Option.filter_some,
    hslot]
  split <;> rfl

/-- A cursor over a region passes over all entries beneath a site and yields those that lie in the
region. -/
theorem Holds.culls (hsound : c.Sound n) (hholds : Holds c height n slots)
    (hvalid : ∀ slot ∈ slots, (Point.ofSlot slot).Valid) :
    ∃ l, Stretch.Culls (fun e => decide (e.LiesIn x y)) l (slots.map Slot.entry) ∧
      ∀ parent index depth, c.Tours (regionScheme x y) parent index depth n l := by
  induction height generalizing n slots with
  | zero =>
      cases henters : regionEnters x y n.header with
      | false => exact hholds.culls_skipped hsound hvalid henters
      | true =>
          obtain ⟨-, ⟨version, stem, body⟩, hp, rfl⟩ := hholds
          have hculls := Stretch.Culls.each (fun e : PlaneEntry => decide (e.LiesIn x y))
            (slots.map Slot.entry)
          rw [← slotStretches_region hvalid] at hculls
          exact ⟨_, hculls, fun _ _ _ => .leaf (region_visits henters) hp rfl⟩
  | succ height ih =>
      cases henters : regionEnters x y n.header with
      | false => exact hholds.culls_skipped hsound hvalid henters
      | true =>
          obtain ⟨⟨version, stem, body⟩, children, parts, hp, rfl, hfilled, rfl⟩ := hholds
          obtain ⟨tours, htours, hculls⟩ := hfilled.exists_between fun m hm part hpart hholds =>
            ih (hsound.child hp hm) hholds fun slot hslot =>
              hvalid slot (List.mem_flatten_of_mem hpart hslot)
          rw [← List.forall₂_map_right_iff] at hculls
          rw [List.map_flatten]
          refine ⟨tours.flatten, .flatten hculls, fun parent index depth =>
            .node (region_visits henters) hp rfl tours htours.length_eq fun i h h' => ?_⟩
          exact htours.get h h' _ i (depth + 1)

/-- The tour of a whole tree that a cursor over a region makes. -/
theorem Contains.culls (hrep : Represents s c) (hcontains : Contains c version t f) :
    ∃ es, Lists es f ∧ c.HasItems (fun body => (slotsOf body).map Slot.entry) t.root es ∧
      ∃ l, Stretch.Culls (fun e => decide (e.LiesIn x y)) l es ∧
        c.Tours (regionScheme x y) none 0 0 t.root.site l := by
  obtain ⟨slots, hplaced, rfl, height, slots', hsub, hperm⟩ := hcontains.root
  have hplaced' := hplaced.perm hperm
  obtain ⟨l, hculls, htours⟩ := hsub.holds.culls (x := x) (y := y)
    (hrep.sound t.root hsub.fit.refs) hplaced'.valid
  have hkind : t.root.tree = .qtree := by
    obtain ⟨q, hq, htree, -⟩ := hsub.fit.page
    exact (hrep.fits t.root q hsub.fit.refs hq).1.trans htree
  obtain ⟨es, hitems⟩ := hrep.hasItems Policy.tiles_yieldsAll hsub.fit.refs hkind
  obtain rfl : es = slots'.map Slot.entry := by
    obtain ⟨depth, shapes, hreads, rfl⟩ := hitems.reads
    rw [← hsub.holds.reads hreads, List.map_flatMap]
  refine ⟨_, ?_, hitems, l, hculls, htours none 0 0⟩
  rw [← plane_perm hplaced hperm]
  exact lists_entries hplaced'

/-- A cursor over a region of a Q-tree yields exactly the entries that lie in the region, each once
and in the order of the cursor over the whole tree, and after each of them its position is one more
than the index of the entry in the whole tree. -/
theorem region_tracks (hrep : Represents s c) (hserves : Serves s c)
    (hcontains : Contains c version t f) (x y : Tile) :
    ∃ es, Lists es f ∧ (exec (entries t.root) s).1 = .ok es ∧ ∀ count,
      ((CursorM.track count).exec (.start t.root Policy.tiles) s).1.1 =
        .ok ((es.zipIdx 1).take count) ∧
      ((CursorM.track count).exec (.start t.root (Policy.region x y)) s).1.1 =
        .ok (((es.zipIdx 1).filter fun e => e.1.LiesIn x y).take count) := by
  obtain ⟨es, hlists, hitems, l, hculls, htours⟩ := hcontains.culls (x := x) (y := y) hrep
  refine ⟨es, hlists, ?_, fun count => ⟨?_, ?_⟩⟩
  · obtain ⟨leaves, s', c', hexec, -, hleaves⟩ := (hitems.leaves_runs hrep).succeeds hserves
    rw [entries, exec_bind, hexec, ← hleaves]
    simp only [slotsOf_shape, ← List.map_flatMap]
    rfl
  · have hstands := Cursor.stands_start Policy.tiles_yieldsAll.follows hitems.refs hitems.tours
    obtain ⟨_, k', s', c', hexec, -, rfl⟩ :=
      (hstands.track_moves hrep (.all es) count).succeeds hserves
    rw [hexec, List.filter_true]
    rfl
  · have hstands := Cursor.stands_start (Policy.region_sifts x y).follows hitems.refs htours
    obtain ⟨_, k', s', c', hexec, -, rfl⟩ :=
      (hstands.track_moves hrep hculls count).succeeds hserves
    rw [hexec]
    rfl

/-- A Q-tree of three entries, the second of which lies far from the others. -/
def threePoints : StoreM Tree := do
  let t ← Tree.empty ⟨.qtree, 1, ⟨0⟩, ⟨0⟩⟩
  let t ← update t (.int 1) 0 0 (.int 10) 1 0
  let t ← update t (.int 2) 4000 0 (.int 20) 1 0
  update t (.int 3) 5 7 (.int 30) 1 0

/-- A cursor over the first eight columns passes over the second of three entries. -/
theorem region_tracks_three_points :
    ∃ t s c, exec threePoints (.create Settings.forTrials false ⟨0⟩) = (.ok t, s) ∧
      Represents s c ∧ Serves s c ∧ (∃ f, Contains c 1 t f) ∧
      ((CursorM.track 3).exec (.start t.root (Policy.region (.ofRank 3 0) (.ofRank 58 0))) s).1.1 =
        .ok [(⟨.int 1, 0, 0, .int 10⟩, 1), (⟨.int 3, 5, 7, .int 30⟩, 3)] := by
  have hruns : Runs threePoints (.create Settings.forTrials false ⟨0⟩) .blank fun t _ c =>
      ∃ f, Contains c 1 t f := by
    refine Runs.bind (empty_runs (represents_blank _) ⟨.qtree, 1, ⟨0⟩, ⟨0⟩⟩ rfl) ?_
    rintro t₀ s₀ c₀ hgrows₀ ⟨-, hempty⟩
    refine Runs.bind (update_runs hgrows₀.represents (hempty.raise (Nat.zero_le 1)) (.int 1)
      (.int 10) 0 (by decide) (by decide)) ?_
    rintro t₁ s₁ c₁ hgrows₁ ⟨-, hone⟩
    refine Runs.bind (update_runs hgrows₁.represents hone (.int 2) (.int 20) 0 (by decide)
      (by decide)) ?_
    rintro t₂ s₂ c₂ hgrows₂ ⟨-, htwo⟩
    refine (update_runs hgrows₂.represents htwo (.int 3) (.int 30) 0 (by decide)
      (by decide)).mono ?_
    exact fun t₃ s₃ c₃ _ hthree => ⟨_, hthree.2⟩
  have hserves : Serves (.create Settings.forTrials false ⟨0⟩) .blank :=
    Or.inl fun r hr => absurd hr id
  obtain ⟨t, s, c, hexec, hgrows, f, hcontains⟩ := hruns.succeeds hserves
  have hserves' := hgrows.serves hserves
  obtain ⟨es, -, hentries, htracks⟩ := region_tracks hgrows.represents hserves' hcontains
    (.ofRank 3 0) (.ofRank 58 0)
  have hes : es = [⟨.int 1, 0, 0, .int 10⟩, ⟨.int 2, 4000, 0, .int 20⟩,
      ⟨.int 3, 5, 7, .int 30⟩] := by
    have hread : (exec (threePoints >>= fun t => entries t.root)
        (.create Settings.forTrials false ⟨0⟩)).1 = .ok [⟨.int 1, 0, 0, .int 10⟩,
          ⟨.int 2, 4000, 0, .int 20⟩, ⟨.int 3, 5, 7, .int 30⟩] := by
      decide +kernel
    rw [exec_bind, hexec] at hread
    exact Except.ok.inj (hentries.symm.trans hread)
  refine ⟨t, s, c, hexec, hgrows.represents, hserves', ⟨f, hcontains⟩, ?_⟩
  rw [(htracks 3).2, hes]
  decide +kernel

end QTree
end PageTree
