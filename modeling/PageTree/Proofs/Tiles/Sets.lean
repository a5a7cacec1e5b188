import Mathlib.Order.Interval.Finset.Nat
import PageTree.Proofs.Tiles.Words
import PageTree.QTree.Slots

/-!
# Tiles as sets of coordinates

A tile stands for the coordinates that it covers, as many as its rank says.  Containment is
inclusion of these sets, tiles that meet are nested, and the union of two tiles is the least tile
around both sets.  A canonical tile is settled by the tiles that contain it, so unions may be
taken in any order (`Tile.bounds_perm`), and no union has a lower rank than what it is made of.
-/

namespace PageTree
namespace Tile

variable {a b c t : Tile} {n : Nat}

/-- The coordinates of a tile. -/
def coordinates (t : Tile) : Finset Nat :=
  Finset.Ico t.base (t.base + 2 ^ t.rank)

theorem mem_coordinates : n ∈ t.coordinates ↔ t.covers n :=
  Finset.mem_Ico.trans covers_iff_base.symm

theorem card_coordinates (t : Tile) : t.coordinates.card = 2 ^ t.rank := by
  rw [coordinates, Nat.card_Ico, Nat.add_sub_cancel_left]

/-- Every coordinate of a tile has as many bits as coordinates have. -/
theorem Proper.coordinate_le (ht : t.Proper) (hn : n ∈ t.coordinates) : n ≤ maxCoordinate := by
  have hbits : n / 2 ^ coordinateBits = 0 := by
    rw [div_eq_of_le ht (covers_iff.1 (mem_coordinates.1 hn)), Nat.div_eq_of_lt t.base_lt]
  have hlt : n < 2 ^ coordinateBits := (Nat.div_eq_zero_iff_lt (Nat.two_pow_pos _)).1 hbits
  exact Nat.le_sub_one_of_lt hlt

theorem contains_iff_subset : a.contains b = true ↔ b.coordinates ⊆ a.coordinates := by
  simp only [contains_iff_covers, Finset.subset_iff, mem_coordinates]

/-- Tiles overlap where they share a coordinate. -/
theorem intersects_iff_inter :
    a.intersects b = true ↔ (a.coordinates ∩ b.coordinates).Nonempty := by
  constructor
  · intro hoverlap
    rw [intersects, Bool.or_eq_true, contains_iff_subset, contains_iff_subset] at hoverlap
    have hfirst (t : Tile) : t.base ∈ t.coordinates :=
      Finset.left_mem_Ico.2 (Nat.lt_add_of_pos_right (Nat.two_pow_pos _))
    rcases hoverlap with hsubset | hsubset
    · exact ⟨b.base, Finset.mem_inter.2 ⟨hsubset (hfirst b), hfirst b⟩⟩
    · exact ⟨a.base, Finset.mem_inter.2 ⟨hfirst a, hsubset (hfirst a)⟩⟩
  · rintro ⟨n, hn⟩
    obtain ⟨ha, hb⟩ := Finset.mem_inter.1 hn
    exact intersects_of_covers (mem_coordinates.1 ha) (mem_coordinates.1 hb)

/-! ## What contains a union -/

/-- A tile contains a union if it contains both sides of it. -/
theorem contains_union_iff (ha : a.Proper) (hb : b.Proper) :
    t.contains (a.union b) = true ↔ t.contains a = true ∧ t.contains b = true := by
  constructor
  · intro hunion
    exact ⟨contains_trans hunion (contains_union_left ha hb),
      contains_trans hunion (contains_union_right ha hb)⟩
  · rintro ⟨hcontainsa, hcontainsb⟩
    refine (smallest_union ha hb).least t fun u hu => ?_
    simp only [List.mem_cons, List.not_mem_nil, or_false] at hu
    rcases hu with rfl | rfl
    · exact hcontainsa
    · exact hcontainsb

theorem canonical_union (a b : Tile) : (a.union b).Canonical :=
  canonical_ofRank _ _

theorem proper_union (a b : Tile) : (a.union b).Proper :=
  (canonical_union a b).proper

/-- A canonical tile is settled by what contains it. -/
theorem Canonical.eq_of_contains_iff (ha : a.Canonical) (hb : b.Canonical)
    (hsame : ∀ t : Tile, t.contains a = true ↔ t.contains b = true) : a = b :=
  ha.eq_of_contains hb ((hsame a).1 (contains_self a)) ((hsame b).2 (contains_self b))

theorem union_comm (ha : a.Proper) (hb : b.Proper) : a.union b = b.union a := by
  refine (canonical_union a b).eq_of_contains_iff (canonical_union b a) fun t => ?_
  rw [contains_union_iff ha hb, contains_union_iff hb ha, and_comm]

theorem union_assoc (ha : a.Proper) (hb : b.Proper) (hc : c.Proper) :
    (a.union b).union c = a.union (b.union c) := by
  refine (canonical_union _ c).eq_of_contains_iff (canonical_union a _) fun t => ?_
  rw [contains_union_iff (proper_union a b) hc, contains_union_iff ha hb,
    contains_union_iff ha (proper_union b c), contains_union_iff hb hc, and_assoc]

/-! ## Bounds in any order -/

/-- A tile contains a fold of unions if it contains all that has joined. -/
theorem contains_foldl_iff (ts : List Tile) (start : Tile) (hstart : start.Proper)
    (hts : ∀ u ∈ ts, u.Proper) :
    t.contains (ts.foldl union start) = true ↔ ∀ u ∈ start :: ts, t.contains u = true := by
  induction ts generalizing start with
  | nil => simp
  | cons u ts ih =>
      obtain ⟨hu, hts⟩ := List.forall_mem_cons.1 hts
      rw [List.foldl_cons, ih _ (proper_union start u) hts, List.forall_mem_cons,
        contains_union_iff hstart hu, List.forall_mem_cons, List.forall_mem_cons, and_assoc]

/-- A fold of unions is canonical once anything has joined. -/
theorem canonical_foldl (ts : List Tile) (start u : Tile) :
    ((u :: ts).foldl union start).Canonical := by
  induction ts generalizing start u with
  | nil => exact canonical_union start u
  | cons v ts ih =>
      rw [List.foldl_cons]
      exact ih (start.union u) v

/-- It does not matter with which tile a fold of unions starts, nor in which order the others
join. -/
theorem foldl_union_perm {ts ts' : List Tile} {start start' : Tile}
    (hperm : (start :: ts).Perm (start' :: ts')) (hproper : ∀ u ∈ start :: ts, u.Proper) :
    ts.foldl union start = ts'.foldl union start' := by
  have hproper' : ∀ u ∈ start' :: ts', u.Proper := fun u hu => hproper u (hperm.mem_iff.2 hu)
  have hlength := hperm.length_eq
  cases ts with
  | nil =>
      -- a tile alone is left as it is, canonical or not
      obtain ⟨rfl, rfl⟩ := List.cons.inj (List.singleton_perm.1 hperm)
      rfl
  | cons u ts =>
      cases ts' with
      | nil => simp at hlength
      | cons u' ts' =>
          refine (canonical_foldl ts start u).eq_of_contains_iff (canonical_foldl ts' start' u')
            fun t => ?_
          obtain ⟨hstart, hts⟩ := List.forall_mem_cons.1 hproper
          obtain ⟨hstart', hts'⟩ := List.forall_mem_cons.1 hproper'
          rw [contains_foldl_iff _ start hstart hts, contains_foldl_iff _ start' hstart' hts']
          exact ⟨fun hall u hu => hall u (hperm.mem_iff.2 hu),
            fun hall u hu => hall u (hperm.mem_iff.1 hu)⟩

/-- The smallest tiles around pairs of tiles do not depend on the order of the pairs. -/
theorem bounds_perm {ts ts' : List (Tile × Tile)} (hperm : ts.Perm ts')
    (hproper : ∀ u ∈ ts, u.1.Proper ∧ u.2.Proper) : bounds ts = bounds ts' := by
  cases ts with
  | nil =>
      rw [List.nil_perm.1 hperm]
  | cons t ts =>
      cases ts' with
      | nil => exact absurd hperm.length_eq (by simp)
      | cons t' ts' =>
          have hfst : ∀ u ∈ (t :: ts).map Prod.fst, u.Proper :=
            List.forall_mem_map.2 fun u hu => (hproper u hu).1
          have hsnd : ∀ u ∈ (t :: ts).map Prod.snd, u.Proper :=
            List.forall_mem_map.2 fun u hu => (hproper u hu).2
          rw [bounds, bounds, foldl_unionBoth, foldl_unionBoth,
            foldl_union_perm (hperm.map Prod.fst) hfst,
            foldl_union_perm (hperm.map Prod.snd) hsnd]

/-! ## Growth -/

theorem rank_le_union (ha : a.Proper) (hb : b.Proper) :
    a.rank ≤ (a.union b).rank ∧ b.rank ≤ (a.union b).rank := by
  obtain ⟨hranka, hrankb, -, -⟩ := union_spec ha hb
  exact ⟨hranka, hrankb⟩

end Tile

/-- The growth of tiles is the difference between the ranks of the unions and the ranks of the
tiles, nothing being cut off. -/
theorem Point.growth_add_ranks (p : Point) (h : Header) (hx : h.x.Proper) (hy : h.y.Proper)
    (hpx : p.x.Proper) (hpy : p.y.Proper) :
    p.growth h + (h.x.rank + h.y.rank) = (h.x.union p.x).rank + (h.y.union p.y).rank := by
  have hrankx := (Tile.rank_le_union hx hpx).1
  have hranky := (Tile.rank_le_union hy hpy).1
  unfold growth
  omega

/-! ## The algebra of tiles -/

/-- What is asked of tiles whose ranks coordinates have can be read off their words with shifts and
masks, and is about the sets of their coordinates, whatever bits a word has below the rank.  A union
is the least tile around two; unions may be taken in any order, and so may the bounds of pairs of
tiles; and as no union has a lower rank than its parts, a growth is a difference of ranks with
nothing cut off. -/
theorem tiles_are_sets (a b c : Tile) (ha : a.Proper) (hb : b.Proper) (hc : c.Proper) :
    a.ReadsWords b ∧
    a.coordinates.card = 2 ^ a.rank ∧ (∀ n ∈ a.coordinates, n ≤ maxCoordinate) ∧
    (a.contains b = true ↔ b.coordinates ⊆ a.coordinates) ∧
    (a.intersects b = true ↔ (a.coordinates ∩ b.coordinates).Nonempty) ∧
    ((a.coordinates ∩ b.coordinates).Nonempty → a.contains b = true ∨ b.contains a = true) ∧
    a.coordinates ∪ b.coordinates ⊆ (a.union b).coordinates ∧
    (∀ t : Tile, t.contains a = true → t.contains b = true → t.contains (a.union b) = true) ∧
    a.union b = b.union a ∧ (a.union b).union c = a.union (b.union c) ∧
    (∀ ts ts' : List (Tile × Tile), ts.Perm ts' → (∀ u ∈ ts, u.1.Proper ∧ u.2.Proper) →
      Tile.bounds ts = Tile.bounds ts') ∧
    a.rank ≤ (a.union b).rank ∧ b.rank ≤ (a.union b).rank ∧
    ∀ (p : Point) (h : Header), h.x.Proper → h.y.Proper → p.x.Proper → p.y.Proper →
      p.growth h + (h.x.rank + h.y.rank) = (h.x.union p.x).rank + (h.y.union p.y).rank := by
  obtain ⟨hranka, hrankb⟩ := Tile.rank_le_union ha hb
  have hcovers : a.coordinates ∪ b.coordinates ⊆ (a.union b).coordinates :=
    Finset.union_subset (Tile.contains_iff_subset.1 (Tile.contains_union_left ha hb))
      (Tile.contains_iff_subset.1 (Tile.contains_union_right ha hb))
  have hnested (hmeet : (a.coordinates ∩ b.coordinates).Nonempty) :
      a.contains b = true ∨ b.contains a = true := by
    have hoverlap := Tile.intersects_iff_inter.2 hmeet
    rwa [Tile.intersects, Bool.or_eq_true] at hoverlap
  exact ⟨Tile.reads_words a b, Tile.card_coordinates a, fun n hn => ha.coordinate_le hn,
    Tile.contains_iff_subset, Tile.intersects_iff_inter, hnested, hcovers,
    fun t hta htb => (Tile.contains_union_iff ha hb).2 ⟨hta, htb⟩, Tile.union_comm ha hb,
    Tile.union_assoc ha hb hc, fun _ _ hperm hproper => Tile.bounds_perm hperm hproper, hranka,
    hrankb, fun p h hx hy hpx hpy => p.growth_add_ranks h hx hy hpx hpy⟩

/-- A tile of rank 3 whose word has bits below its rank, a point outside it, and the tile of all
coordinates. -/
theorem tiles_are_sets_low_bits :
    let low : Tile := ⟨0x0c00000000000005⟩
    low.Proper ∧ (Tile.point 9).Proper ∧ (Tile.ofRank 58 7).Proper ∧
      low.union (.point 9) = .ofRank 4 0 ∧ low.union (.point 9) = (Tile.point 9).union low ∧
      (low.union (.point 9)).union (.ofRank 58 7) =
        low.union ((Tile.point 9).union (.ofRank 58 7)) := by
  intro low
  have hlow : low.Proper := by
    unfold Tile.Proper
    decide
  obtain ⟨-, -, -, -, -, -, -, -, hcomm, hassoc, -⟩ := tiles_are_sets low (.point 9)
    (.ofRank 58 7) hlow (Tile.proper_ofRank 0 9) (Tile.proper_ofRank 58 7)
  exact ⟨hlow, Tile.proper_ofRank 0 9, Tile.proper_ofRank 58 7, by decide, hcomm, hassoc⟩

end PageTree
