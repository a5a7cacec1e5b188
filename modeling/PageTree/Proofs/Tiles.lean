import Mathlib.Algebra.Ring.Nat
import PageTree.Tile

/-!
# Tiles that contain tiles

Whether a tile contains another is decided by a few high bits, so containment is transitive and
the union of two tiles contains whatever either does.  No smaller tile does, so the tiles around
a list of tiles are the smallest ones (`smallest_bounds`), as long as no rank is beyond the
largest.
-/

namespace PageTree
namespace Tile

variable {a b t : Tile} {rank n m : Nat}

/-! ## Shifts as powers -/

theorem floorTo_eq (rank n : Nat) : floorTo rank n = n / 2 ^ rank * 2 ^ rank := by
  rw [floorTo, Nat.shiftLeft_eq, Nat.shiftRight_eq_div_pow]

theorem maxCoordinate_eq : maxCoordinate = 2 ^ coordinateBits - 1 :=
  rfl

theorem rank_eq_div (t : Tile) : t.rank = t.bits.toNat / 2 ^ coordinateBits :=
  Nat.shiftRight_eq_div_pow _ _

theorem base_eq_floorTo (t : Tile) :
    t.base = floorTo t.rank (t.bits.toNat % 2 ^ coordinateBits) :=
  rfl

theorem covers_iff_base : t.covers n ↔ t.base ≤ n ∧ n < t.base + 2 ^ t.rank := by
  rw [covers, Nat.one_shiftLeft]

theorem commonRank_succ (n m steps rank : Nat) :
    commonRank n m (steps + 1) rank =
      if n / 2 ^ rank = m / 2 ^ rank then rank else commonRank n m steps (rank + 1) := by
  rw [commonRank, Nat.shiftRight_eq_div_pow, Nat.shiftRight_eq_div_pow]

/-! ## Ranks and bases -/

/-- The rank of a tile is one that coordinates have. -/
def Proper (t : Tile) : Prop :=
  t.rank ≤ coordinateBits

theorem floorTo_eq_iff : floorTo rank n = floorTo rank m ↔ n / 2 ^ rank = m / 2 ^ rank := by
  rw [floorTo_eq, floorTo_eq]
  constructor
  · intro heq
    exact Nat.eq_of_mul_eq_mul_right (Nat.two_pow_pos rank) heq
  · intro heq
    rw [heq]

theorem floorTo_div (rank n : Nat) : floorTo rank n / 2 ^ rank = n / 2 ^ rank := by
  rw [floorTo_eq, Nat.mul_div_cancel _ (Nat.two_pow_pos rank)]

theorem floorTo_le (rank n : Nat) : floorTo rank n ≤ n := by
  rw [floorTo_eq]
  exact Nat.div_mul_le_self n _

@[simp] theorem floorTo_floorTo (rank n : Nat) : floorTo rank (floorTo rank n) = floorTo rank n :=
  floorTo_eq_iff.2 (floorTo_div rank n)

/-- Numbers that agree above some bits agree above more bits. -/
theorem div_eq_of_le {rank' : Nat} (hle : rank ≤ rank') (heq : n / 2 ^ rank = m / 2 ^ rank) :
    n / 2 ^ rank' = m / 2 ^ rank' := by
  obtain ⟨more, rfl⟩ := Nat.exists_eq_add_of_le hle
  rw [Nat.pow_add, ← Nat.div_div_eq_div_mul, ← Nat.div_div_eq_div_mul, heq]

theorem base_lt (t : Tile) : t.base < 2 ^ coordinateBits := by
  rw [base_eq_floorTo]
  exact Nat.lt_of_le_of_lt (floorTo_le _ _) (Nat.mod_lt _ (Nat.two_pow_pos _))

@[simp] theorem floorTo_base (t : Tile) : floorTo t.rank t.base = t.base :=
  floorTo_floorTo _ _

theorem toNat_ofRank (rank n : Nat) :
    (ofRank rank n).bits.toNat =
      min rank coordinateBits * 2 ^ coordinateBits +
        floorTo (min rank coordinateBits) (n % 2 ^ coordinateBits) := by
  have hmod : n % 2 ^ coordinateBits < 2 ^ coordinateBits := Nat.mod_lt _ (Nat.two_pow_pos _)
  have hfloor := floorTo_le (min rank coordinateBits) (n % 2 ^ coordinateBits)
  have hrank : min rank coordinateBits ≤ 58 := Nat.min_le_right _ _
  have hbits : (2 : Nat) ^ coordinateBits = 288230376151711744 := by decide
  unfold ofRank
  show (UInt64.ofNat _).toNat = _
  rw [UInt64.toNat_ofNat', Nat.shiftLeft_eq, Nat.one_shiftLeft, Nat.mod_eq_of_lt]
  rw [hbits] at hmod hfloor ⊢
  omega

theorem rank_ofRank (rank n : Nat) : (ofRank rank n).rank = min rank coordinateBits := by
  have hmod : n % 2 ^ coordinateBits < 2 ^ coordinateBits := Nat.mod_lt _ (Nat.two_pow_pos _)
  have hfloor := floorTo_le (min rank coordinateBits) (n % 2 ^ coordinateBits)
  rw [rank_eq_div, toNat_ofRank, Nat.add_comm, Nat.add_mul_div_right _ _ (Nat.two_pow_pos _),
    Nat.div_eq_of_lt (Nat.lt_of_le_of_lt hfloor hmod), Nat.zero_add]

theorem base_ofRank (rank n : Nat) :
    (ofRank rank n).base = floorTo (min rank coordinateBits) (n % 2 ^ coordinateBits) := by
  have hmod : n % 2 ^ coordinateBits < 2 ^ coordinateBits := Nat.mod_lt _ (Nat.two_pow_pos _)
  have hfloor := floorTo_le (min rank coordinateBits) (n % 2 ^ coordinateBits)
  rw [base_eq_floorTo, rank_ofRank, toNat_ofRank, Nat.add_comm, Nat.add_mul_mod_self_right,
    Nat.mod_eq_of_lt (Nat.lt_of_le_of_lt hfloor hmod), floorTo_floorTo]

theorem proper_ofRank (rank n : Nat) : (ofRank rank n).Proper := by
  unfold Proper
  rw [rank_ofRank]
  exact Nat.min_le_right _ _

/-! ## Points -/

@[simp] theorem rank_point (n : Nat) : (point n).rank = 0 := by
  rw [point, rank_ofRank, Nat.zero_min]

theorem base_point (hn : n ≤ maxCoordinate) : (point n).base = n := by
  have hlt : n < 2 ^ coordinateBits := by
    have hpos : 0 < 2 ^ coordinateBits := Nat.two_pow_pos _
    rw [maxCoordinate_eq] at hn
    omega
  rw [point, base_ofRank, Nat.zero_min, Nat.mod_eq_of_lt hlt, floorTo_eq, Nat.pow_zero, Nat.div_one,
    Nat.mul_one]

/-! ## Containment -/

/-- A tile contains those of its rank or less that agree with it above its rank. -/
theorem contains_iff : a.contains b = true ↔
    b.rank ≤ a.rank ∧ b.base / 2 ^ a.rank = a.base / 2 ^ a.rank := by
  have hfloor : floorTo a.rank b.base = a.base ↔ b.base / 2 ^ a.rank = a.base / 2 ^ a.rank := by
    rw [← floorTo_eq_iff, floorTo_base]
  rw [contains, Bool.and_eq_true, decide_eq_true_eq, beq_iff_eq, hfloor]

@[simp] theorem contains_self (t : Tile) : t.contains t = true :=
  contains_iff.2 ⟨Nat.le_refl _, rfl⟩

theorem contains_trans (hab : a.contains b = true) (hbt : b.contains t = true) :
    a.contains t = true := by
  obtain ⟨hrank, hbase⟩ := contains_iff.1 hab
  obtain ⟨hrank', hbase'⟩ := contains_iff.1 hbt
  refine contains_iff.2 ⟨Nat.le_trans hrank' hrank, ?_⟩
  rw [div_eq_of_le hrank hbase', hbase]

/-- The coordinates of a tile agree with its base above its rank. -/
theorem covers_iff : t.covers n ↔ n / 2 ^ t.rank = t.base / 2 ^ t.rank := by
  have hbase : t.base / 2 ^ t.rank * 2 ^ t.rank = t.base :=
    (floorTo_eq _ _).symm.trans (floorTo_base t)
  have hpos : 0 < 2 ^ t.rank := Nat.two_pow_pos _
  rw [covers_iff_base, Nat.div_eq_iff hpos, hbase]
  omega

/-- A tile contains another if it covers all coordinates of the other. -/
theorem contains_iff_covers : a.contains b = true ↔ ∀ n, b.covers n → a.covers n := by
  rw [contains_iff]
  constructor
  · rintro ⟨hrank, hbase⟩ n hn
    rw [covers_iff] at hn ⊢
    exact (div_eq_of_le hrank hn).trans hbase
  · intro hcovers
    have hpos : 0 < 2 ^ b.rank := Nat.two_pow_pos _
    have hfirst : a.covers b.base := hcovers _ (covers_iff_base.2 ⟨Nat.le_refl _, by omega⟩)
    have hlast : a.covers (b.base + (2 ^ b.rank - 1)) := hcovers _ (covers_iff_base.2 ⟨by omega, by omega⟩)
    refine ⟨?_, covers_iff.1 hfirst⟩
    -- both ends of the inner tile are in the outer one, which is therefore no shorter
    have hsizes : 2 ^ b.rank ≤ 2 ^ a.rank := by
      have hlower := (covers_iff_base.1 hfirst).1
      have hupper := (covers_iff_base.1 hlast).2
      omega
    exact (Nat.pow_le_pow_iff_right (by omega)).1 hsizes

theorem covers_iff_contains_point (hn : n ≤ maxCoordinate) :
    t.covers n ↔ t.contains (point n) = true := by
  rw [covers_iff, contains_iff, base_point hn, rank_point]
  simp

/-! ## Overlaps -/

/-- Tiles that share a coordinate overlap. -/
theorem intersects_of_covers (ha : a.covers n) (hb : b.covers n) : a.intersects b = true := by
  rw [covers_iff] at ha hb
  rw [intersects, Bool.or_eq_true, contains_iff, contains_iff]
  rcases Nat.le_total a.rank b.rank with hle | hle
  · exact Or.inr ⟨hle, (div_eq_of_le hle ha).symm.trans hb⟩
  · exact Or.inl ⟨hle, (div_eq_of_le hle hb).symm.trans ha⟩

/-- A tile overlaps the points that it covers. -/
theorem intersects_point_iff (hn : n ≤ maxCoordinate) :
    t.intersects (point n) = true ↔ t.covers n := by
  have hself : (point n).covers n := (covers_iff_contains_point hn).2 (contains_self _)
  refine ⟨fun hoverlap => ?_, fun hcovers => intersects_of_covers hcovers hself⟩
  rw [intersects, Bool.or_eq_true] at hoverlap
  rcases hoverlap with hcontains | hwithin
  · exact (covers_iff_contains_point hn).2 hcontains
  · -- a tile within a point is that point
    have hrank : t.rank = 0 := by
      have hle := (contains_iff.1 hwithin).1
      rw [rank_point] at hle
      exact Nat.le_zero.1 hle
    have hbase := (contains_iff.1 hwithin).2
    rw [rank_point, base_point hn, Nat.pow_zero, Nat.div_one, Nat.div_one] at hbase
    rw [covers_iff, hrank, hbase]

/-! ## Unions -/

/-- Coordinates that share a tile of the last rank that is tried share one of the rank found. -/
theorem commonRank_spec (n m steps rank : Nat)
    (hlast : n / 2 ^ (rank + steps) = m / 2 ^ (rank + steps)) :
    rank ≤ commonRank n m steps rank ∧ commonRank n m steps rank ≤ rank + steps ∧
      n / 2 ^ commonRank n m steps rank = m / 2 ^ commonRank n m steps rank := by
  induction steps generalizing rank with
  | zero => exact ⟨Nat.le_refl _, Nat.le_refl _, hlast⟩
  | succ steps ih =>
      rw [commonRank_succ]
      split
      · next hsame => exact ⟨Nat.le_refl _, Nat.le_add_right _ _, hsame⟩
      · have hnext := ih (rank + 1) (by rw [Nat.add_right_comm]; exact hlast)
        omega

/-- What the union of two tiles looks like. -/
theorem union_spec (ha : a.Proper) (hb : b.Proper) :
    a.rank ≤ (a.union b).rank ∧ b.rank ≤ (a.union b).rank ∧
      (a.union b).base / 2 ^ (a.union b).rank = a.base / 2 ^ (a.union b).rank ∧
      a.base / 2 ^ (a.union b).rank = b.base / 2 ^ (a.union b).rank := by
  have hmax : max a.rank b.rank ≤ coordinateBits := Nat.max_le.2 ⟨ha, hb⟩
  have hsteps : max a.rank b.rank + (coordinateBits - max a.rank b.rank) = coordinateBits :=
    Nat.add_sub_cancel' hmax
  obtain ⟨hle, hbits, hsame⟩ := commonRank_spec a.base b.base
    (coordinateBits - max a.rank b.rank) (max a.rank b.rank) (by
      rw [hsteps, Nat.div_eq_of_lt a.base_lt, Nat.div_eq_of_lt b.base_lt])
  rw [hsteps] at hbits
  have hrank : (a.union b).rank =
      commonRank a.base b.base (coordinateBits - max a.rank b.rank) (max a.rank b.rank) := by
    rw [union, rank_ofRank, Nat.min_eq_left hbits]
  have hbase : (a.union b).base = floorTo (a.union b).rank a.base := by
    rw [hrank, union, base_ofRank, Nat.min_eq_left hbits, Nat.mod_eq_of_lt a.base_lt]
  have hranks := Nat.max_le.1 hle
  rw [hbase, floorTo_div, hrank]
  exact ⟨hranks.1, hranks.2, rfl, hsame⟩

theorem contains_union_left (ha : a.Proper) (hb : b.Proper) : (a.union b).contains a = true := by
  obtain ⟨hrank, -, hbase, -⟩ := union_spec ha hb
  exact contains_iff.2 ⟨hrank, hbase.symm⟩

theorem contains_union_right (ha : a.Proper) (hb : b.Proper) : (a.union b).contains b = true := by
  obtain ⟨-, hrank, hbase, hsame⟩ := union_spec ha hb
  exact contains_iff.2 ⟨hrank, by rw [hbase, hsame]⟩

/-! ## The smallest tile -/

/-- The tile is packed as one of its rank and base is, and so is determined by them. -/
def Canonical (t : Tile) : Prop :=
  ofRank t.rank t.base = t

theorem canonical_ofRank (rank n : Nat) : (ofRank rank n).Canonical := by
  have hfloor : floorTo (min rank coordinateBits) (n % 2 ^ coordinateBits) < 2 ^ coordinateBits :=
    Nat.lt_of_le_of_lt (floorTo_le _ _) (Nat.mod_lt _ (Nat.two_pow_pos _))
  have hbits : (ofRank (ofRank rank n).rank (ofRank rank n).base).bits.toNat =
      (ofRank rank n).bits.toNat := by
    rw [toNat_ofRank, toNat_ofRank, rank_ofRank, base_ofRank,
      Nat.min_eq_left (Nat.min_le_right rank coordinateBits), Nat.mod_eq_of_lt hfloor,
      floorTo_floorTo]
  exact congrArg Tile.mk (UInt64.toNat_inj.1 hbits)

theorem Canonical.proper (ht : t.Canonical) : t.Proper :=
  ht ▸ proper_ofRank t.rank t.base

/-- Tiles that contain each other are one. -/
theorem Canonical.eq_of_contains (ha : a.Canonical) (hb : b.Canonical)
    (hab : a.contains b = true) (hba : b.contains a = true) : a = b := by
  obtain ⟨hle, hbase⟩ := contains_iff.1 hab
  obtain ⟨hge, -⟩ := contains_iff.1 hba
  have hrank : a.rank = b.rank := Nat.le_antisymm hge hle
  have hsame : b.base = a.base := by
    rw [← floorTo_base a, ← floorTo_base b, hrank, floorTo_eq_iff, ← hrank]
    exact hbase
  rw [← ha, ← hb, hrank, hsame]

/-- The smallest tile around some others: any that contains them all contains it. -/
structure Smallest (t : Tile) (ts : List Tile) : Prop where
  canonical : t.Canonical
  contains : ∀ u ∈ ts, t.contains u = true
  least : ∀ v : Tile, (∀ u ∈ ts, v.contains u = true) → v.contains t = true

/-- No rank at which two coordinates share a tile is less than the one found. -/
theorem commonRank_le (n m steps : Nat) {rank shared : Nat} (hle : rank ≤ shared)
    (hsame : n / 2 ^ shared = m / 2 ^ shared) : commonRank n m steps rank ≤ shared := by
  induction steps generalizing rank with
  | zero => exact hle
  | succ steps ih =>
      rw [commonRank_succ]
      split
      · exact hle
      · next hdiffer =>
          apply ih
          have hne : rank ≠ shared := by
            rintro rfl
            exact hdiffer hsame
          omega

/-- The union of two tiles is the smallest around them. -/
theorem smallest_union (ha : a.Proper) (hb : b.Proper) : (a.union b).Smallest [a, b] := by
  refine ⟨canonical_ofRank _ _, ?_, ?_⟩
  · simp [contains_union_left ha hb, contains_union_right ha hb]
  · intro v hv
    obtain ⟨hranka, hbasea⟩ := contains_iff.1 (hv a (by simp))
    obtain ⟨hrankb, hbaseb⟩ := contains_iff.1 (hv b (by simp))
    -- the bases agree above the rank of `v`, so the search for a rank ends there at the latest
    have hrank : (a.union b).rank ≤ v.rank := by
      rw [union, rank_ofRank]
      exact Nat.le_trans (Nat.min_le_left _ _)
        (commonRank_le _ _ _ (Nat.max_le.2 ⟨hranka, hrankb⟩) (hbasea.trans hbaseb.symm))
    obtain ⟨-, -, hbase, -⟩ := union_spec ha hb
    exact contains_iff.2 ⟨hrank, (div_eq_of_le hrank hbase).trans hbasea⟩

/-- A fold of unions is the smallest tile around what it starts with and all that joins. -/
theorem smallest_foldl (ts : List Tile) (start : Tile) (hstart : start.Canonical)
    (hts : ∀ t ∈ ts, t.Canonical) : (ts.foldl union start).Smallest (start :: ts) := by
  induction ts generalizing start with
  | nil =>
      refine ⟨hstart, by simp, ?_⟩
      exact fun v hv => hv start List.mem_cons_self
  | cons t ts ih =>
      have hunion := smallest_union hstart.proper (hts t List.mem_cons_self).proper
      obtain ⟨hcanonical, hcontains, hleast⟩ := ih (start.union t) hunion.canonical
        fun u hu => hts u (List.mem_cons_of_mem t hu)
      have hpair := hcontains (start.union t) List.mem_cons_self
      rw [List.foldl_cons]
      refine ⟨hcanonical, ?_, ?_⟩
      · intro u hu
        simp only [List.mem_cons] at hu
        rcases hu with rfl | rfl | hu
        · exact contains_trans hpair (hunion.contains _ (by simp))
        · exact contains_trans hpair (hunion.contains _ (by simp))
        · exact hcontains u (List.mem_cons_of_mem _ hu)
      · -- a tile that contains two tiles contains their union, which stands for both
        intro v hv
        apply hleast
        intro u hu
        rcases List.mem_cons.1 hu with rfl | hu
        · exact hunion.least v fun w hw => hv w (by
            rcases List.mem_cons.1 hw with rfl | hw
            · exact List.mem_cons_self
            · rw [List.mem_singleton.1 hw]
              exact List.mem_cons_of_mem _ List.mem_cons_self)
        · exact hv u (by simp [hu])

/-- The tile is the smallest that covers some coordinates: any that covers them all covers
whatever it does. -/
structure Frames (t : Tile) (coordinates : List Nat) : Prop where
  canonical : t.Canonical
  covers : ∀ n ∈ coordinates, t.covers n
  least : ∀ v : Tile, (∀ n ∈ coordinates, v.covers n) → ∀ n, t.covers n → v.covers n

/-- There is only one such tile. -/
theorem Frames.unique {coordinates : List Nat} (ha : a.Frames coordinates)
    (hb : b.Frames coordinates) : a = b :=
  ha.canonical.eq_of_contains hb.canonical (contains_iff_covers.2 (hb.least a ha.covers))
    (contains_iff_covers.2 (ha.least b hb.covers))

/-- The smallest tile around points is the smallest that covers their coordinates. -/
theorem Smallest.frames {coordinates : List Nat} (ht : t.Smallest (coordinates.map point))
    (hcoordinates : ∀ n ∈ coordinates, n ≤ maxCoordinate) : t.Frames coordinates where
  canonical := ht.canonical
  covers n hn := (covers_iff_contains_point (hcoordinates n hn)).2
    (ht.contains _ (List.mem_map_of_mem hn))
  least v hv := by
    apply contains_iff_covers.1
    apply ht.least
    intro u hu
    obtain ⟨n, hn, rfl⟩ := List.mem_map.1 hu
    exact (covers_iff_contains_point (hcoordinates n hn)).1 (hv n hn)

/-! ## Bounds -/

theorem foldl_unionBoth (ts : List (Tile × Tile)) (start : Tile × Tile) :
    ts.foldl unionBoth start =
      ((ts.map Prod.fst).foldl union start.1, (ts.map Prod.snd).foldl union start.2) := by
  induction ts generalizing start with
  | nil => rfl
  | cons t ts ih =>
      rw [List.foldl_cons, ih]
      rfl

/-- The tiles around pairs of tiles are the smallest around each side of the pairs. -/
theorem smallest_bounds {ts : List (Tile × Tile)} (hne : ts ≠ [])
    (hts : ∀ t ∈ ts, t.1.Canonical ∧ t.2.Canonical) :
    (bounds ts).1.Smallest (ts.map Prod.fst) ∧ (bounds ts).2.Smallest (ts.map Prod.snd) := by
  cases ts with
  | nil => exact absurd rfl hne
  | cons t ts =>
      have hfst : ∀ u ∈ ts.map Prod.fst, u.Canonical := by
        intro u hu
        obtain ⟨v, hv, rfl⟩ := List.mem_map.1 hu
        exact (hts v (List.mem_cons_of_mem t hv)).1
      have hsnd : ∀ u ∈ ts.map Prod.snd, u.Canonical := by
        intro u hu
        obtain ⟨v, hv, rfl⟩ := List.mem_map.1 hu
        exact (hts v (List.mem_cons_of_mem t hv)).2
      rw [bounds, foldl_unionBoth]
      obtain ⟨hx, hy⟩ := hts t List.mem_cons_self
      exact ⟨smallest_foldl _ _ hx hfst, smallest_foldl _ _ hy hsnd⟩

end Tile
end PageTree
