import PageTree.Proofs.Tiles

/-!
# Tiles as words

A tile is packed into a word of 64 bits, and what is asked of it can be answered with shifts and
masks on that word.  The answers are those of the arithmetic on ranks and bases
(`Tile.reads_words`), whatever the bits below the rank are, and at the ranks 0 and 58 as at the
others.
-/

namespace PageTree
namespace Tile
namespace Word

/-- The bits below a rank. -/
def lowBits (rank : Nat) : UInt64 :=
  if 64 ≤ rank then 0xffffffffffffffff else (1 : UInt64) <<< UInt64.ofNat rank - 1

/-- The bits of a coordinate. -/
def coordinateMask : UInt64 :=
  (1 : UInt64) <<< 58 - 1

/-- The word of the tile of a rank that contains a coordinate. -/
def pack (rank : Nat) (base : UInt64) : UInt64 :=
  let rank := if coordinateBits < rank then coordinateBits else rank
  UInt64.ofNat rank <<< 58 ||| base &&& coordinateMask &&& ~~~lowBits rank

/-- The rank in a word. -/
def rank (w : UInt64) : Nat :=
  (w >>> 58).toNat

/-- The bits of a coordinate that the base in a word fixes. -/
def mask (w : UInt64) : UInt64 :=
  coordinateMask &&& ~~~lowBits (rank w)

/-- The base in a word. -/
def base (w : UInt64) : UInt64 :=
  w &&& coordinateMask &&& ~~~lowBits (rank w)

/-- The tile of one word contains that of another. -/
def contains (outer inner : UInt64) : Bool :=
  rank inner ≤ rank outer && base inner &&& mask outer == base outer

/-- The tiles of two words overlap. -/
def intersects (a b : UInt64) : Bool :=
  contains a b || contains b a

/-- Raises a rank until two coordinates agree above it. -/
def raise (a b : UInt64) (rank : Nat) : Nat :=
  if rank < coordinateBits ∧ a >>> UInt64.ofNat rank ≠ b >>> UInt64.ofNat rank then
    raise a b (rank + 1)
  else rank
  termination_by coordinateBits - rank

/-- The word of the smallest tile that contains the tiles of two words. -/
def union (a b : UInt64) : UInt64 :=
  pack (raise (base a) (base b) (max (rank a) (rank b))) (base a)

/-! ## Masks -/

/-- Masking with the complement of the bits below a rank rounds a number down. -/
theorem and_sub_two_pow {n rank : Nat} (hn : n < 2 ^ 64) (hrank : rank ≤ 64) :
    n &&& (2 ^ 64 - 2 ^ rank) = floorTo rank n := by
  refine Nat.eq_of_testBit_eq fun i => ?_
  have hsucc : 2 ^ rank = 2 ^ rank - 1 + 1 := (Nat.sub_add_cancel (Nat.two_pow_pos rank)).symm
  have hlt : 2 ^ rank - 1 < 2 ^ 64 := by
    have hle : 2 ^ rank ≤ 2 ^ 64 := Nat.pow_le_pow_right (by decide) hrank
    omega
  rw [floorTo_eq, Nat.testBit_mul_two_pow, Nat.testBit_div_two_pow, Nat.testBit_and, hsucc,
    Nat.testBit_two_pow_sub_succ hlt, Nat.testBit_two_pow_sub_one]
  by_cases hi : i < 64
  · by_cases hbelow : i < rank
    · simp [hi, hbelow, Nat.not_le.2 hbelow]
    · have hback : i - rank + rank = i := by omega
      simp [hi, hbelow, Nat.le_of_not_lt hbelow, hback]
  · have hzero : n.testBit i = false :=
      Nat.testBit_lt_two_pow (Nat.lt_of_lt_of_le hn (Nat.pow_le_pow_right (by decide) (by omega)))
    by_cases hbelow : i < rank
    · omega
    · have hback : i - rank + rank = i := by omega
      simp [hi, hzero, hback]

theorem toNat_lowBits {rank : Nat} (hrank : rank < 64) :
    (lowBits rank).toNat = 2 ^ rank - 1 := by
  have hpos := Nat.two_pow_pos rank
  have hlt : 2 ^ rank < 2 ^ 64 := Nat.pow_lt_pow_right (by decide) hrank
  have hshift : (1 <<< UInt64.ofNat rank : UInt64).toNat = 2 ^ rank := by
    rw [UInt64.toNat_shiftLeft, UInt64.toNat_ofNat', Nat.mod_eq_of_lt (a := rank) (by omega),
      Nat.mod_eq_of_lt hrank, UInt64.toNat_one, Nat.one_shiftLeft, Nat.mod_eq_of_lt hlt]
  rw [lowBits, if_neg (by omega), UInt64.toNat_sub_of_le, hshift, UInt64.toNat_one]
  rw [UInt64.le_iff_toNat_le, hshift, UInt64.toNat_one]
  exact hpos

theorem toNat_coordinateMask : coordinateMask.toNat = maxCoordinate :=
  rfl

/-- The bits above a rank. -/
theorem toNat_and_not_lowBits (w : UInt64) {rank : Nat} (hrank : rank < 64) :
    (w &&& ~~~lowBits rank).toNat = floorTo rank w.toNat := by
  have hpos := Nat.two_pow_pos rank
  have hcomplement : UInt64.size - 1 - (2 ^ rank - 1) = 2 ^ 64 - 2 ^ rank := by
    rw [UInt64.size]
    omega
  rw [UInt64.toNat_and, UInt64.toNat_not, toNat_lowBits hrank, hcomplement,
    and_sub_two_pow w.toNat_lt (Nat.le_of_lt hrank)]

theorem toNat_and_coordinateMask (w : UInt64) :
    (w &&& coordinateMask).toNat = w.toNat % 2 ^ coordinateBits := by
  rw [UInt64.toNat_and, toNat_coordinateMask, maxCoordinate_eq, Nat.and_two_pow_sub_one_eq_mod]

/-! ## Ranks and bases -/

theorem rank_eq (w : UInt64) : rank w = (Tile.mk w).rank := by
  rw [rank, UInt64.toNat_shiftRight]
  rfl

theorem rank_lt (w : UInt64) : rank w < 64 := by
  rw [rank_eq, rank_eq_div, Nat.div_lt_iff_lt_mul (Nat.two_pow_pos _)]
  exact w.toNat_lt

theorem base_eq (w : UInt64) : (base w).toNat = (Tile.mk w).base := by
  rw [base, toNat_and_not_lowBits _ (rank_lt w), toNat_and_coordinateMask, rank_eq]
  rfl

theorem mask_eq (w : UInt64) : (mask w).toNat = (Tile.mk w).mask := by
  rw [mask, toNat_and_not_lowBits _ (rank_lt w), toNat_coordinateMask, rank_eq]
  rfl

/-- Masking the base of a tile clears the bits below the rank of the mask. -/
theorem toNat_base_and_mask (inner outer : UInt64) :
    (base inner &&& mask outer).toNat = floorTo (Tile.mk outer).rank (Tile.mk inner).base := by
  have hlow : (base inner &&& coordinateMask).toNat = (Tile.mk inner).base := by
    rw [toNat_and_coordinateMask, base_eq, Nat.mod_eq_of_lt (base_lt _)]
  rw [mask, ← UInt64.and_assoc, toNat_and_not_lowBits _ (rank_lt outer), hlow, rank_eq]

theorem contains_eq (outer inner : UInt64) :
    contains outer inner = (Tile.mk outer).contains ⟨inner⟩ := by
  have hbase : (base inner &&& mask outer == base outer) =
      (floorTo (Tile.mk outer).rank (Tile.mk inner).base == (Tile.mk outer).base) := by
    rw [Bool.eq_iff_iff, beq_iff_eq, beq_iff_eq, ← UInt64.toNat_inj, toNat_base_and_mask, base_eq]
  rw [contains, Tile.contains, rank_eq, rank_eq, hbase]

/-! ## Unions -/

/-- The bits above a rank agree where the quotients do. -/
theorem shiftRight_eq_iff (a b : UInt64) {rank : Nat} (hrank : rank < 64) :
    a >>> UInt64.ofNat rank = b >>> UInt64.ofNat rank ↔
      a.toNat / 2 ^ rank = b.toNat / 2 ^ rank := by
  have hshift (w : UInt64) : (w >>> UInt64.ofNat rank).toNat = w.toNat / 2 ^ rank := by
    rw [UInt64.toNat_shiftRight, UInt64.toNat_ofNat', Nat.mod_eq_of_lt (a := rank) (by omega),
      Nat.mod_eq_of_lt hrank, Nat.shiftRight_eq_div_pow]
  rw [← UInt64.toNat_inj, hshift, hshift]

/-- Raising a rank finds the least common one. -/
theorem raise_eq (a b : UInt64) (rank : Nat) :
    raise a b rank = commonRank a.toNat b.toNat (coordinateBits - rank) rank := by
  fun_induction raise a b rank with
  | case1 rank hraise ih =>
      obtain ⟨hlt, hdiffer⟩ := hraise
      obtain ⟨steps, hsteps⟩ := Nat.exists_eq_add_of_lt hlt
      have hleft : coordinateBits - rank = coordinateBits - (rank + 1) + 1 := by omega
      have hrank : rank < 64 := Nat.lt_of_lt_of_le hlt (by decide)
      rw [hleft, commonRank_succ,
        if_neg (fun hsame => hdiffer ((shiftRight_eq_iff a b hrank).2 hsame)), ih]
  | case2 rank hstop =>
      cases hsteps : coordinateBits - rank with
      | zero => rfl
      | succ steps =>
          have hlt : rank < coordinateBits := by omega
          have hrank : rank < 64 := Nat.lt_of_lt_of_le hlt (by decide)
          have hsame : a >>> UInt64.ofNat rank = b >>> UInt64.ofNat rank :=
            Decidable.byContradiction fun hdiffer => hstop ⟨hlt, hdiffer⟩
          rw [commonRank_succ, if_pos ((shiftRight_eq_iff a b hrank).1 hsame)]

theorem pack_eq (rank : Nat) (b : UInt64) : pack rank b = (ofRank rank b.toNat).bits := by
  have hclamp : (if coordinateBits < rank then coordinateBits else rank) =
      min rank coordinateBits := by
    split <;> omega
  have hrank : min rank coordinateBits < 64 :=
    Nat.lt_of_le_of_lt (Nat.min_le_right _ _) (by decide)
  have hlow : (b &&& coordinateMask &&& ~~~lowBits (min rank coordinateBits)).toNat =
      floorTo (min rank coordinateBits) (b.toNat % 2 ^ coordinateBits) := by
    rw [toNat_and_not_lowBits _ hrank, toNat_and_coordinateMask]
  have hfloor : floorTo (min rank coordinateBits) (b.toNat % 2 ^ coordinateBits) <
      2 ^ coordinateBits :=
    Nat.lt_of_le_of_lt (floorTo_le _ _) (Nat.mod_lt _ (Nat.two_pow_pos _))
  have hhigh : (UInt64.ofNat (min rank coordinateBits) <<< 58).toNat =
      min rank coordinateBits <<< coordinateBits := by
    have hfits : min rank coordinateBits <<< coordinateBits < 2 ^ 64 := by
      rw [Nat.shiftLeft_eq]
      exact Nat.lt_of_le_of_lt (Nat.mul_le_mul_right _ (Nat.min_le_right _ _)) (by decide)
    rw [UInt64.toNat_shiftLeft, UInt64.toNat_ofNat', Nat.mod_eq_of_lt (a := min rank _) (by omega)]
    exact Nat.mod_eq_of_lt hfits
  rw [← UInt64.toNat_inj, toNat_ofRank, pack, hclamp, UInt64.toNat_or, hlow, hhigh,
    ← Nat.shiftLeft_add_eq_or_of_lt hfloor, Nat.shiftLeft_eq]

theorem union_eq (a b : UInt64) : union a b = ((Tile.mk a).union ⟨b⟩).bits := by
  rw [union, pack_eq, raise_eq, base_eq, base_eq, rank_eq, rank_eq]
  rfl

end Word

/-- What is asked of tiles is answered with shifts and masks on their words. -/
structure ReadsWords (a b : Tile) : Prop where
  rank : a.rank = Word.rank a.bits
  base : a.base = (Word.base a.bits).toNat
  mask : a.mask = (Word.mask a.bits).toNat
  contains : a.contains b = Word.contains a.bits b.bits
  intersects : a.intersects b = Word.intersects a.bits b.bits
  union : (a.union b).bits = Word.union a.bits b.bits

theorem reads_words (a b : Tile) : a.ReadsWords b where
  rank := (Word.rank_eq a.bits).symm
  base := (Word.base_eq a.bits).symm
  mask := (Word.mask_eq a.bits).symm
  contains := (Word.contains_eq a.bits b.bits).symm
  intersects := by rw [Word.intersects, Word.contains_eq, Word.contains_eq, Tile.intersects]
  union := (Word.union_eq a.bits b.bits).symm

end Tile
end PageTree
