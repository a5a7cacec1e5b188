/-!
# Tiles

A tile is a dyadic interval of coordinates: the `2 ^ rank` coordinates that agree with its
base above the lowest `rank` bits.  Coordinates have 58 bits, and a tile is packed into 64,
the rank above the base.  Two tiles are either nested or disjoint.
-/

namespace PageTree

/-- The number of bits of a coordinate, and the rank of the tile of all coordinates. -/
def coordinateBits : Nat := 58

/-- The largest coordinate. -/
def maxCoordinate : Nat := (1 <<< coordinateBits) - 1

/-- A packed dyadic interval. -/
structure Tile where
  bits : UInt64
  deriving DecidableEq, Repr, Inhabited

namespace Tile

/-- A number with its lowest `rank` bits cleared. -/
def floorTo (rank n : Nat) : Nat :=
  n >>> rank <<< rank

/-- The tile of a rank that contains a coordinate; ranks beyond the largest count as it. -/
def ofRank (rank base : Nat) : Tile :=
  let rank := min rank coordinateBits
  ⟨UInt64.ofNat ((rank <<< coordinateBits) + floorTo rank (base % (1 <<< coordinateBits)))⟩

/-- The tile of a single coordinate. -/
def point (coordinate : Nat) : Tile :=
  ofRank 0 coordinate

/-- The number of low bits in which the coordinates of a tile differ. -/
def rank (t : Tile) : Nat :=
  t.bits.toNat >>> coordinateBits

/-- The lowest coordinate of a tile. -/
def base (t : Tile) : Nat :=
  floorTo t.rank (t.bits.toNat % (1 <<< coordinateBits))

/-- The bits of a coordinate that the base fixes. -/
def mask (t : Tile) : Nat :=
  floorTo t.rank maxCoordinate

/-- The first coordinate of the upper half; of a point, the point. -/
def split (t : Tile) : Nat :=
  match t.rank with
  | 0 => t.base
  | rank + 1 => t.base + (1 <<< rank)

/-- A coordinate lies in the tile. -/
def covers (t : Tile) (coordinate : Nat) : Prop :=
  t.base ≤ coordinate ∧ coordinate < t.base + (1 <<< t.rank)

instance (t : Tile) (coordinate : Nat) : Decidable (t.covers coordinate) :=
  inferInstanceAs (Decidable (_ ∧ _))

/-- One tile lies within another. -/
def contains (outer inner : Tile) : Bool :=
  inner.rank ≤ outer.rank &&
    floorTo outer.rank inner.base == outer.base

/-- Two tiles overlap. -/
def intersects (a b : Tile) : Bool :=
  a.contains b || b.contains a

/-- The least rank from `rank` on, within so many steps, at which two coordinates share a
tile; the last rank tried if there is none. -/
def commonRank (a b : Nat) : (steps : Nat) → (rank : Nat) → Nat
  | 0, rank => rank
  | steps + 1, rank =>
    if a >>> rank = b >>> rank then rank else commonRank a b steps (rank + 1)

/-- The smallest tile that contains two tiles. -/
def union (a b : Tile) : Tile :=
  let rank := max a.rank b.rank
  ofRank (commonRank a.base b.base (coordinateBits - rank) rank) a.base

/-- Both coordinates' unions. -/
def unionBoth (a b : Tile × Tile) : Tile × Tile :=
  (a.1.union b.1, a.2.union b.2)

/-- The smallest pair of tiles around pairs of tiles; around none, the origin. -/
def bounds : List (Tile × Tile) → Tile × Tile
  | [] => (⟨0⟩, ⟨0⟩)
  | t :: ts => ts.foldl unionBoth t

end Tile
end PageTree
