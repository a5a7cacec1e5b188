/-!
# Numbers in text

Digits are read in either case and written in lower case.

A ratio of two counts is first rounded to 53 binary digits, and that number is then written
with six decimal places.  Both roundings go to the nearest, a half to the even neighbour.
-/

namespace PageTree
namespace Text

/-! ## Decimal and hexadecimal -/

/-- The value of a hexadecimal digit of either case. -/
def hexDigit? (c : Char) : Option Nat :=
  if '0' ≤ c ∧ c ≤ '9' then some (c.toNat - '0'.toNat)
  else if 'a' ≤ c ∧ c ≤ 'f' then some (c.toNat - 'a'.toNat + 10)
  else if 'A' ≤ c ∧ c ≤ 'F' then some (c.toNat - 'A'.toNat + 10)
  else none

/-- The number that hexadecimal digits spell; characters of no value count as zero. -/
def ofHexDigits (cs : List Char) : Nat :=
  cs.foldl (fun n c => 16 * n + (hexDigit? c).getD 0) 0

/-- The last `width` hexadecimal digits of a number. -/
def hexDigits : (width : Nat) → Nat → List Char
  | 0, _ => []
  | width + 1, n => hexDigits width (n / 16) ++ [Nat.digitChar (n % 16)]

/-- A natural number in decimal. -/
def decimal (n : Nat) : List Char :=
  Nat.toDigits 10 n

/-- An integer in decimal, with a minus sign if it is negative. -/
def signedDecimal : Int → List Char
  | .ofNat n => decimal n
  | .negSucc n => '-' :: decimal (n + 1)

/-- The natural number that decimal digits spell. -/
def ofDecimal (cs : List Char) : Nat :=
  Nat.ofDigitChars 10 cs 0

/-! ## Ratios as decimal fractions -/

/-- A quotient rounded to the nearest integer, a half to the even one. -/
def roundDiv (n d : Nat) : Nat :=
  let below := n / d
  let twice := 2 * (n % d)
  if twice < d ∨ (twice = d ∧ below % 2 = 0) then below else below + 1

/-- The digits and the scale of a ratio `0 < n / d ≤ 1` to 53 binary digits: `m` and `e` stand
for `m / 2 ^ e`. -/
def toBinary (n d : Nat) : Nat × Nat :=
  let shift := d.log2 - n.log2
  let scale := if d ≤ n <<< shift then 52 + shift else 53 + shift
  (roundDiv (n <<< scale) d, scale)

/-- A number of millionths with a decimal point. -/
def millionths (n : Nat) : String :=
  let places := decimal (n % 1000000)
  String.ofList (decimal (n / 1000000) ++ '.' :: (List.replicate (6 - places.length) '0' ++ places))

/-- The text of a ratio `0 ≤ n / d ≤ 1`; of nothing to nothing, zero. -/
def ratio (n d : Nat) : String :=
  if n = 0 then millionths 0
  else
    let (digits, scale) := toBinary n d
    millionths (roundDiv (digits * 1000000) (1 <<< scale))

end Text
end PageTree
