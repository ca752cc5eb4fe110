import GameMedia.Number.Binary64

/-!
# Decimal text of doubles

Two texts are needed. `shortest` has the fewest digits that still read back as the same double and is always
positional. `scientific` has a fixed number of digits after the point and a bare exponent. Both are found on
the grid of the multiples of a power of ten, in exact arithmetic.
-/

namespace GameMedia.Number

/-- The number `coefficient * 10 ^ exponent`. -/
structure Decimal where
  coefficient : Nat
  exponent : Int
  deriving DecidableEq, Repr

namespace Decimal

/-- Decimal digits of `n`, most significant first. -/
def digits (n : Nat) : List Char := Nat.toDigits 10 n

def leadingExponent (r : Rat) : Int :=
  let guess : Int := (digits r.num.natAbs).length - (digits r.den).length
  if r < (10 : Rat) ^ guess then guess - 1 else guess

/-- `n` without its trailing zeros, `fuel` of them at most, each moved into the exponent. -/
def trimZeros : Nat → Nat → Int → Decimal
  | 0, n, e => ⟨n, e⟩
  | fuel + 1, n, e => if n % 10 = 0 then trimZeros fuel (n / 10) (e + 1) else ⟨n, e⟩

/-- Positional text: no exponent and, past the point, no trailing zero. -/
def positional (d : Decimal) : String :=
  let ds := digits d.coefficient
  let point : Int := ds.length + d.exponent
  if 0 ≤ d.exponent then String.ofList (ds ++ List.replicate d.exponent.toNat '0')
  else if 0 < point then
    String.ofList (ds.take point.toNat ++ '.' :: ds.drop point.toNat)
  else
    String.ofList ('0' :: '.' :: (List.replicate (-point).toNat '0' ++ ds))

end Decimal

/-- The reals that round to one double: those between two bounds, the bounds included or not. -/
structure RoundingInterval where
  low : Rat
  high : Rat
  closed : Bool

namespace RoundingInterval

/-- The interval around the positive double `m * 2 ^ e`. Below a power of two the neighbour is half as far. -/
def around (m : Nat) (e : Int) : RoundingInterval where
  low :=
    if m = Binary64.leadingBit ∧ Binary64.leastExponent < e then (4 * m - 1) * (2 : Rat) ^ (e - 2)
    else (2 * m - 1) * (2 : Rat) ^ (e - 1)
  high := (2 * m + 1) * (2 : Rat) ^ (e - 1)
  closed := m % 2 = 0

def contains (i : RoundingInterval) (r : Rat) : Bool :=
  if i.closed then i.low ≤ r && r ≤ i.high else i.low < r && r < i.high

/-- The multiple of `10 ^ e` next to `v` that lies in the interval: the nearer of two, the upper one at a tie. -/
def onGrid (i : RoundingInterval) (v : Rat) (e : Int) : Option Nat :=
  let unit := (10 : Rat) ^ e
  let down := (v / unit).floor.toNat
  let up := down + 1
  match i.contains (down * unit), i.contains (up * unit) with
  | true, true => some (if v - down * unit < up * unit - v then down else up)
  | true, false => some down
  | false, true => some up
  | false, false => none

/-- Searches grids that get finer by one digit at a time, `fuel` of them, starting at `10 ^ e`. -/
def search (i : RoundingInterval) (v : Rat) : Nat → Int → Decimal
  | 0, e => ⟨(roundHalfEven (v / (10 : Rat) ^ e)).toNat, e⟩
  | fuel + 1, e =>
    match i.onGrid v e with
    | some n => Decimal.trimZeros (Decimal.digits n).length n e
    | none => search i v fuel (e - 1)

end RoundingInterval

namespace Binary64

/-- The decimal of fewest digits that rounds to the positive double `m * 2 ^ e`, the nearest one of those. -/
def shortestDecimal (m : Nat) (e : Int) : Decimal :=
  let v := (m : Rat) * (2 : Rat) ^ e
  (RoundingInterval.around m e).search v 17 (Decimal.leadingExponent v)

def signText (negative : Bool) : String := if negative then "-" else ""

/-- The fewest digits that read back as the same double, never with an exponent. -/
def shortest : Binary64 → String
  | .infinite negative => signText negative ++ "inf"
  | .finite negative m e =>
    signText negative ++ if m = 0 then "0" else (shortestDecimal m e).positional

/-- `r` rounded to `places` digits after the leading one, ties to even: the digits and the exponent of the first. -/
def rounded (r : Rat) (places : Nat) : Nat × Int :=
  let k := Decimal.leadingExponent r
  let n := (roundHalfEven (r / (10 : Rat) ^ (k - places))).toNat
  if n = Nat.pow 10 (places + 1) then (Nat.pow 10 places, k + 1) else (n, k)

/-- One digit, a point, `places` more digits and the exponent of ten, which has a sign only if negative. -/
def scientific (places : Nat) : Binary64 → String
  | .infinite negative => signText negative ++ "inf"
  | .finite negative m e =>
    let (n, k) := if m = 0 then (0, 0) else rounded ((m : Rat) * (2 : Rat) ^ e) places
    let ds := if n = 0 then List.replicate (places + 1) '0' else Decimal.digits n
    signText negative ++ String.ofList (ds.take 1) ++ "." ++ String.ofList (ds.drop 1) ++ "e" ++ toString k

end Binary64

end GameMedia.Number
