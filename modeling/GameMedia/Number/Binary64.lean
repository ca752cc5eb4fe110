/-!
# Double-precision numbers

A double is kept as a sign, a significand and the binary exponent of its last place. Its value is then a
rational number, so rounding to it and writing it down are exact arithmetic.
-/

namespace GameMedia.Number

def roundHalfEven (r : Rat) : Int :=
  let down := r.floor
  let part := r - down
  if part < 1 / 2 then down
  else if 1 / 2 < part then down + 1
  else if down % 2 = 0 then down
  else down + 1

/-- A double: a sign with the magnitude `significand * 2 ^ exponent`, or an infinity. -/
inductive Binary64 where
  | finite (negative : Bool) (significand : Nat) (exponent : Int)
  | infinite (negative : Bool)
  deriving DecidableEq, Repr

namespace Binary64

def leadingBit : Nat := 0x10000000000000

def signBit : Nat := 0x8000000000000000

/-- Exponent of the last place of every subnormal double. -/
def leastExponent : Int := -1074

/-- Exponent of the last place of the largest finite double. -/
def greatestExponent : Int := 971

/-- Exponent of the last place that keeps 53 significant bits of a positive `r`, or of the subnormal range. -/
def lastPlace (r : Rat) : Int :=
  let guess : Int := r.num.natAbs.log2 - r.den.log2 - 52
  let e := if r < (2 : Rat) ^ (guess + 52) then guess - 1 else guess
  max e leastExponent

/-- The double nearest to `r`, ties to even; a magnitude too large for a double becomes infinite. -/
def nearest (r : Rat) : Binary64 :=
  let negative := decide (r < 0)
  let size := r.abs
  if size = 0 then .finite false 0 leastExponent
  else
    let e := lastPlace size
    let m := (roundHalfEven (size / (2 : Rat) ^ e)).toNat
    let (m, e) := if m = 2 * leadingBit then (leadingBit, e + 1) else (m, e)
    if greatestExponent < e then .infinite negative else .finite negative m e

def isNegative : Binary64 → Bool
  | .finite negative _ _ => negative
  | .infinite negative => negative

/-- The number a finite double stands for. -/
def value? : Binary64 → Option Rat
  | .finite negative m e =>
    let size := (m : Rat) * (2 : Rat) ^ e
    some (if negative then -size else size)
  | .infinite _ => none

/-- The interchange encoding: sign bit, eleven exponent bits, 52 significand bits. -/
def bits : Binary64 → Nat
  | .finite negative m e =>
    let sign := if negative then signBit else 0
    if m < leadingBit then sign + m else sign + (e + 1075).toNat * leadingBit + (m - leadingBit)
  | .infinite negative => (if negative then signBit else 0) + 2047 * leadingBit

end Binary64

end GameMedia.Number
