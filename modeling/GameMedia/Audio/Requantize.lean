import GameMedia.Audio.Spectrum

/-!
# Requantization

Coded lines are integers. Their magnitudes are raised to the power 4/3 and scaled by gains that change from band to
band. The gains are powers of two in quarters of an octave.
-/

namespace GameMedia.Audio

/-- The frequency lines of a granule and channel, and later its samples. -/
abbrev Lines : Type := Vector Float32 lineCount

/-! ## Bands by line -/

def spreadLong {α : Type} (bands : Bands) (value : Nat → α) (count : Nat) : List α :=
  (List.range count).flatMap fun b => List.replicate (bands.longStart (b + 1) - bands.longStart b) (value b)

def spreadShort {α : Type} (bands : Bands) (value : Nat → Nat → α) (first : Nat) : List α :=
  (List.range' first (13 - first)).flatMap fun b =>
    (List.range 3).flatMap fun w => List.replicate (bands.shortWidth b) (value b w)

def spread {α : Type} (g : GranuleInfo) (bands : Bands) (long : Nat → α) (short : Nat → Nat → α) : List α :=
  if !g.isShort then spreadLong bands long 22
  else if g.mixed then spreadLong bands long 8 ++ spreadShort bands short 3
  else spreadShort bands short 0

/-! ## Gains -/

/-- What the upper long bands have added to their scalefactors. -/
def preemphasis : Array Nat := #[0, 0, 0, 0, 0, 0, 0, 0, 0, 0, 0, 1, 1, 1, 1, 2, 2, 3, 3, 3, 2, 0]

def baseGain (g : GranuleInfo) : Int := (g.globalGain : Int) - 210

def scaleStep (g : GranuleInfo) : Int := if g.coarseScale then 4 else 2

def longGain (g : GranuleInfo) (s : Scalefactors) (band : Nat) : Int :=
  baseGain g - scaleStep g * ((s.longAt band + if g.preflag then preemphasis.getD band 0 else 0 : Nat) : Int)

def shortGain (g : GranuleInfo) (s : Scalefactors) (band window : Nat) : Int :=
  baseGain g - 8 * (g.subblockGains.getD window 0 : Int) - scaleStep g * (s.shortAt band window : Int)

def lineGains (g : GranuleInfo) (bands : Bands) (s : Scalefactors) : Array Int :=
  (spread g bands (longGain g s) (shortGain g s)).toArray

/-! ## Values -/

/-- The powers of two between one and two by quarters, in single precision. -/
def quarterRoots : Array Float32 :=
  #[0x3f800000, 0x3f9837f0, 0x3fb504f3, 0x3fd744fd].map Float32.ofBits

def quarterPower (k : Int) : Float32 := (quarterRoots.getD (k % 4).toNat 1).scaleB (k / 4)

def maxMagnitude : Nat := 8206

def powerTable : Array Float32 :=
  (Array.range (maxMagnitude + 1)).map fun n => ((Float.ofNat n).pow (4.0 / 3.0)).toFloat32

def power43 (x : Int) : Float32 :=
  let size := powerTable.getD (min x.natAbs maxMagnitude) 0
  if x < 0 then -size else size

def requantize (g : GranuleInfo) (bands : Bands) (c : CodedChannel) : Lines :=
  let gains := lineGains g bands c.scale
  Vector.ofFn fun i =>
    let x := c.lines.getD i 0
    if x = 0 then 0 else quarterPower (gains.getD i 0) * power43 x

/-! ## Short windows -/

def reorderBand {α : Type} (bands : Bands) (lines : Vector α lineCount) (band : Nat) : Vector α lineCount :=
  let start := bands.shortStart band
  let width := bands.shortWidth band
  Vector.ofFn fun i =>
    if start ≤ i.val ∧ i.val < start + 3 * width then
      (lines[start + (i.val - start) % 3 * width + (i.val - start) / 3]?).getD lines[i]
    else lines[i]

def shortBands (g : GranuleInfo) : List Nat := if g.mixed then List.range' 3 10 else List.range 13

def codedBands (g : GranuleInfo) (bands : Bands) (zeroFrom : Nat) : List Nat :=
  match shortBands g with
  | [] => []
  | b :: bs => b :: bs.takeWhile fun b => bands.shortStart b < zeroFrom

def reorder {α : Type} (g : GranuleInfo) (bands : Bands) (zeroFrom : Nat) (lines : Vector α lineCount) :
    Vector α lineCount :=
  if g.isShort then (codedBands g bands zeroFrom).foldl (reorderBand bands) lines else lines

end GameMedia.Audio
