import GameMedia.Audio.Requantize

/-!
# Joint stereo

Two channels may be coded as their sum and difference, and above the lines of the right channel as one signal with a
direction for each band.
-/

namespace GameMedia.Audio

/-! ## Mid and side -/

/-- One over the root of two, in single precision. -/
def halfRoot : Float32 := Float32.ofBits 0x3f3504f3

/-- The left and the right channel of a sum and a difference, below a line. -/
def midSide (stop : Nat) (mid side : Lines) : Lines × Lines :=
  (Vector.ofFn fun i => if i.val < stop then (mid.get i + side.get i) * halfRoot else mid.get i,
    Vector.ofFn fun i => if i.val < stop then (mid.get i - side.get i) * halfRoot else side.get i)

/-! ## Intensity -/

/-- The tangents of the directions, which are a twelfth of a half turn apart, in single precision. -/
def tangents : Array Float32 :=
  #[0x00000000, 0x3e8930a3, 0x3f13cd3b, 0x3f800000, 0x3fddb3d8, 0x406ed9f2].map Float32.ofBits

/-- What the left and the right channel have of a signal in a direction. There is none for a band that is not coded
this way. -/
def ratios? (direction : Nat) : Option (Float32 × Float32) :=
  match tangents[direction]? with
  | some t => some (t / (1 + t), 1 / (1 + t))
  | none => if direction = 6 then some (1, 0) else none

/-- The shares of each line. Bands count that begin at or above the right channel's zeros. The last long and the last
short band are never coded this way. -/
def lineRatios (g : GranuleInfo) (bands : Bands) (s : Scalefactors) (zeroFrom : Nat) :
    Array (Option (Float32 × Float32)) :=
  let long (band : Nat) :=
    if band < 21 ∧ zeroFrom ≤ bands.longStart band then ratios? (s.longAt band) else none
  let short (band window : Nat) :=
    if band < 12 ∧ zeroFrom ≤ bands.shortStart band then ratios? (s.shortAt band window) else none
  (spread g bands long short).toArray

def intensity (ratios : Array (Option (Float32 × Float32))) (left right : Lines) : Lines × Lines :=
  (Vector.ofFn fun i => match ratios.getD i none with
      | some (l, _) => left.get i * l
      | none => left.get i,
    Vector.ofFn fun i => match ratios.getD i none with
      | some (_, r) => left.get i * r
      | none => right.get i)

/-! ## Both -/

/-- The channels of a granule from what they are coded as. The directions are the scalefactors of the left channel. -/
def unjoin (h : Header) (bands : Bands) (g : GranuleInfo) (s : Scalefactors) (leftZero rightZero : Nat)
    (left right : Lines) : Lines × Lines :=
  let (left, right) := if h.usesMidSide then midSide (max leftZero rightZero) left right else (left, right)
  if h.usesIntensity then intensity (lineRatios g bands s rightZero) left right else (left, right)

end GameMedia.Audio
