import GameMedia.Audio.Synthesis.Window
import GameMedia.Audio.Transform

/-!
# Subband synthesis

Each round takes one sample from each of the 32 subbands and gives 32 samples of sound. They depend on the last
sixteen rounds.
-/

namespace GameMedia.Audio

/-- What the last sixteen rounds of a channel gave, the latest first. -/
abbrev Filterbank : Type := Vector (Vector Float32 64) 16

namespace Synthesis

/-- The cosines that a round is multiplied with. -/
def matrix : Vector (Vector Float32 32) 64 :=
  Vector.ofFn fun i => Vector.ofFn fun j =>
    (Float.ofNat (16 + i.val) * Float.ofNat (2 * j.val + 1) * 3.141592653589793 / 64).cos.toFloat32

def mixed (lines : Lines) (round : Fin 18) : Vector Float32 64 :=
  let inputs : Vector Float32 32 := Vector.ofFn fun j => Transform.lineAt lines j round
  Vector.ofFn fun i =>
    let row := matrix[i]
    Transform.sum 32 fun j => row[j] * inputs[j]

def push (bank : Filterbank) (latest : Vector Float32 64) : Filterbank :=
  Vector.ofFn fun i => if i.val = 0 then latest else bank[i.val - 1]

/-- A sample of sound. Rounds lend their lower and their upper halves in turn. -/
def sampleAt (bank : Filterbank) (j : Fin 32) : Float32 :=
  Transform.sum 16 fun i => bank[i][j.val + 32 * (i.val % 2)] * window[j.val + 32 * i.val]

/-- A sample as an integer, cut off at the ends of a range that is the same on both sides. -/
def quantize (x : Float32) : Int16 :=
  let scaled := x * 32767
  (if scaled < -32767 then -32767 else if 32767 < scaled then 32767 else scaled : Float32).toInt16

def rounds (lines : Lines) : List (Fin 18) → Filterbank → List Int16 × Filterbank
  | [], bank => ([], bank)
  | r :: rs, bank =>
    let bank := push bank (mixed lines r)
    let (later, final) := rounds lines rs bank
    ((List.finRange 32).map (fun j => quantize (sampleAt bank j)) ++ later, final)

end Synthesis

/-- The samples of sound of a granule and channel, and the bank behind it. -/
def synthesize (lines : Lines) (bank : Filterbank) : List Int16 × Filterbank :=
  Synthesis.rounds lines (List.finRange 18) bank

end GameMedia.Audio
