import GameMedia.Audio.Requantize
import GameMedia.Audio.Transform.Tables

/-!
# The inverse transform

The lines of each of 32 subbands become samples. Aliases between neighbouring subbands are reduced first. The second
half of what a subband gives is added to the first half of what it gives in the next granule.
-/

namespace GameMedia.Audio

/-- The second halves of the last granule's blocks, for each subband. -/
abbrev Overlap : Type := Vector (Vector Float32 18) 32

namespace Transform

@[inline] def sum (n : Nat) (term : Fin n → Float32) : Float32 := Fin.foldl n (fun acc i => acc + term i) 0

/-! ## Alias reduction -/

def smoothSubbands (g : GranuleInfo) : Nat := if !g.isShort then 32 else if g.mixed then 2 else 0

/-- The butterflies across the borders of subbands: each takes lines at the same distance on both sides of a border,
and no line belongs to two. -/
def reduceAliases (g : GranuleInfo) (lines : Lines) : Lines :=
  let limit := smoothSubbands g
  Vector.ofFn fun i =>
    let band := i.val / 18
    let place := i.val % 18
    if place < 8 ∧ 0 < band ∧ band < limit then
      let (cs, ca) := aliasFactors.getD place (1, 0)
      lines.get i * cs + (lines[18 * band - 1 - place]?).getD 0 * ca
    else if 10 ≤ place ∧ band + 1 < limit then
      let (cs, ca) := aliasFactors.getD (17 - place) (1, 0)
      lines.get i * cs - (lines[18 * (band + 1) + (17 - place)]?).getD 0 * ca
    else lines.get i

/-! ## Blocks -/

def longBlock (window : Vector Float32 36) (lines : Vector Float32 18) : Vector Float32 36 :=
  Vector.ofFn fun p => sum 18 (fun m => lines[m] * cosines36[m][p]) * window[p]

/-- The sample at place `p` of one of the three windows of a short block. -/
def shortSample (lines : Vector Float32 18) (w : Fin 3) (p : Fin 12) : Float32 :=
  sum 6 (fun m => lines[w.val + 3 * m.val] * cosines12[m][p]) * windows[2][p]

def shortBlock (lines : Vector Float32 18) : Vector Float32 36 :=
  Vector.ofFn fun i =>
    Fin.foldl 3 (fun acc w =>
      if h : 6 * w.val + 6 ≤ i.val ∧ i.val < 6 * w.val + 18 then
        acc + shortSample lines w ⟨i.val - (6 * w.val + 6), by omega⟩
      else acc) 0

def block (kind : BlockType) (lines : Vector Float32 18) : Vector Float32 36 :=
  match kind with
  | .long => longBlock (windows.get 0) lines
  | .start => longBlock (windows.get 1) lines
  | .short => shortBlock lines
  | .stop => longBlock (windows.get 3) lines

/-- The window of a subband. The lowest two of mixed blocks are long. -/
def subbandKind (g : GranuleInfo) (band : Nat) : BlockType :=
  if g.windowSwitching ∧ g.mixed ∧ band < 2 then .long else g.blockType

/-! ## Overlap -/

def lineAt (lines : Lines) (band : Fin 32) (i : Fin 18) : Float32 :=
  have : 18 * band.val + i.val < lineCount := by simp only [lineCount]; omega
  lines[18 * band.val + i.val]

def blocks (g : GranuleInfo) (lines : Lines) : Vector (Vector Float32 36) 32 :=
  Vector.ofFn fun band => block (subbandKind g band) (Vector.ofFn (lineAt lines band))

/-- The samples of the subbands, and what overlaps with the next granule. -/
def overlapAdd (raw : Vector (Vector Float32 36) 32) (overlap : Overlap) : Lines × Overlap :=
  (Vector.ofFn fun i =>
      have : i.val < 576 := i.isLt
      raw[i.val / 18][i.val % 18] + overlap[i.val / 18][i.val % 18],
    raw.map fun samples => Vector.ofFn fun i => samples[i.val + 18])

/-- Odd samples of odd subbands change their sign, because these subbands have their frequencies reversed. -/
def invertFrequencies (lines : Lines) : Lines :=
  Vector.ofFn fun i => if i.val / 18 % 2 = 1 ∧ i.val % 18 % 2 = 1 then -lines.get i else lines.get i

end Transform

def inverseTransform (g : GranuleInfo) (lines : Lines) (overlap : Overlap) : Lines × Overlap :=
  let (samples, overlap) := Transform.overlapAdd (Transform.blocks g (Transform.reduceAliases g lines)) overlap
  (Transform.invertFrequencies samples, overlap)

end GameMedia.Audio
