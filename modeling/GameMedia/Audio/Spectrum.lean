import GameMedia.Audio.Bands
import GameMedia.Audio.Huffman
import GameMedia.Audio.SideInfo

/-!
# Coded spectra

The main data of a frame holds, for each granule and channel, the scalefactors and the frequency lines as integers.
Each part has the length that the side information gives it, whatever its codes say.
-/

namespace GameMedia.Audio

/-! ## Scalefactors -/

/-- The scalefactors of a granule and channel. Those that are not there are zero. -/
structure Scalefactors where
  long : Array Nat := #[]
  /-- Those of the three windows of each band. -/
  short : Array Nat := #[]
  deriving Inhabited

namespace Scalefactors

def longAt (s : Scalefactors) (band : Nat) : Nat := s.long.getD band 0

def shortAt (s : Scalefactors) (band window : Nat) : Nat := s.short.getD (3 * band + window) 0

/-- The bits of the lower and of the upper scalefactors, by index. -/
def lengths : Array (Nat × Nat) :=
  #[(0, 0), (0, 1), (0, 2), (0, 3), (3, 0), (1, 1), (1, 2), (1, 3), (2, 1), (2, 2), (2, 3), (3, 1), (3, 2), (3, 3),
    (4, 2), (4, 3)]

open BitRead in
/-- Six bands in three windows have the first length, and six the second. Mixed blocks have eight long bands in place
of the first three. -/
def readShort (g : GranuleInfo) : BitRead Scalefactors := do
  let (lower, upper) := lengths.getD g.scaleLengths (0, 0)
  if g.mixed then
    let long ← times (bits lower) 8
    let low ← times (bits lower) 9
    let high ← times (bits upper) 18
    return ⟨long.toArray, (List.replicate 9 0 ++ low ++ high).toArray⟩
  else
    let low ← times (bits lower) 18
    let high ← times (bits upper) 18
    return { short := (low ++ high).toArray }

/-- The bands of a group that is reused as a whole: its first band and its number of bands, and whether they have the
first length. -/
def groups : List (Nat × Nat × Bool) := [(0, 6, true), (6, 5, true), (11, 5, false), (16, 5, false)]

def readGroups (lengths : Nat × Nat) (previous : Option Scalefactors) :
    List (Nat × Nat × Bool) → List Bool → BitRead (List Nat)
  | [], _ => pure []
  | (first, count, isLower) :: gs, reuse => do
    let here ← match previous, reuse.headD false with
      | some p, true => pure ((List.range count).map fun i => p.longAt (first + i))
      | _, _ => BitRead.times (BitRead.bits (if isLower then lengths.1 else lengths.2)) count
    return here ++ (← readGroups lengths previous gs reuse.tail)

/-- The scalefactors of long blocks. The second granule may take groups from the first. -/
def readLong (g : GranuleInfo) (reuse : List Bool) (previous : Option Scalefactors) : BitRead Scalefactors := do
  let long ← readGroups (lengths.getD g.scaleLengths (0, 0)) previous groups reuse
  return { long := long.toArray }

def read (g : GranuleInfo) (reuse : List Bool) (previous : Option Scalefactors) : BitRead Scalefactors :=
  if g.isShort then readShort g else readLong g reuse previous

end Scalefactors

/-! ## Lines -/

structure CodedChannel where
  scale : Scalefactors := {}
  lines : Array Int := #[]
  /-- From here on all lines are zero. -/
  zeroFrom : Nat := 0
  deriving Inhabited

namespace CodedChannel

/-- Where the second and the third region of pairs begin. -/
def regions (g : GranuleInfo) (bands : Bands) : Nat × Nat :=
  if g.isShort then (36, lineCount)
  else (bands.longStart (min (g.region0 + 1) 22), bands.longStart (min (g.region0 + g.region1 + 2) 22))

def tableAt (g : GranuleInfo) (regions : Nat × Nat) (line : Nat) : Nat :=
  if line < regions.1 then g.tables.getD 0 0
  else if line < regions.2 then g.tables.getD 1 0
  else g.tables.getD 2 0

open Huffman in
def readPairs (g : GranuleInfo) (regions : Nat × Nat) (line : Nat) : Nat → CodeRead (List Int)
  | 0 => pure []
  | n + 1 => do
    let (x, y) ← readPair (tableAt g regions line)
    return x :: y :: (← readPairs g regions (line + 2) n)

open Huffman in
/-- At most so many quadruples, as far as the part reaches. One that goes beyond it does not count. -/
def readQuads (tableB : Bool) (stop : Nat) : Nat → CodeRead (List Int)
  | 0 => pure []
  | n + 1 => do
    if stop ≤ (← BitRead.position) then return []
    else
      let quad ← readQuad tableB
      if stop < (← BitRead.position) then return []
      else return quad ++ (← readQuads tableB stop n)

open Huffman in
/-- The lines of a part that began at a position, and where the zeros begin. -/
def readLines (g : GranuleInfo) (bands : Bands) (start : Nat) : CodeRead (Array Int × Nat) := do
  if g.length = 0 then return (#[], 0)
  else
    let stop := start + g.length
    let pairs ← readPairs g (regions g bands) 0 g.bigValues
    let quads ← readQuads g.quadTableB stop ((lineCount - 2 * g.bigValues) / 4)
    BitRead.moveTo stop
    return ((pairs ++ quads).toArray, pairs.length + quads.length)

open Huffman in
def read (g : GranuleInfo) (bands : Bands) (reuse : List Bool) (previous : Option Scalefactors) :
    CodeRead CodedChannel := do
  let start ← BitRead.position
  let scale ← Scalefactors.read g reuse previous
  let (lines, zeroFrom) ← readLines g bands start
  return ⟨scale, lines, zeroFrom⟩

end CodedChannel

abbrev CodedGranule : Type := List CodedChannel

namespace CodedGranule

open Huffman in
/-- The channels of a granule. `earlier` are those of the first granule when this is the second. -/
def read (bands : Bands) : List GranuleInfo → List (List Bool) → CodedGranule → CodeRead CodedGranule
  | [], _, _ => pure []
  | g :: gs, reuse, earlier => do
    let c ← CodedChannel.read g bands (reuse.headD []) (earlier.head?.map CodedChannel.scale)
    return c :: (← read bands gs reuse.tail earlier.tail)

end CodedGranule

open Huffman in
def readMainData (bands : Bands) (side : SideInfo) : CodeRead (List CodedGranule) := do
  let first ← CodedGranule.read bands (side.granules.getD 0 []) side.reuse []
  let second ← CodedGranule.read bands (side.granules.getD 1 []) side.reuse first
  return [first, second]

def mainData (h : Header) (side : SideInfo) (data : Array UInt8) : Except AudioError (List CodedGranule) :=
  (readMainData (Bands.of h.rate) side { data }).1

def silence (h : Header) : List CodedGranule := List.replicate 2 (List.replicate h.channels {})

end GameMedia.Audio
