import GameMedia.Audio.Header

/-!
# Scalefactor bands

The frequency lines of a granule fall into bands that are scaled together. Short blocks have three windows, each with
a third of the lines.
-/

namespace GameMedia.Audio

def lineCount : Nat := 576

structure Bands where
  /-- Where the bands of long blocks begin, and where the last ends. -/
  long : Array Nat
  /-- The same for one window of short blocks. -/
  short : Array Nat
  deriving Inhabited

namespace Bands

def of : SampleRate → Bands
  | .hz44100 =>
    { long := #[0, 4, 8, 12, 16, 20, 24, 30, 36, 44, 52, 62, 74, 90, 110, 134, 162, 196, 238, 288, 342, 418, 576]
      short := #[0, 4, 8, 12, 16, 22, 30, 40, 52, 66, 84, 106, 136, 192] }
  | .hz48000 =>
    { long := #[0, 4, 8, 12, 16, 20, 24, 30, 36, 42, 50, 60, 72, 88, 106, 128, 156, 190, 230, 276, 330, 384, 576]
      short := #[0, 4, 8, 12, 16, 22, 28, 38, 50, 64, 80, 100, 126, 192] }
  | .hz32000 =>
    { long := #[0, 4, 8, 12, 16, 20, 24, 30, 36, 44, 54, 66, 82, 102, 126, 156, 194, 240, 296, 364, 448, 550, 576]
      short := #[0, 4, 8, 12, 16, 22, 30, 42, 58, 78, 104, 138, 180, 192] }

def longStart (b : Bands) (band : Nat) : Nat := b.long.getD band lineCount

def shortStart (b : Bands) (band : Nat) : Nat := 3 * b.short.getD band 192

def shortWidth (b : Bands) (band : Nat) : Nat := b.short.getD (band + 1) 192 - b.short.getD band 192

end Bands

end GameMedia.Audio
