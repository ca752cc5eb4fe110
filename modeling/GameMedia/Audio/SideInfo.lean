import GameMedia.Audio.BitReader
import GameMedia.Audio.Header

/-!
# Side information

What a frame says about its two granules: how long the coded data of each channel is, how it is coded, and how it is
to be scaled and transformed.
-/

namespace GameMedia.Audio

/-- The windows of a granule. -/
inductive BlockType where
  | long
  | start
  | short
  | stop
  deriving DecidableEq, Repr, Inhabited

def BlockType.ofBits : Nat → BlockType
  | 0 => long
  | 1 => start
  | 2 => short
  | _ => stop

/-- How the data of a granule and channel is coded. -/
structure GranuleInfo where
  /-- The bits of the scalefactors and the coded lines together. -/
  length : Nat := 0
  /-- The pairs of lines that are coded as such. -/
  bigValues : Nat := 0
  globalGain : Nat := 0
  scaleLengths : Nat := 0
  windowSwitching : Bool := false
  blockType : BlockType := .long
  /-- Whether the lowest lines have long windows in any case. -/
  mixed : Bool := false
  /-- The code tables of the three regions of pairs. -/
  tables : List Nat := [0, 0, 0]
  /-- The gains of the three short windows. -/
  subblockGains : List Nat := [0, 0, 0]
  region0 : Nat := 0
  region1 : Nat := 0
  preflag : Bool := false
  coarseScale : Bool := false
  /-- Which of the two tables the quadruples are coded with. -/
  quadTableB : Bool := false
  deriving DecidableEq, Repr, Inhabited

/-- The pairs that a granule has room for. -/
def maxBigValues : Nat := 288

namespace GranuleInfo

def isShort (g : GranuleInfo) : Bool := g.windowSwitching && g.blockType = .short

open BitRead in
def readSwitched (g : GranuleInfo) : BitRead GranuleInfo := do
  let blockType := BlockType.ofBits (← bits 2)
  let mixed ← bit
  let tables ← times (bits 5) 2
  let subblockGains ← times (bits 3) 3
  let region0 := if blockType = .short ∧ !mixed then 8 else 7
  return { g with
    blockType, mixed, subblockGains, region0
    tables := tables ++ [0]
    region1 := 20 - region0 }

open BitRead in
def readPlain (g : GranuleInfo) : BitRead GranuleInfo := do
  let tables ← times (bits 5) 3
  let region0 ← bits 4
  let region1 ← bits 3
  return { g with tables, region0, region1 }

open BitRead in
def read : BitRead GranuleInfo := do
  let length ← bits 12
  let bigValues := min (← bits 9) maxBigValues
  let globalGain ← bits 8
  let scaleLengths ← bits 4
  let windowSwitching ← bit
  let g : GranuleInfo := { length, bigValues, globalGain, scaleLengths, windowSwitching }
  let g ← if windowSwitching then readSwitched g else readPlain g
  let preflag ← bit
  let coarseScale ← bit
  let quadTableB ← bit
  return { g with preflag, coarseScale, quadTableB }

end GranuleInfo

structure SideInfo where
  /-- How many bytes before the frame's own its main data begins. -/
  mainBegin : Nat
  /-- For each channel, the four groups of scalefactors that the second granule takes from the first. -/
  reuse : List (List Bool)
  /-- The channels of each granule. -/
  granules : List (List GranuleInfo)
  deriving DecidableEq, Repr, Inhabited

namespace SideInfo

open BitRead in
def read (channels : Nat) : BitRead SideInfo := do
  let mainBegin ← bits 9
  let _ ← bits (if channels = 1 then 5 else 3)
  let reuse ← times (times bit 4) channels
  let granules ← times (times GranuleInfo.read channels) 2
  return ⟨mainBegin, reuse, granules⟩

def ofBytes (h : Header) (data : Array UInt8) : SideInfo := (read h.channels { data }).1

end SideInfo

end GameMedia.Audio
