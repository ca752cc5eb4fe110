import GameMedia.Audio.Error

/-!
# Frame headers

A frame begins with a word of 32 bits. Words that cannot begin one are told apart from those that begin a frame of
another version or layer.
-/

namespace GameMedia.Audio

inductive ChannelMode where
  | stereo
  /-- Two channels that may share what they have in common. -/
  | joint
  /-- Two channels that have nothing to do with each other. -/
  | dual
  | mono
  deriving DecidableEq, Repr, Inhabited

inductive SampleRate where
  | hz44100
  | hz48000
  | hz32000
  deriving DecidableEq, Repr, Inhabited

def SampleRate.hertz : SampleRate → Nat
  | hz44100 => 44100
  | hz48000 => 48000
  | hz32000 => 32000

/-- The header of an MPEG-1 Layer III frame. -/
structure Header where
  /-- Bits a second. -/
  bitrate : Nat
  rate : SampleRate
  /-- Whether a checksum of two bytes follows. -/
  crc : Bool
  padding : Bool
  mode : ChannelMode
  /-- What joint channels share: bit 1 is for mid and side, bit 0 for intensity. -/
  extension : Nat
  deriving DecidableEq, Repr, Inhabited

namespace Header

def field (word : UInt32) (low width : Nat) : Nat := word.toNat / Nat.pow 2 low % Nat.pow 2 width

/-- The bit rates by their index. The first stands for a rate that the header does not give, and the last index has
none. -/
def bitrates : List Nat :=
  [0, 32000, 40000, 48000, 56000, 64000, 80000, 96000, 112000, 128000, 160000, 192000, 224000, 256000, 320000]

def bitrate? (index : Nat) : Option Nat := if index = 0 then none else bitrates[index]?

def sampleRate? : Nat → Option SampleRate
  | 0 => some .hz44100
  | 1 => some .hz48000
  | 2 => some .hz32000
  | _ => none

def channelMode : Nat → ChannelMode
  | 0 => .stereo
  | 1 => .joint
  | 2 => .dual
  | _ => .mono

def versionLayer (word : UInt32) : Except AudioError Unit :=
  match field word 19 2, field word 17 2 with
  | 0, _ => .error (.unsupportedVersion .mpeg25)
  | 2, _ => .error (.unsupportedVersion .mpeg2)
  | _, 1 => .ok ()
  | _, layer => .error (.unsupportedLayer (4 - layer))

def ofWord (word : UInt32) : Except AudioError Header :=
  if field word 21 11 ≠ 0x7ff ∨ field word 19 2 = 1 ∨ field word 17 2 = 0 then .error (.invalidHeader word)
  else
    match bitrate? (field word 12 4), sampleRate? (field word 10 2) with
    | some bitrate, some rate => do
      versionLayer word
      return {
        bitrate, rate
        crc := field word 16 1 = 0
        padding := field word 9 1 = 1
        mode := channelMode (field word 6 2)
        extension := field word 4 2 }
    | _, _ => .error (.invalidHeader word)

def channels (h : Header) : Nat := if h.mode = .mono then 1 else 2

def frameSize (h : Header) : Nat := 144 * h.bitrate / h.rate.hertz + if h.padding then 1 else 0

def maxFrameSize : Nat := 2000

def crcSize (h : Header) : Nat := if h.crc then 2 else 0

def sideInfoSize (h : Header) : Nat := if h.channels = 1 then 17 else 32

def usesMidSide (h : Header) : Bool := h.mode = .joint && 2 ≤ h.extension % 4

def usesIntensity (h : Header) : Bool := h.mode = .joint && h.extension % 2 = 1

end Header

end GameMedia.Audio
