import GameMedia.Audio.Reservoir
import GameMedia.Audio.Stereo
import GameMedia.Audio.Synthesis

/-!
# Decoding frames

A frame becomes 1152 pairs of samples. What it leaves behind for the next one is the reservoir of bytes and, for each
channel, the overlap of the transform and the filterbank.
-/

namespace GameMedia.Audio

structure Frame where
  /-- Where its header is in the stream. -/
  offset : Nat
  header : Header
  /-- What follows the header. -/
  body : Array UInt8
  deriving Inhabited

namespace Frame

def side (f : Frame) : SideInfo :=
  SideInfo.ofBytes f.header (f.body.extract f.header.crcSize (f.header.crcSize + f.header.sideInfoSize))

def fresh (f : Frame) : Array UInt8 := f.body.extract (f.header.crcSize + f.header.sideInfoSize) f.body.size

end Frame

/-! ## Channels -/

/-- What a channel carries from one granule to the next. -/
structure ChannelState where
  overlap : Overlap := Vector.replicate 32 (Vector.replicate 18 0)
  bank : Filterbank := Vector.replicate 16 (Vector.replicate 64 0)
  deriving Inhabited

def ChannelState.play (s : ChannelState) (g : GranuleInfo) (lines : Lines) : List Int16 × ChannelState :=
  let (samples, overlap) := inverseTransform g lines s.overlap
  let (sound, bank) := synthesize samples s.bank
  (sound, { overlap, bank })

/-- Both channels. Streams of one channel use the left. -/
structure Channels where
  left : ChannelState := {}
  right : ChannelState := {}
  deriving Inhabited

def spectrum (bands : Bands) (g : GranuleInfo) (c : CodedChannel) : Lines :=
  reorder g bands c.zeroFrom (requantize g bands c)

namespace Channels

def playMono (s : Channels) (h : Header) (g : GranuleInfo) (c : CodedChannel) : List (Int16 × Int16) × Channels :=
  let (sound, left) := s.left.play g (spectrum (Bands.of h.rate) g c)
  (sound.map fun x => (x, x), { s with left })

def playStereo (s : Channels) (h : Header) (g₀ g₁ : GranuleInfo) (c₀ c₁ : CodedChannel) :
    List (Int16 × Int16) × Channels :=
  let bands := Bands.of h.rate
  let lines := unjoin h bands g₀ c₀.scale c₀.zeroFrom c₁.zeroFrom (spectrum bands g₀ c₀) (spectrum bands g₁ c₁)
  let (sound₀, left) := s.left.play g₀ lines.1
  let (sound₁, right) := s.right.play g₁ lines.2
  (sound₀.zip sound₁, { left, right })

def play (s : Channels) (h : Header) (gs : List GranuleInfo) (cs : CodedGranule) : List (Int16 × Int16) × Channels :=
  if h.channels = 1 then s.playMono h (gs.getD 0 {}) (cs.getD 0 {})
  else s.playStereo h (gs.getD 0 {}) (gs.getD 1 {}) (cs.getD 0 {}) (cs.getD 1 {})

def playAll (s : Channels) (h : Header) : List (List GranuleInfo × CodedGranule) → List (Int16 × Int16) × Channels
  | [] => ([], s)
  | (gs, cs) :: rest =>
    let (sound, s) := s.play h gs cs
    let (later, s) := s.playAll h rest
    (sound ++ later, s)

end Channels

/-! ## Bytes of sound -/

/-- A sample as two bytes, the lower first. -/
def sampleBytes (x : Int16) : List UInt8 := [x.toUInt16.toUInt8, (x.toUInt16 >>> 8).toUInt8]

/-- Samples as bytes, left and right in turn. -/
def soundBytes (sound : List (Int16 × Int16)) : Array UInt8 :=
  (sound.flatMap fun (l, r) => sampleBytes l ++ sampleBytes r).toArray

def bytesPerFrame : Nat := 2 * 4 * lineCount

/-! ## Frames -/

/-- What is carried from one frame to the next. -/
structure FrameDecoder where
  reservoir : Reservoir := {}
  channels : Channels := {}
  deriving Inhabited

/-- The sound of a frame. One whose main data begins in bytes that are missing is silent, apart from what earlier
frames left. -/
def FrameDecoder.decode (d : FrameDecoder) (f : Frame) : Except AudioError (Array UInt8) × FrameDecoder :=
  let side := f.side
  let (data?, reservoir) := d.reservoir.assemble side.mainBegin f.fresh
  let coded := match data? with
    | some data => mainData f.header side data
    | none => .ok (silence f.header)
  match coded with
  | .error e => (.error e, { d with reservoir })
  | .ok coded =>
    let (sound, channels) := d.channels.playAll f.header (side.granules.zip coded)
    (.ok (soundBytes sound), { reservoir, channels })

end GameMedia.Audio
