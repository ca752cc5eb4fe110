import GameMedia.Audio.FrameReader

/-!
# The decoder

A decoder gives the sound of a stream as bytes: samples of 16 bits, the lower byte first, left and right in turn. Over
a source that was scanned first it also knows the length of the sound and can go to any place of it. Calls that fail
leave a decoder that can be used further.
-/

namespace GameMedia.Audio

open ByteSource

structure Decoder (σ : Type) where
  frames : FrameReader σ
  state : FrameDecoder := {}
  /-- Samples a second, taken from the first frame. -/
  sampleRate : Nat := 0
  /-- The sound of the latest frame. -/
  pcm : Array UInt8 := #[]
  /-- How much of it was read. -/
  cursor : Nat := 0
  /-- The position in the sound. -/
  pos : Nat := 0
  /-- Where the frames are, if the source was scanned. -/
  offsets : Option (Array Nat) := none
  deriving Inhabited

/-- Where to go. -/
inductive SeekFrom where
  | start (pos : Nat)
  | current (delta : Int)
  | fromEnd (delta : Int)
  deriving DecidableEq, Repr, Inhabited

/-- Why a decoder did not go to a position. -/
inductive SeekError where
  /-- The position is before the start, or beyond what 64 bits can hold. -/
  | negative
  | unknownLength
  /-- The source was not scanned. -/
  | notSeekable
  | decoding (e : AudioError)
  deriving DecidableEq, Repr, Inhabited

def SeekError.message : SeekError → String
  | negative => "seek to a negative position"
  | unknownLength => "length is unknown"
  | notSeekable => "decoder was not created with new_seekable"
  | decoding e => e.message

namespace Decoder

variable {σ : Type} [ByteSource σ]

def length? (d : Decoder σ) : Option Nat := d.offsets.map (bytesPerFrame * ·.size)

/-! ## Frame after frame -/

/-- Makes the sound of a frame the latest. If the frame does not decode, its sound is silence. -/
def decode (d : Decoder σ) (f : Frame) : Except AudioError Unit × Decoder σ :=
  match d.state.decode f with
  | (.ok pcm, state) => (.ok (), { d with state, pcm, cursor := 0 })
  | (.error e, state) => (.error e, { d with state, pcm := Array.replicate bytesPerFrame 0, cursor := 0 })

/-- Goes to the next frame, and tells whether there is one. -/
def advance (d : Decoder σ) : Except AudioError Bool × Decoder σ :=
  match d.frames.next? with
  | (.error e, frames) => (.error e, { d with frames })
  | (.ok none, frames) => (.ok false, { d with frames, pcm := #[], cursor := 0 })
  | (.ok (some f), frames) =>
    match decode { d with frames } f with
    | (.ok (), d) => (.ok true, d)
    | (.error e, d) => (.error e, d)

omit [ByteSource σ] in
theorem frames_decode (d : Decoder σ) (f : Frame) : (d.decode f).2.frames = d.frames := by
  unfold decode
  split <;> rfl

theorem left_advance_lt {d d' : Decoder σ} (h : d.advance = (.ok true, d')) :
    left d'.frames.source < left d.frames.source := by
  unfold advance at h
  split at h
  · simp at h
  · simp at h
  · next f frames hnext =>
    have hf := frames_decode { d with frames } f
    split at h
    · next d₁ hd =>
      obtain ⟨-, rfl⟩ := Prod.mk.inj h
      rw [hd] at hf
      have := FrameReader.left_next?_lt hnext
      simp only at hf
      rw [hf]
      exact this
    · simp at h

/-! ## Opening -/

def ofSource (source : σ) : Except AudioError (Decoder σ) × σ :=
  match FrameReader.next? ⟨source, 0⟩ with
  | (.error e, frames) => (.error e, frames.source)
  | (.ok none, frames) => (.error .noFrames, frames.source)
  | (.ok (some f), frames) =>
    match decode { frames, sampleRate := f.header.rate.hertz } f with
    | (.ok (), d) => (.ok d, d.frames.source)
    | (.error e, d) => (.error e, d.frames.source)

def scan (r : FrameReader σ) (found : Array Nat) : Except AudioError (Array Nat) × FrameReader σ :=
  match h : r.next? with
  | (.error e, r') => (.error e, r')
  | (.ok none, r') => (.ok found, r')
  | (.ok (some f), r') =>
    have := FrameReader.left_next?_lt h
    scan r' (found.push f.offset)
termination_by left r.source

def ofScanned (source : σ) : Except AudioError (Decoder σ) × σ :=
  match seekStart source 0 with
  | (.error e, source) => (.error (.source e), source)
  | (.ok (), source) =>
    match scan ⟨source, 0⟩ #[] with
    | (.error e, r) => (.error e, r.source)
    | (.ok offsets, r) =>
      match seekStart r.source 0 with
      | (.error e, source) => (.error (.source e), source)
      | (.ok (), source) =>
        match ofSource source with
        | (.error e, source) => (.error e, source)
        | (.ok d, source) => (.ok { d with offsets := some offsets }, source)

/-! ## Reading -/

/-- What was not read of the latest frame, up to `n` bytes. -/
def unread (d : Decoder σ) (n : Nat) : Array UInt8 := d.pcm.extract d.cursor (d.cursor + n)

/-- The decoder after so many more bytes of the latest frame. -/
def skip (d : Decoder σ) (n : Nat) : Decoder σ := { d with cursor := d.cursor + n, pos := d.pos + n }

/-- At most `n` of the next bytes. There are none only at the end, or if none are wanted. -/
def read (d : Decoder σ) (n : Nat) : Except AudioError (Array UInt8) × Decoder σ :=
  if n = 0 then (.ok #[], d)
  else if d.cursor = d.pcm.size then
    match d.advance with
    | (.error e, d) => (.error e, d)
    | (.ok false, d) => (.ok #[], d)
    | (.ok true, d) => (.ok (d.unread n), d.skip (d.unread n).size)
  else (.ok (d.unread n), d.skip (d.unread n).size)

/-- All further bytes behind those that were gathered before, and the failure that ended them if one did. -/
def readAllFrom (d : Decoder σ) (gathered : Array UInt8) : Array UInt8 × Option AudioError × Decoder σ :=
  let bytes := d.unread (d.pcm.size - d.cursor)
  match h : (d.skip bytes.size).advance with
  | (.error e, d') => (gathered ++ bytes, some e, d')
  | (.ok false, d') => (gathered ++ bytes, none, d')
  | (.ok true, d') =>
    have : left d'.frames.source < left (d.skip bytes.size).frames.source := left_advance_lt h
    have : left d'.frames.source < left d.frames.source := this
    readAllFrom d' (gathered ++ bytes)
termination_by left d.frames.source

/-- All further bytes, and the failure that ended them if one did. -/
def readAll (d : Decoder σ) : Array UInt8 × Option AudioError × Decoder σ := d.readAllFrom #[]

/-! ## Seeking -/

def target (d : Decoder σ) (place : SeekFrom) : Except SeekError Nat :=
  let checked (pos : Int) := if 0 ≤ pos ∧ pos < 0x10000000000000000 then .ok pos.toNat else .error .negative
  match place with
  | .start pos => .ok pos
  | .current delta => checked (d.pos + delta)
  | .fromEnd delta => match d.length? with
    | some length => checked (length + delta)
    | none => .error .unknownLength

def seekPastEnd (d : Decoder σ) (length : Nat) : Except SeekError Nat × Decoder σ :=
  match seekEnd d.frames.source with
  | (.error e, source) => (.error (.decoding (.source e)), { d with frames := { d.frames with source } })
  | (.ok stop, source) => (.ok length, { d with frames := ⟨source, stop⟩, pcm := #[], cursor := 0, pos := length })

def advanceBy (d : Decoder σ) : Nat → Except AudioError Unit × Decoder σ
  | 0 => (.ok (), d)
  | n + 1 => match d.advance with
    | (.error e, d) => (.error e, d)
    | (.ok _, d) => d.advanceBy n

/-- Goes to a position in the frame of an index. The frame before it is decoded too, for what it leaves behind. -/
def seekInto (d : Decoder σ) (index start pos : Nat) : Except SeekError Nat × Decoder σ :=
  match seekStart d.frames.source start with
  | (.error e, source) =>
    (.error (.decoding (.source e)), { d with state := {}, frames := { d.frames with source } })
  | (.ok (), source) =>
    match advanceBy { d with state := {}, frames := ⟨source, start⟩ } (if 0 < index then 2 else 1) with
    | (.error e, d) => (.error (.decoding e), d)
    | (.ok (), d) => (.ok pos, { d with cursor := pos % bytesPerFrame, pos })

def seekTo (d : Decoder σ) (pos : Nat) : Except SeekError Nat × Decoder σ :=
  match d.offsets with
  | none => (.error .notSeekable, d)
  | some offsets =>
    let index := pos / bytesPerFrame
    if index < offsets.size then d.seekInto index (offsets.getD (index - 1) 0) pos
    else d.seekPastEnd (bytesPerFrame * offsets.size)

/-- Goes to a place and tells its position. The end of the sound stands for all positions behind it. -/
def seek (d : Decoder σ) (place : SeekFrom) : Except SeekError Nat × Decoder σ :=
  match d.target place with
  | .error e => (.error e, d)
  | .ok pos => if pos = d.pos then (.ok pos, d) else d.seekTo pos

end Decoder

end GameMedia.Audio
