/-!
# Decoding errors
-/

namespace GameMedia.Audio

/-- Why a byte source failed. -/
inductive SourceErrorKind where
  | permissionDenied
  | invalidInput
  | other
  deriving DecidableEq, Repr, Inhabited

/-- A failure of the source that a stream is read from. -/
structure SourceError where
  kind : SourceErrorKind
  message : String
  deriving DecidableEq, Repr, Inhabited

/-- A version of the audio standard that is not decoded. -/
inductive OldVersion where
  | mpeg2
  | mpeg25
  deriving DecidableEq, Repr, Inhabited

def OldVersion.text : OldVersion → String
  | mpeg2 => "MPEG-2"
  | mpeg25 => "MPEG-2.5"

inductive AudioError where
  | source (e : SourceError)
  /-- A word that cannot begin a frame. -/
  | invalidHeader (word : UInt32)
  | unsupportedLayer (layer : Nat)
  | unsupportedVersion (v : OldVersion)
  | frameTooLarge (size : Nat)
  /-- The stream ends inside a frame. -/
  | truncated
  | noFrames
  | badCode (table : Nat)
  deriving DecidableEq, Repr, Inhabited

namespace AudioError

def hexWord (word : UInt32) : String :=
  let digits := Nat.toDigits 16 word.toNat
  "0x" ++ String.ofList (List.replicate (8 - digits.length) '0' ++ digits)

def message : AudioError → String
  | source e => e.message
  | invalidHeader word => "invalid frame header " ++ hexWord word
  | unsupportedLayer layer => s!"unsupported layer: Layer {layer}"
  | unsupportedVersion v => "unsupported MPEG version: " ++ v.text
  | frameTooLarge size => s!"frame size {size} exceeds 2000 bytes"
  | truncated => "unexpected end of stream inside a frame"
  | noFrames => "no MPEG audio frame found"
  | badCode table => s!"invalid Huffman code in table {table}"

end AudioError

end GameMedia.Audio
