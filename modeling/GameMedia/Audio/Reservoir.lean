/-!
# The bit reservoir

The main data of a frame may begin in the bytes of earlier frames, so the last of these are kept.
-/

namespace GameMedia.Audio

/-- The main data of earlier frames. -/
structure Reservoir where
  bytes : Array UInt8 := #[]
  deriving Inhabited

namespace Reservoir

/-- How many bytes are kept. -/
def capacity : Nat := 2048

def data? (r : Reservoir) (back : Nat) (fresh : Array UInt8) : Option (Array UInt8) :=
  if back ≤ r.bytes.size then some (r.bytes.extract (r.bytes.size - back) r.bytes.size ++ fresh) else none

def push (r : Reservoir) (fresh : Array UInt8) : Reservoir :=
  let all := r.bytes ++ fresh
  ⟨all.extract (all.size - capacity) all.size⟩

/-- The main data of a frame, and the reservoir behind it. Its own bytes are kept also if earlier ones are missing. -/
def assemble (r : Reservoir) (back : Nat) (fresh : Array UInt8) : Option (Array UInt8) × Reservoir :=
  (r.data? back fresh, r.push fresh)

end Reservoir

end GameMedia.Audio
