/-!
# Reading bits

A cursor over bytes that reads their bits from the highest down. Behind the last byte there are zeros without end, so
a length that is wrong gives silence.
-/

namespace GameMedia.Audio

/-- Bytes and a position in bits. -/
structure BitReader where
  data : Array UInt8
  pos : Nat := 0
  deriving Inhabited

namespace BitReader

def bitAt (data : Array UInt8) (pos : Nat) : Bool := (data.getD (pos / 8) 0).toNat.testBit (7 - pos % 8)

/-- The number that the `n` bits from a position on are, the first of them the highest. -/
def bitsAt (data : Array UInt8) (pos : Nat) : Nat → Nat
  | 0 => 0
  | n + 1 => 2 * bitsAt data pos n + (bitAt data (pos + n)).toNat

end BitReader

abbrev BitRead : Type → Type := StateM BitReader

namespace BitRead

def bit : BitRead Bool := fun r => (BitReader.bitAt r.data r.pos, { r with pos := r.pos + 1 })

def bits (n : Nat) : BitRead Nat := fun r => (BitReader.bitsAt r.data r.pos n, { r with pos := r.pos + n })

def position : BitRead Nat := fun r => (r.pos, r)

def moveTo (pos : Nat) : BitRead Unit := fun r => ((), { r with pos })

def times {α : Type} (item : BitRead α) : Nat → BitRead (List α)
  | 0 => pure []
  | n + 1 => do
    let a ← item
    return a :: (← times item n)

end BitRead

end GameMedia.Audio
