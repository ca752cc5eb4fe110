/-!
# Transform tables

The windows and the cosines of the inverse transform, and the factors of alias reduction, all in single precision.
Sines and cosines are the nearest values for their rounded arguments but for a few entries one unit away, which are
given by their bits.
-/

namespace GameMedia.Audio.Transform

def halfTurn : Float32 := Float32.ofBits 0x40490fdb

def sine (x : Float32) : Float32 := x.toFloat.sin.toFloat32

def cosine (x : Float32) : Float32 := x.toFloat.cos.toFloat32

/-- A table with the entries at some places given by their bits. -/
def adjusted {n m : Nat} (entries : List (Nat × Nat × UInt32)) (value : Fin n → Fin m → Float32) :
    Vector (Vector Float32 m) n :=
  Vector.ofFn fun i => Vector.ofFn fun j =>
    match entries.find? fun (a, b, _) => a = i.val ∧ b = j.val with
    | some (_, _, bits) => Float32.ofBits bits
    | none => value i j

def cosines12 : Vector (Vector Float32 12) 6 :=
  adjusted [(2, 7, 0x3ec3eefc), (3, 4, 0x3ec3eefc), (3, 6, 0x3e05a870)] fun i j =>
    cosine (halfTurn / 24 * Float32.ofNat (2 * j.val + 7) * Float32.ofNat (2 * i.val + 1))

def cosines36 : Vector (Vector Float32 36) 18 :=
  adjusted
    [(2, 22, 0x3ec3eefc), (3, 13, 0x3ec3eefc), (4, 8, 0x3ec3eefc), (7, 1, 0x3ec3eefc), (8, 6, 0xbf098c5d),
      (12, 30, 0xbe5da134), (15, 6, 0xbeec6a0a), (17, 20, 0xbf098ce8)] fun i j =>
    cosine (halfTurn / 72 * Float32.ofNat (2 * j.val + 19) * Float32.ofNat (2 * i.val + 1))

def longSlope (i : Nat) : Float32 := sine (halfTurn / 36 * (Float32.ofNat i + 0.5))

def shortSlope (i : Nat) (start : Float32) : Float32 := sine (halfTurn / 12 * (Float32.ofNat i + 0.5 - start))

/-- The windows of long blocks, of those before short ones, of short ones, and of those behind them. -/
def windowAt (kind i : Nat) : Float32 :=
  match kind with
  | 0 => longSlope i
  | 1 => if i < 18 then longSlope i else if i < 24 then 1 else if i < 30 then shortSlope i 18 else 0
  | 2 => if i < 12 then shortSlope i 0 else 0
  | _ => if i < 6 then 0 else if i < 12 then shortSlope i 6 else if i < 18 then 1 else longSlope i

def windows : Vector (Vector Float32 36) 4 :=
  adjusted [(0, 12, 0x3f631324), (1, 12, 0x3f631324)] fun kind i => windowAt kind i

def aliasCoefficients : Array Float32 := #[-0.6, -0.535, -0.33, -0.185, -0.095, -0.041, -0.0142, -0.0037]

def aliasFactors : Array (Float32 × Float32) :=
  aliasCoefficients.map fun c =>
    let norm := (1 + c * c).sqrt
    (1 / norm, c / norm)

end GameMedia.Audio.Transform
