import GameMedia.Number.Decimal
import GameMedia.Shader.Constant

/-!
# Literals

Reading number literals from source text and writing constants, once for messages (`Constant.text`) and once as
literals that every target accepts (`Constant.literal`).
-/

namespace GameMedia.Shader

namespace Literal

def digitValue (c : Char) : Option Nat :=
  if '0' ≤ c ∧ c ≤ '9' then some (c.toNat - '0'.toNat)
  else if 'a' ≤ c ∧ c ≤ 'z' then some (c.toNat - 'a'.toNat + 10)
  else none

def digitsFrom (base acc : Nat) : List Char → Option Nat
  | [] => some acc
  | c :: cs =>
    match digitValue c with
    | some d => if d < base then digitsFrom base (acc * base + d) cs else none
    | none => none

def natural (base : Nat) (cs : List Char) : Option Nat :=
  if cs.isEmpty then none else digitsFrom base 0 cs

def signed (base : Nat) : List Char → Option Int
  | '-' :: cs => (natural base cs).map fun n => -(n : Int)
  | '+' :: cs => (natural base cs).map Int.ofNat
  | cs => (natural base cs).map Int.ofNat

/-- Underscores separate digits and capitals are as good as small letters. -/
def normalize (s : String) : List Char := (s.toList.filter (· ≠ '_')).map Char.toLower

def splitAtFirst (sep : Char) (cs : List Char) : List Char × Option (List Char) :=
  (cs.takeWhile (· ≠ sep),
    match cs.dropWhile (· ≠ sep) with
    | [] => none
    | _ :: rest => some rest)

/-- The largest power of ten that a literal may ask for. -/
def maxScale : Nat := 0xffffffff

end Literal

namespace Constant

open Literal

/-- An integer literal: decimal, `0x`, `0o`, `0b`, or octal after a plain leading zero. -/
def ofIntLiteral? (s : String) : Option Constant :=
  Option.map int <|
    match normalize s with
    | '0' :: 'x' :: cs => signed 16 cs
    | '0' :: 'o' :: cs => signed 8 cs
    | '0' :: 'b' :: cs => signed 2 cs
    | '0' :: c :: cs => signed 8 (c :: cs)
    | cs => signed 10 cs

/-- The exponent of a float literal: zero when there is none, refused unless it fits 64 bits. -/
def exponent? : Option (List Char) → Option Int
  | none => some 0
  | some cs => (signed 10 cs).filter fun e => decide (-0x8000000000000000 ≤ e ∧ e < 0x8000000000000000)

def ofFloatLiteral? (s : String) : Option Constant := do
  let (mantissa, expPart) := splitAtFirst 'e' (normalize s)
  let e ← exponent? expPart
  let (whole, fraction) := splitAtFirst '.' mantissa
  let fraction := fraction.getD []
  let n ← signed 10 (whole ++ fraction)
  let scale := e - (String.ofList fraction).utf8ByteSize
  if maxScale < scale.natAbs then none
  else some (float ((n : Rat) * (10 : Rat) ^ scale))

/-- The value as a literal of the targets. An integral float keeps its point, another is rounded to eleven digits. -/
def literal : Constant → String
  | bool b => if b then "true" else "false"
  | int n => toString n
  | float r => if r.den = 1 then toString r.num ++ ".0" else (Number.Binary64.nearest r).scientific 10

/-- The value as messages write it: the double nearest to it in its shortest form. -/
def text : Constant → String
  | bool b => if b then "true" else "false"
  | int n => toString n
  | float r => if r.den = 1 then toString r.num else (Number.Binary64.nearest r).shortest

instance : ToString Constant := ⟨text⟩

end Constant

end GameMedia.Shader
