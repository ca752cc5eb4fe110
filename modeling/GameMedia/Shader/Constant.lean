import GameMedia.Number.Binary64
import GameMedia.Shader.Op

/-!
# Exact constants

Constants are folded without rounding: integers are unbounded and floats are rational numbers. Nothing is lost
before a value is written into target text.
-/

namespace GameMedia.Shader

/-- The bitwise operation `f` on integers in two's complement of unbounded width. -/
def bitwise (f : Bool → Bool → Bool) (a b : Int) : Int :=
  let split : Int → Bool × Nat
    | .ofNat n => (false, n)
    | .negSucc n => (true, n)
  let (s, m) := split a
  let (t, n) := split b
  if f s t then .negSucc (Nat.bitwise (fun x y => !f (x ^^ s) (y ^^ t)) m n)
  else .ofNat (Nat.bitwise (fun x y => f (x ^^ s) (y ^^ t)) m n)

inductive Constant where
  | bool (value : Bool)
  | int (value : Int)
  | float (value : Rat)
  deriving DecidableEq, Repr, Inhabited

namespace Constant

inductive Kind where
  | bool
  | int
  | float
  deriving DecidableEq, Repr

def Kind.text : Kind → String
  | .bool => "bool"
  | .int => "int"
  | .float => "float"

instance : ToString Kind := ⟨Kind.text⟩

def kind : Constant → Kind
  | bool _ => .bool
  | int _ => .int
  | float _ => .float

def number? : Constant → Option Rat
  | bool _ => none
  | int n => some n
  | float r => some r

def bool? : Constant → Option Bool
  | bool b => some b
  | _ => none

def integer? : Constant → Option Int
  | bool _ => none
  | int n => some n
  | float r => if r.den = 1 then some r.num else none

def isIntegral (c : Constant) : Bool := c.integer?.isSome

def toFloat? (c : Constant) : Option Constant := c.number?.map float

def toInt? (c : Constant) : Option Constant := c.integer?.map int

def truncate? : Constant → Option Constant
  | bool _ => none
  | int n => some (int n)
  | float r => some (int (r.num.tdiv r.den))

/-- The value as a signed integer of 64 bits. -/
def int64? (c : Constant) : Option Int :=
  c.integer?.filter fun n => decide (-0x8000000000000000 ≤ n ∧ n < 0x8000000000000000)

def double? (c : Constant) : Option Number.Binary64 := c.number?.map Number.Binary64.nearest

def isZero (c : Constant) : Bool := c.number? = some 0

/-- The sign of a number; a truth value counts as zero. -/
def sign : Constant → Int
  | bool _ => 0
  | int n => n.sign
  | float r => r.num.sign

def maxShift : Int := 1024

def shift? (op : Op) (value count : Constant) : Option Constant :=
  match value.integer?, count.integer? with
  | some n, some c =>
    if 0 ≤ c ∧ c ≤ maxShift then
      match op with
      | .shl => some (int (n * Nat.pow 2 c.toNat))
      | .shr => some (int (n.fdiv (Nat.pow 2 c.toNat)))
      | _ => none
    else none
  | _, _ => none

/-- Integer operators; division truncates and its remainder has the sign of the dividend. -/
def intBinary? (op : Op) (a b : Int) : Option Constant :=
  match op with
  | .add => some (int (a + b))
  | .sub => some (int (a - b))
  | .componentMul | .matrixMul => some (int (a * b))
  | .div => if b = 0 then none else some (int (a.tdiv b))
  | .mod => if b = 0 then none else some (int (a.tmod b))
  | .and => some (int (bitwise (· && ·) a b))
  | .or => some (int (bitwise (· || ·) a b))
  | .xor => some (int (bitwise (· ^^ ·) a b))
  | .shl | .shr => shift? op (int a) (int b)
  | _ => none

def boolBinary? (op : Op) (a b : Bool) : Option Constant :=
  match op with
  | .andAnd => some (bool (a && b))
  | .orOr => some (bool (a || b))
  | _ => none

def floatBinary? (op : Op) (a b : Rat) : Option Constant :=
  match op with
  | .add => some (float (a + b))
  | .sub => some (float (a - b))
  | .componentMul | .matrixMul => some (float (a * b))
  | .div => if b = 0 then none else some (float (a / b))
  | _ => none

/-- Folds an operator. An integer next to a float counts as a float. -/
def binary? (op : Op) : Constant → Constant → Option Constant
  | int a, int b => intBinary? op a b
  | bool a, bool b => boolBinary? op a b
  | a, b => do floatBinary? op (← a.number?) (← b.number?)

def boolCompare? (op : Op) (a b : Bool) : Option Bool :=
  match op with
  | .eq => some (a == b)
  | .ne => some (a != b)
  | _ => none

def floatCompare? (op : Op) (a b : Rat) : Option Bool :=
  match op with
  | .eq => some (a = b)
  | .ne => some (a ≠ b)
  | .lt => some (a < b)
  | .le => some (a ≤ b)
  | .gt => some (b < a)
  | .ge => some (b ≤ a)
  | _ => none

/-- Folds a comparison. Numbers are compared by value whatever their kinds. -/
def compare? (op : Op) : Constant → Constant → Option Bool
  | bool a, bool b => boolCompare? op a b
  | a, b => do floatCompare? op (← a.number?) (← b.number?)

def unary? (op : Op) : Constant → Option Constant
  | bool b => if op = .not then some (bool !b) else none
  | int n =>
    match op with
    | .add => some (int n)
    | .sub => some (int (-n))
    | _ => none
  | float r =>
    match op with
    | .add => some (float r)
    | .sub => some (float (-r))
    | _ => none

end Constant

end GameMedia.Shader
