import GameMedia.Shader.Check.Complaint
import GameMedia.Shader.Check.Typing

/-!
# Values

What an expression stands for while it is checked. A constant has no type until its place gives it one. The same is
true of a constant that is shifted by a count known only when the shader runs. Operators fold constants exactly.
-/

namespace GameMedia.Shader.Check

open Surface (BinaryOp UnaryOp)
open Code (Hint)

inductive Value where
  /-- A constant without a type. -/
  | const (c : Constant)
  /-- A constant without a type, shifted by something that is not constant. -/
  | shift (op : Op) (n : Constant) (count : Code.Expr)
  | typed (e : Code.Expr) (ty : Ty)
  deriving Inhabited

def numberFor (c : Constant) (ty : Ty) : Code.Expr :=
  .number c <|
    match ty.tag with
    | .bool => .bool
    | .int => .int
    | .float => .float
    | _ => .none

namespace Value

/-- The type, `Ty.none` as long as there is none. -/
def ty : Value → Ty
  | const _ | shift _ _ _ => .none
  | typed _ ty => ty

def expr : Value → Code.Expr
  | const c => .untyped c
  | shift op n count => .binary op (.untyped n) count
  | typed e _ => e

def constant? : Value → Option Constant
  | const c => some c
  | shift _ _ _ => none
  | typed e _ => e.constant?

def ofConstant (c : Constant) (ty : Ty) : Value :=
  if ty.isNone then .const c else .typed (numberFor c ty) ty

def ofBool (b : Bool) : Value := .typed (.typed (.bool b)) .bool

end Value

/-! ## Conversions -/

def fitsInt (c : Constant) : Bool := c.integer?.any fun n => -0x80000000 ≤ n && n < 0x80000000

/-- A constant as one of a scalar type, if that loses nothing. -/
def convert? (c : Constant) (ty : Ty) : Option Constant :=
  match ty.tag with
  | .bool => if c.kind = .bool then some c else none
  | .int => if c.kind ≠ .bool ∧ fitsInt c then c.toInt? else none
  | .float => if c.kind ≠ .bool then c.toFloat? else none
  | _ => none

def mismatch (c : Constant) (target : Ty) (place : Place) : Complaint :=
  if target.tag = .int ∧ c.kind ≠ .bool ∧ c.isIntegral then .constOverflow c
  else if target.tag = .int ∧ c.kind = .float then .constTruncated c
  else .constMismatch c target place

/-- Gives a pending shift the type of its place, which has to be `int`. -/
def settleShift (v : Value) (target : Ty) : Except Complaint Value :=
  match v with
  | .shift op n count =>
    if target.tag = .int then .ok (.typed (.binary op (.number n .int) count) .int)
    else .error (.shiftedType (op = .shl))
  | v => .ok v

def settle (v : Value) (target : Ty) (place : Place) : Except Complaint Code.Expr := do
  match ← settleShift v target with
  | .const c =>
    match convert? c target with
    | some c => return numberFor c target
    | none => throw (mismatch c target place)
  | v => if v.ty = target then return v.expr else throw (.typeMismatch v.ty target place)

def settleDefault (v : Value) : Except Complaint Value := do
  match ← settleShift v .int with
  | .const c =>
    match convert? c (defaultType c) with
    | some c' => return .typed (numberFor c' (defaultType c)) (defaultType c)
    | none => throw (mismatch c (defaultType c) .assignment)
  | v => if v.ty.tag = .texture then throw (.unsupported .textureVariables) else return v

/-! ## Unary operators -/

def unaryOpFor : UnaryOp → Except Complaint Op
  | .plus => .ok .add
  | .neg => .ok .sub
  | .not => .ok .not
  | .bitNot => .error (.unsupported .bitNot)
  | .deref | .address => .error (.unsupported .pointers)
  | .receive => .error (.unsupported .channels)

def unary (op : UnaryOp) (code : Op) (v : Value) : Except Complaint Value := do
  let v ← settleShift v .int
  match v.constant? with
  | some c =>
    match c.unary? code with
    | some c => return .ofConstant c v.ty
    | none => throw (.unaryConst op c)
  | none =>
    if (if code = .not then v.ty = .bool else v.ty.isNumeric) then return .typed (.unary code v.expr) v.ty
    else throw (.unaryType op v.ty)

/-! ## Binary operators -/

/-- The type that a pending shift takes from the other operand. -/
def shiftTarget (other : Value) : Ty :=
  if other.ty.isNone then .int else (scalarOf? other.ty).getD other.ty

/-- An operand with the scalar type of the other, if it is a constant without one. -/
def adopt (v : Value) (other : Ty) : Except Complaint Value :=
  match v with
  | .const c =>
    match scalarOf? other with
    | none => .error (.constOperand c other)
    | some target =>
      match convert? c target with
      | some c => .ok (.typed (numberFor c target) target)
      | none => .error (mismatch c target .expression)
  | v => .ok v

def foldSame (op : BinaryOp) (code : Op) (a b : Constant) (ty : Ty) : Except Complaint Value :=
  match Constant.binary? code a b with
  | none => .error (.binaryConst op a)
  | some (.bool r) => .ok (.ofBool r)
  | some c => if ty.tag = .int ∧ !fitsInt c then .error (.constOverflow c) else .ok (.ofConstant c ty)

def foldConverted (op : BinaryOp) (code : Op) (a b : Constant) (ty : Ty) : Except Complaint Value :=
  if code.isComparison then
    match Constant.compare? code a b with
    | some r => .ok (.ofBool r)
    | none => .error (.binaryConst op a)
  else if (code = .div ∨ code = .mod) ∧ b.isZero then .error .divisionByZero
  else if code = .mod ∨ code = .and ∨ code = .or ∨ code = .xor then
    match a, b with
    | .int _, .int _ => foldSame op code a b ty
    | _, _ => .error (.binaryConst op a)
  else foldSame op code a b ty

def fold (op : BinaryOp) (code : Op) (a : Constant) (l : Ty) (b : Constant) (r : Ty) : Except Complaint Value :=
  if !l.isNone ∧ !r.isNone ∧ l ≠ r then .error (.typesMismatch l op r)
  else
    let ty := if l.isNone then r else l
    if ty.isNone then foldConverted op code a b ty
    else
      match convert? a ty, convert? b ty with
      | some a, some b => foldConverted op code a b ty
      | none, _ => .error (mismatch a ty .expression)
      | _, none => .error (mismatch b ty .expression)

def shiftCount (v : Value) : Except Complaint Value := do
  let v ← settleShift v .int
  let v ← (
    match v with
    | .const c =>
      match c.toInt? with
      | some n => .ok (.typed (numberFor n .int) .int)
      | none => .error (.shiftCount c)
    | v => .ok v : Except Complaint Value)
  match v.constant? with
  | some c => if c.sign < 0 then throw (.negativeShift c)
  | none => pure ()
  if v.ty.isIntegral then return v else throw (.shiftCountType v.ty)

def foldShift (code : Op) (a : Constant) (ty : Ty) (b : Constant) : Except Complaint Value :=
  if ty.tag = .float ∨ a.kind = .bool ∨ !a.isIntegral then .error (.shiftedConst a)
  else
    match Constant.shift? code a b with
    | none => .error (.shiftCount b)
    | some c => if ty.tag = .int ∧ !fitsInt c then .error (.constOverflow c) else .ok (.ofConstant c ty)

def shift (op : BinaryOp) (l r : Value) : Except Complaint Value := do
  let code := opFor op l.ty r.ty
  let r ← shiftCount r
  match l.constant?, r.constant? with
  | some a, some b => foldShift code a l.ty b
  | _, _ =>
    match l with
    | .const c =>
      match c.toInt? with
      | some n => return .shift code n r.expr
      | none => throw (.shiftedConst c)
    | l =>
      let l ← settleShift l .int
      match binaryType? code l.ty r.ty with
      | some ty => return .typed (.binary code l.expr r.expr) ty
      | none => throw (.typesMismatch l.ty op r.ty)

/-- Every operator but the shifts. -/
def combine (op : BinaryOp) (l r : Value) : Except Complaint Value := do
  let l ← settleShift l (shiftTarget r)
  let r ← settleShift r (shiftTarget l)
  let code := opFor op l.ty r.ty
  match l.constant?, r.constant? with
  | some a, some b => fold op code a l.ty b r.ty
  | _, _ =>
    let l ← adopt l r.ty
    let r ← adopt r l.ty
    match binaryType? code l.ty r.ty with
    | some ty => return .typed (.binary code l.expr r.expr) ty
    | none => throw (.typesMismatch l.ty op r.ty)

def binary (op : BinaryOp) (l r : Value) : Except Complaint Value :=
  match op with
  | .andNot => .error (.unsupported .andNot)
  | .shl | .shr => shift op l r
  | op => combine op l r

/-! ## Parts of values -/

/-- A swizzle of a value. One that is written to names no component twice. -/
def swizzle (base : Value) (letters : String) (written : Bool) : Except Complaint Value :=
  match swizzleType? base.ty letters with
  | none => .error (.badSwizzle letters)
  | some ty =>
    if written && repeatsComponent letters then .error (.repeatedSwizzle letters)
    else .ok (.typed (.field base.expr (.swizzle letters)) ty)

/-- A position among so many elements. A constant one is in range. -/
def position (v : Value) (length : Nat) : Except Complaint Code.Expr := do
  let i ← settle v .int .index
  match i.constant? with
  | none => return i
  | some c =>
    match c.integer? with
    | some n => if 0 ≤ n ∧ n < length then return i else throw (.indexRange c)
    | none => throw (.indexRange c)

end GameMedia.Shader.Check
