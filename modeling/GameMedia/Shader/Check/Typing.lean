import GameMedia.Shader.Code
import GameMedia.Shader.Surface

/-!
# Operator typing

The types that operators take and give, apart from any source text.
-/

namespace GameMedia.Shader.Check

open Surface (BinaryOp)

/-- The types that every file knows by name. -/
def predeclared? : String → Option Ty
  | "bool" => some .bool
  | "int" => some .int
  | "float" => some .float
  | "vec2" => some (.basic .vec2)
  | "vec3" => some (.basic .vec3)
  | "vec4" => some .vec4
  | "ivec2" => some (.basic .ivec2)
  | "ivec3" => some (.basic .ivec3)
  | "ivec4" => some (.basic .ivec4)
  | "mat2" => some (.basic .mat2)
  | "mat3" => some (.basic .mat3)
  | "mat4" => some (.basic .mat4)
  | _ => none

def defaultType (c : Constant) : Ty :=
  match c.kind with
  | .bool => .bool
  | .int => .int
  | .float => .float

/-- The scalar type that an untyped constant takes beside an operand of this type. -/
def scalarOf? (t : Ty) : Option Ty :=
  if t.isFloatBased then some .float
  else if t.isIntegral then some .int
  else if t.tag = .bool then some .bool
  else none

/-- The types over which a float scalar spreads. -/
def isFloatAggregate (t : Ty) : Bool := t.isFloatVector || t.isMatrix

/-- The operator for two operands of these types. Products with a matrix and comparisons of vectors have operators of
their own. -/
def opFor (op : BinaryOp) (l r : Ty) : Op :=
  match op with
  | .add => .add
  | .sub => .sub
  | .mul => if l.isMatrix || r.isMatrix then .matrixMul else .componentMul
  | .quo => .div
  | .rem => .mod
  | .and | .andNot => .and
  | .or => .or
  | .xor => .xor
  | .shl => .shl
  | .shr => .shr
  | .logicalAnd => .andAnd
  | .logicalOr => .orOr
  | .eq => if l.isVector || r.isVector then .vectorEq else .eq
  | .ne => if l.isVector || r.isVector then .vectorNe else .ne
  | .lt => .lt
  | .le => .le
  | .gt => .gt
  | .ge => .ge

def shiftType? (l r : Ty) : Option Ty :=
  if l.tag = .int ∧ r.tag = .int then some .int
  else if l.isIntVector ∧ (r.tag = .int ∨ l = r) then some l
  else none

def integralType? (l r : Ty) : Option Ty :=
  if l = r ∧ l.isIntegral then some l
  else if l.isIntVector ∧ r.tag = .int then some l
  else if l.tag = .int ∧ r.isIntVector then some r
  else none

/-- Equal numeric types, or a scalar that spreads over the other side. -/
def arithmeticType? (op : Op) (l r : Ty) : Option Ty :=
  if l = r ∧ l.isNumeric then if op = .div ∧ l.isMatrix then none else some l
  else if l.tag = .float ∧ isFloatAggregate r then some r
  else if isFloatAggregate l ∧ r.tag = .float then some l
  else if l.tag = .int ∧ r.isIntVector then some r
  else if l.isIntVector ∧ r.tag = .int then some l
  else none

def matrixMulType? (l r : Ty) : Option Ty :=
  if l.isMatrix ∧ l = r then some l
  else if l.isFloatVector ∧ r.isMatrix ∧ r.dimension = l.dimension then some l
  else if l.isMatrix ∧ r.isFloatVector ∧ r.dimension = l.dimension then some r
  else if l.tag = .float ∧ r.isMatrix then some r
  else if l.isMatrix ∧ r.tag = .float then some l
  else none

def binaryType? (op : Op) (l r : Ty) : Option Ty :=
  match op with
  | .andAnd | .orOr => if l.tag = .bool ∧ r.tag = .bool then some .bool else none
  | .lt | .le | .gt | .ge => if l = r ∧ (l.tag = .int ∨ l.tag = .float) then some .bool else none
  | .eq | .ne => if l = r ∧ (l.tag = .int ∨ l.tag = .float ∨ l.tag = .bool) then some .bool else none
  | .vectorEq | .vectorNe => if l = r ∧ l.isVector then some .bool else none
  | .shl | .shr => shiftType? l r
  | .and | .or | .xor | .mod => integralType? l r
  | .add | .sub | .componentMul | .div => arithmeticType? op l r
  | .matrixMul => matrixMulType? l r
  | .not => none

def canDeclare (target found : Ty) (c : Constant) : Bool :=
  if found.isNone then
    match target.tag with
    | .bool => c.kind = .bool
    | .int => c.kind ≠ .bool && c.isIntegral
    | .float => c.kind ≠ .bool
    | _ => false
  else target = found

def componentIndex (c : Char) : Nat :=
  if c = 'x' ∨ c = 'r' ∨ c = 's' then 0
  else if c = 'y' ∨ c = 'g' ∨ c = 't' then 1
  else if c = 'z' ∨ c = 'b' ∨ c = 'p' then 2
  else 3

def swizzleType? (base : Ty) (letters : String) : Option Ty :=
  if !isSwizzle letters || !base.isVector then none
  else if letters.toList.any fun c => base.dimension ≤ componentIndex c then none
  else
    match letters.length, base.isFloatVector with
    | 1, true => some .float
    | 1, false => some .int
    | n, true => Ty.floatVector? n
    | n, false => Ty.intVector? n

def repeatsComponent (letters : String) : Bool :=
  !decide (letters.toList.map componentIndex).Nodup

/-- The type of the elements that an index reaches, and their number. -/
def elements? (t : Ty) : Option (Ty × Nat) :=
  if t.tag = .array then some (t.elem?.getD .none, t.length)
  else if t.isFloatVector then some (.float, t.dimension)
  else if t.isIntVector then some (.int, t.dimension)
  else if t.isMatrix then some ((Ty.floatVector? t.dimension).getD .none, t.dimension)
  else none

end GameMedia.Shader.Check
