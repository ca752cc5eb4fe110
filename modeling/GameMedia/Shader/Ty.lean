import GameMedia.Shader.Fault

/-!
# Shader types

A type is a tag with the types of its parts and a length. Programs that come from outside may combine these
freely, so every combination is a value here; `Ty.validate` singles out the ones that make sense.
-/

namespace GameMedia.Shader

inductive Tag where
  /-- No type: a function without a result, an untyped constant, or the slot of a loop counter. -/
  | none
  | bool
  | int
  | float
  | vec2
  | vec3
  | vec4
  | ivec2
  | ivec3
  | ivec4
  | mat2
  | mat3
  | mat4
  | texture
  | array
  | struct
  deriving DecidableEq, Repr, Inhabited

/-- `parts` holds the element type of an array or the member types of a struct, `length` the array's length. -/
inductive Ty where
  | mk (tag : Tag) (parts : List Ty) (length : Nat)
  deriving Repr, Inhabited

namespace Ty

def tag : Ty → Tag
  | mk t _ _ => t

def parts : Ty → List Ty
  | mk _ ps _ => ps

def length : Ty → Nat
  | mk _ _ n => n

mutual

def decEq : (a b : Ty) → Decidable (a = b)
  | mk t ps n, mk t' ps' n' =>
    match (inferInstance : Decidable (t = t')), decEqList ps ps', (inferInstance : Decidable (n = n')) with
    | isTrue h, isTrue h', isTrue h'' => isTrue (by rw [h, h', h''])
    | isFalse h, _, _ => isFalse fun e => h (by injection e)
    | _, isFalse h, _ => isFalse fun e => h (by injection e)
    | _, _, isFalse h => isFalse fun e => h (by injection e)

def decEqList : (as bs : List Ty) → Decidable (as = bs)
  | [], [] => isTrue rfl
  | [], _ :: _ => isFalse nofun
  | _ :: _, [] => isFalse nofun
  | a :: as, b :: bs =>
    match decEq a b, decEqList as bs with
    | isTrue h, isTrue h' => isTrue (by rw [h, h'])
    | isFalse h, _ => isFalse fun e => h (by injection e)
    | _, isFalse h => isFalse fun e => h (by injection e)

end

instance : DecidableEq Ty := decEq

/-! ## Building types -/

def basic (t : Tag) : Ty := mk t [] 0

def none : Ty := basic .none
def bool : Ty := basic .bool
def int : Ty := basic .int
def float : Ty := basic .float
def vec4 : Ty := basic .vec4
def texture : Ty := basic .texture

def array (elem : Ty) (length : Nat) : Ty := mk .array [elem] length

def floatVector? : Nat → Option Ty
  | 2 => some (basic .vec2)
  | 3 => some (basic .vec3)
  | 4 => some (basic .vec4)
  | _ => Option.none

/-- The integer vector with `n` components. -/
def intVector? : Nat → Option Ty
  | 2 => some (basic .ivec2)
  | 3 => some (basic .ivec3)
  | 4 => some (basic .ivec4)
  | _ => Option.none

/-! ## Classes of types -/

def isNone (t : Ty) : Bool := t.tag = .none

def isFloatVector (t : Ty) : Bool :=
  match t.tag with
  | .vec2 | .vec3 | .vec4 => true
  | _ => false

def isIntVector (t : Ty) : Bool :=
  match t.tag with
  | .ivec2 | .ivec3 | .ivec4 => true
  | _ => false

def isVector (t : Ty) : Bool := t.isFloatVector || t.isIntVector

def isMatrix (t : Ty) : Bool :=
  match t.tag with
  | .mat2 | .mat3 | .mat4 => true
  | _ => false

def isIntegral (t : Ty) : Bool := t.tag = .int || t.isIntVector

def isFloatBased (t : Ty) : Bool := t.tag = .float || t.isFloatVector || t.isMatrix

def isFloatLike (t : Ty) : Bool := t.tag = .float || t.isFloatVector

def isNumeric (t : Ty) : Bool := t.isFloatBased || t.isIntegral

def dimension (t : Ty) : Nat :=
  match t.tag with
  | .vec2 | .ivec2 | .mat2 => 2
  | .vec3 | .ivec3 | .mat3 => 3
  | .vec4 | .ivec4 | .mat4 => 4
  | _ => 0

def elem? (t : Ty) : Option Ty :=
  if t.tag = .array then t.parts.head? else Option.none

mutual

/-- Arrays have one element type, structs any number of members, and no other type has parts. -/
def validate : Ty → Except Fault Unit
  | mk tag parts _ =>
    match tag with
    | .array => if parts.length = 1 then validateAll parts else .error (.arrayElements parts.length)
    | .struct => validateAll parts
    | _ => if parts.isEmpty then .ok () else .error (.arrayElements parts.length)

def validateAll : List Ty → Except Fault Unit
  | [] => .ok ()
  | t :: ts =>
    match validate t with
    | .ok () => validateAll ts
    | .error fault => .error fault

end

mutual

/-- The unpacked size, in words of four bytes. -/
def dwordCount : Ty → Nat
  | mk tag parts length =>
    match tag with
    | .none | .texture => 0
    | .bool | .int | .float => 1
    | .vec2 | .ivec2 => 2
    | .vec3 | .ivec3 => 3
    | .vec4 | .ivec4 | .mat2 => 4
    | .mat3 => 9
    | .mat4 => 16
    | .array =>
      match parts with
      | [] => 0
      | t :: _ => dwordCount t * length
    | .struct => dwordSum parts

/-- The unpacked size of values one after another. -/
def dwordSum : List Ty → Nat
  | [] => 0
  | t :: ts => dwordCount t + dwordSum ts

end

mutual

/-- The type as messages and dumps write it. -/
def text : Ty → String
  | mk tag parts length =>
    match tag with
    | .none => "none"
    | .bool => "bool"
    | .int => "int"
    | .float => "float"
    | .vec2 => "vec2"
    | .vec3 => "vec3"
    | .vec4 => "vec4"
    | .ivec2 => "ivec2"
    | .ivec3 => "ivec3"
    | .ivec4 => "ivec4"
    | .mat2 => "mat2"
    | .mat3 => "mat3"
    | .mat4 => "mat4"
    | .texture => "texture2d"
    | .array =>
      match parts with
      | [] => s!"[{length}]?"
      | t :: _ => s!"[{length}]" ++ text t
    | .struct => "struct\x7b" ++ "; ".intercalate (memberTexts 0 parts) ++ "\x7d"

def memberTexts (i : Nat) : List Ty → List String
  | [] => []
  | t :: ts => (s!"M{i} " ++ text t) :: memberTexts (i + 1) ts

end

instance : ToString Ty := ⟨text⟩

end Ty

end GameMedia.Shader
