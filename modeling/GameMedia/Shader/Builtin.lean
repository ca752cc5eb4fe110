/-!
# Built-in functions

The functions every shader can call, with their source names. `radians` and `degrees` have a meaning in checked
code but no source name resolves to them.
-/

namespace GameMedia.Shader

inductive Builtin where
  | len
  | cap
  | bool
  | int
  | float
  | vec2
  | vec3
  | vec4
  | ivec2
  | ivec3
  | ivec4
  | mat2
  | mat3
  | mat4
  | radians
  | degrees
  | sin
  | cos
  | tan
  | asin
  | acos
  | atan
  | atan2
  | pow
  | exp
  | log
  | exp2
  | log2
  | sqrt
  | inversesqrt
  | abs
  | sign
  | floor
  | ceil
  | fract
  | mod
  | min
  | max
  | clamp
  | mix
  | step
  | smoothstep
  | length
  | distance
  | dot
  | cross
  | normalize
  | faceforward
  | reflect
  | refract
  | transpose
  | dfdx
  | dfdy
  | fwidth
  | discard
  | texelAt
  | frontFacing
  deriving DecidableEq, Repr, Inhabited

namespace Builtin

def name : Builtin → String
  | len => "len"
  | cap => "cap"
  | bool => "bool"
  | int => "int"
  | float => "float"
  | vec2 => "vec2"
  | vec3 => "vec3"
  | vec4 => "vec4"
  | ivec2 => "ivec2"
  | ivec3 => "ivec3"
  | ivec4 => "ivec4"
  | mat2 => "mat2"
  | mat3 => "mat3"
  | mat4 => "mat4"
  | radians => "radians"
  | degrees => "degrees"
  | sin => "sin"
  | cos => "cos"
  | tan => "tan"
  | asin => "asin"
  | acos => "acos"
  | atan => "atan"
  | atan2 => "atan2"
  | pow => "pow"
  | exp => "exp"
  | log => "log"
  | exp2 => "exp2"
  | log2 => "log2"
  | sqrt => "sqrt"
  | inversesqrt => "inversesqrt"
  | abs => "abs"
  | sign => "sign"
  | floor => "floor"
  | ceil => "ceil"
  | fract => "fract"
  | mod => "mod"
  | min => "min"
  | max => "max"
  | clamp => "clamp"
  | mix => "mix"
  | step => "step"
  | smoothstep => "smoothstep"
  | length => "length"
  | distance => "distance"
  | dot => "dot"
  | cross => "cross"
  | normalize => "normalize"
  | faceforward => "faceforward"
  | reflect => "reflect"
  | refract => "refract"
  | transpose => "transpose"
  | dfdx => "dfdx"
  | dfdy => "dfdy"
  | fwidth => "fwidth"
  | discard => "discard"
  | texelAt => "__texelAt"
  | frontFacing => "frontfacing"

instance : ToString Builtin := ⟨name⟩

def all : List Builtin :=
  [len, cap, bool, int, float, vec2, vec3, vec4, ivec2, ivec3, ivec4, mat2, mat3, mat4, radians, degrees, sin,
    cos, tan, asin, acos, atan, atan2, pow, exp, log, exp2, log2, sqrt, inversesqrt, abs, sign, floor, ceil,
    fract, mod, min, max, clamp, mix, step, smoothstep, length, distance, dot, cross, normalize, faceforward,
    reflect, refract, transpose, dfdx, dfdy, fwidth, discard, texelAt, frontFacing]

/-- The function of that name, hidden ones included. -/
def named? (s : String) : Option Builtin := all.find? fun f => f.name == s

/-- Whether source text can name the function. -/
def isVisible : Builtin → Bool
  | radians | degrees => false
  | _ => true

def ofSource? (s : String) : Option Builtin := all.find? fun f => f.name == s && f.isVisible

/-- Type constructors, the scalar conversions included. -/
def isConstructor : Builtin → Bool
  | bool | int | float | vec2 | vec3 | vec4 | ivec2 | ivec3 | ivec4 | mat2 | mat3 | mat4 => true
  | _ => false

end Builtin

/-- A swizzle selects one to four components, all named from one of the three alphabets. -/
def isSwizzle (s : String) : Bool :=
  let cs := s.toList
  !cs.isEmpty && s.utf8ByteSize ≤ 4 &&
    ["xyzw", "rgba", "stpq"].any fun alphabet => cs.all fun c => alphabet.toList.contains c

end GameMedia.Shader
