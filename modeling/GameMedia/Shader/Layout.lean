import GameMedia.Shader.Ty

/-!
# Uniform layout

Where each uniform starts in a constant buffer made of registers of four words. A scalar goes to the next free
word, a two-component vector also unless it would straddle two registers, and everything else starts a
register. The elements of an array are a whole number of registers apart.
-/

namespace GameMedia.Shader

namespace Layout

def registerDwords : Nat := 4

def alignToRegister (head : Nat) : Nat :=
  (head + (registerDwords - 1)) / registerDwords * registerDwords

mutual

/-- The words a value takes in the buffer, padding between its parts included and behind its last part not. -/
def packedSize : Ty → Nat
  | .mk tag parts length =>
    match tag with
    | .none | .texture => 0
    | .bool | .int | .float => 1
    | .vec2 | .ivec2 => 2
    | .vec3 | .ivec3 => 3
    | .vec4 | .ivec4 => 4
    | .mat2 => 6
    | .mat3 => 11
    | .mat4 => 16
    | .array =>
      match parts, length with
      | [], _ => 0
      | _ :: _, 0 => 0
      | t :: _, n + 1 => alignToRegister (packedSize t) * n + packedSize t
    | .struct => packedMembers parts

/-- The words of struct members, each padded to whole registers. -/
def packedMembers : List Ty → Nat
  | [] => 0
  | t :: ts => alignToRegister (packedSize t) + packedMembers ts

end

/-- Where a value of type `t` starts when the words before `head` are taken. -/
def place (t : Ty) (head : Nat) : Nat :=
  match t.tag with
  | .bool | .int | .float => head
  | .vec2 | .ivec2 => if registerDwords - head % registerDwords < 2 then alignToRegister head else head
  | _ => alignToRegister head

def offsetsFrom (head : Nat) : List Ty → List Nat
  | [] => []
  | t :: ts => place t head :: offsetsFrom (place t head + packedSize t) ts

def offsets (uniforms : List Ty) : List Nat := offsetsFrom 0 uniforms

end Layout

end GameMedia.Shader
