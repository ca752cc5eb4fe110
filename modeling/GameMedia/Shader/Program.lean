import GameMedia.Shader.Code
import GameMedia.Shader.Layout

/-!
# Programs

A checked shader: its uniforms and textures, what flows between the stages, the helper functions and the two
entry points.
-/

namespace GameMedia.Shader

open Code

/-- How texture coordinates are counted. -/
inductive CoordUnit where
  | texels
  | pixels
  deriving DecidableEq, Repr, Inhabited

def CoordUnit.text : CoordUnit → String
  | .texels => "texels"
  | .pixels => "pixels"

instance : ToString CoordUnit := ⟨CoordUnit.text⟩

/-- A helper function. Its parameters are the first locals of its body, inputs before outputs. -/
structure Func where
  index : Nat
  ins : List Ty
  outs : List Ty
  /-- `Ty.none` when the function returns nothing. -/
  result : Ty
  body : Block
  deriving Inhabited

/-- The locals of the vertex entry begin with the attributes, the position and the varyings, those of the fragment
entry with the position and the varyings. -/
structure Program where
  unit : CoordUnit := .texels
  uniformNames : List String := []
  uniforms : List Ty := []
  textureCount : Nat := 0
  attributes : List Ty := []
  varyings : List Ty := []
  funcs : List Func := []
  vertex : Option Block := none
  fragment : Option Block := none
  deriving Inhabited

namespace Program

def uniformOffsets (p : Program) : List Nat := Layout.offsets p.uniforms

def func? (p : Program) (i : Nat) : Option Func := p.funcs.find? fun f => f.index = i

def vertexParams (p : Program) : List Ty := p.attributes ++ Ty.vec4 :: p.varyings

def fragmentParams (p : Program) : List Ty := Ty.vec4 :: p.varyings

end Program

end GameMedia.Shader
