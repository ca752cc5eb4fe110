import GameMedia.Shader.Program.Reach
import GameMedia.Shader.Target.Writer

/-!
# GLSL

A vertex shader and a fragment shader. Each holds only the helpers that its entry point can call. The fragment
body becomes a function that returns the colour and is called once, so that it may return anywhere.
-/

namespace GameMedia.Shader.Target.Glsl

open Code

/-- Integer remainder, which the desktop language has no operator for. -/
def modIntFunctions : String :=
  let one (x y : String) := x ++ " modInt(" ++ x ++ " x, " ++ y ++ " y) \x7b\n\treturn x - y*(x/y);\n\x7d"
  "\n\n".intercalate
    [one "int" "int", one "ivec2" "int", one "ivec3" "int", one "ivec4" "int", one "ivec2" "ivec2",
      one "ivec3" "ivec3", one "ivec4" "ivec4"]

def precisionLines : String :=
  "\n".intercalate
    ["#if defined(GL_ES)", "precision highp float;", "precision highp int;", "#else", "#define lowp",
      "#define mediump", "#define highp", "#endif"]

def vertexPrelude : GlslVersion → String
  | .desktop => "#version 150\n\n" ++ modIntFunctions
  | .es300 => "#version 300 es"

def fragmentPrelude : GlslVersion → String
  | .desktop => "#version 150\n\n" ++ precisionLines ++ "\n\n" ++ modIntFunctions
  | .es300 => "#version 300 es\n\n" ++ precisionLines ++ "\n\nout vec4 fragColor;"

def typeName : Tag → String
  | .none => "void"
  | .bool => "bool"
  | .int => "int"
  | .float => "float"
  | .vec2 => "vec2"
  | .vec3 => "vec3"
  | .vec4 => "vec4"
  | .ivec2 => "ivec2"
  | .ivec3 => "ivec3"
  | .ivec4 => "ivec4"
  | .mat2 => "mat2"
  | .mat3 => "mat3"
  | .mat4 => "mat4"
  | .texture | .array | .struct => ""

def zeroValue : Ty → Emit String
  | .mk .bool _ _ => .ok "false"
  | .mk .int _ _ => .ok "0"
  | .mk .array [] n => .error (.arrayElement (.mk .array [] n))
  | .mk .array (t :: ts) n => do
    let zero ← zeroValue t
    let (before, behind) ← suffixParts typeName (.mk .array (t :: ts) n)
    return plainCall (before ++ behind) (List.replicate n zero)
  | t => do return (← plainName typeName t) ++ "(0)"

def slotName : Slot → String
  | .attribute i => s!"A{i}"
  | .position => "gl_Position"
  | .varying i => s!"V{i}"
  | .plain i => s!"l{i}"

def builtinName (unit : CoordUnit) : Builtin → String
  | .atan2 => "atan"
  | .dfdx => "dFdx"
  | .dfdy => "dFdy"
  | .texelAt =>
    match unit with
    | .texels => "texture"
    | .pixels => "texelFetch"
  | .frontFacing => "gl_FrontFacing"
  | f => f.name

def builtinCall (unit : CoordUnit) : Builtin → List String → Option String
  | .texelAt, [tex, pos] =>
    match unit with
    | .texels => s!"texture({tex}, {pos})"
    | .pixels => s!"texelFetch({tex}, ivec2({pos}), 0)"
  | .frontFacing, _ => some "gl_FrontFacing"
  | _, _ => none

def binary (version : GlslVersion) (op : Op) (l r : String) : String :=
  if op = .mod ∧ version = .desktop then s!"modInt(({l}), ({r}))" else plainBinary op l r

def dialect (version : GlslVersion) (unit : CoordUnit) : Dialect where
  typeParts := suffixParts typeName
  zeroValue := zeroValue
  slotName := slotName
  builtinName := builtinName unit
  binary := binary version
  builtinCall := builtinCall unit
  returnLine := fun _ v => plainReturn v
  discardLines := ["discard;", "return vec4(0.0);"]

/-- Uniforms and textures, which both stages declare. -/
def uniformLines (d : Dialect) (p : Program) : Emit (List String) := do
  let uniforms ← numberedDecls d (fun _ decl => "uniform " ++ decl ++ ";") "U" 0 p.uniforms
  return uniforms ++ (List.range p.textureCount).map fun i => s!"uniform sampler2D T{i};"

def ioLines (d : Dialect) (word letter : String) (ts : List Ty) : Emit (List String) :=
  numberedDecls d (fun _ decl => word ++ " " ++ decl ++ ";") letter 0 ts

def vertexShader (version : GlslVersion) (p : Program) : Emit String := do
  let d := dialect version p.unit
  let uniforms ← uniformLines d p
  let attributes ← ioLines d "in" "A" p.attributes
  let varyings ← ioLines d "out" "V" p.varyings
  let funcs ← funcLines d (inOutSignature d) (p.vertex.elim p.funcs p.reachableFuncs)
  let main ←
    match nonEmpty p.vertex with
    | none => pure []
    | some b => do
      let lines ← bodyLines d (Body.ofVertex p b)
      pure ("" :: "void main(void) \x7b" :: (lines ++ ["\x7d"]))
  return joinLines ([vertexPrelude version, ""] ++ uniforms ++ attributes ++ varyings ++ funcs ++ main)

def freshIndex (p : Program) : Nat := p.funcs.foldl (fun n f => max n (f.index + 1)) 0

def fragmentFunc (p : Program) (b : Block) : Func where
  index := freshIndex p
  ins := p.fragmentParams
  outs := []
  result := Ty.vec4
  body := b

def colorName : GlslVersion → String
  | .desktop => "gl_FragColor"
  | .es300 => "fragColor"

def fragmentShader (version : GlslVersion) (p : Program) : Emit String := do
  let d := dialect version p.unit
  let uniforms ← uniformLines d p
  let varyings ← ioLines d "in" "V" p.varyings
  let head := [fragmentPrelude version, ""] ++ uniforms ++ varyings
  match nonEmpty p.fragment with
  | none =>
    let funcs ← funcLines d (inOutSignature d) p.funcs
    return joinLines (head ++ funcs)
  | some b =>
    let funcs ← funcLines d (inOutSignature d) (p.reachableFuncs b ++ [fragmentFunc p b])
    let args := "gl_FragCoord" :: (List.range p.varyings.length).map fun i => s!"V{i}"
    let call := plainCall s!"F{freshIndex p}" args
    return joinLines
      (head ++ funcs ++ ["", "void main(void) \x7b", "\t" ++ colorName version ++ " = " ++ call ++ ";", "\x7d"])

def emit (p : Program) (options : TargetOptions) : Emit TargetOutput := do
  let vertex ← vertexShader options.glsl p
  let fragment ← fragmentShader options.glsl p
  return ⟨[⟨"shader.vert", vertex⟩, ⟨"shader.frag", fragment⟩], []⟩

end GameMedia.Shader.Target.Glsl
