import GameMedia.Shader.Target.Writer

/-!
# HLSL

One source with both entry points. The uniforms lie in one constant buffer at explicit offsets, which are also
given as a note.
-/

namespace GameMedia.Shader.Target

def shortTypeName : Tag → String
  | .none => "void"
  | .bool => "bool"
  | .int => "int"
  | .float => "float"
  | .vec2 => "float2"
  | .vec3 => "float3"
  | .vec4 => "float4"
  | .ivec2 => "int2"
  | .ivec3 => "int3"
  | .ivec4 => "int4"
  | .mat2 => "float2x2"
  | .mat3 => "float3x3"
  | .mat4 => "float4x4"
  | .texture | .array | .struct => ""

def shortConstructorName? : Builtin → Option String
  | .vec2 => some "float2"
  | .vec3 => some "float3"
  | .vec4 => some "float4"
  | .ivec2 => some "int2"
  | .ivec3 => some "int3"
  | .ivec4 => some "int4"
  | .mat2 => some "float2x2"
  | .mat3 => some "float3x3"
  | .mat4 => some "float4x4"
  | _ => none

def varyingsReturn : BodyKind → Option String → String
  | .vertex, _ => "return varyings;"
  | _, v => plainReturn v

def endWithVaryings (lines : List String) : List String :=
  if lines.getLast? = some "\treturn varyings;" then lines else lines ++ ["\treturn varyings;"]

namespace Hlsl

open Code

/-- Float remainder and matrices with a scalar on the diagonal. -/
def prelude : String :=
  let modOf (t : String) := t ++ " mod(" ++ t ++ " x, " ++ t ++ " y) \x7b\n\treturn x - y * floor(x/y);\n\x7d"
  let fromScalar (t cells : String) :=
    t ++ " " ++ t ++ "FromScalar(float x) \x7b\n\treturn " ++ t ++ "(" ++ cells ++ ");\n\x7d"
  "\n\n".intercalate
    [modOf "float", modOf "float2", modOf "float3", modOf "float4", fromScalar "float2x2" "x, 0, 0, x",
      fromScalar "float3x3" "x, 0, 0, 0, x, 0, 0, 0, x",
      fromScalar "float4x4" "x, 0, 0, 0, 0, x, 0, 0, 0, 0, x, 0, 0, 0, 0, x"]

/-- Scalars spread to every component of vectors and matrices. -/
def zeroValue : Ty → Emit String
  | .mk .bool _ _ => .ok "false"
  | .mk .int _ _ | .mk .ivec2 _ _ | .mk .ivec3 _ _ | .mk .ivec4 _ _ => .ok "0"
  | .mk .array [] n => .error (.arrayElement (.mk .array [] n))
  | .mk .array (t :: _) n => do
    let zero ← zeroValue t
    return "\x7b" ++ ", ".intercalate (List.replicate n zero) ++ "\x7d"
  | t => do
    let _ ← plainName shortTypeName t
    return "0.0"

def slotName : Slot → String
  | .attribute i => s!"A{i}"
  | .position => "varyings.Position"
  | .varying i => s!"varyings.M{i}"
  | .plain i => s!"l{i}"

def builtinName (f : Builtin) : String :=
  match f with
  | .inversesqrt => "rsqrt"
  | .fract => "frac"
  | .mix => "lerp"
  | .dfdx => "ddx"
  | .dfdy => "ddy"
  | .frontFacing => "frontFacing"
  | f => (shortConstructorName? f).getD f.name

/-- Matrices are stored by rows here, so the factors of a matrix product change places. -/
def binary (op : Op) (l r : String) : String :=
  match op with
  | .vectorEq => s!"all(({l}) == ({r}))"
  | .vectorNe => s!"!all(({l}) == ({r}))"
  | .matrixMul => s!"mul({r}, {l})"
  | op => plainBinary op l r

/-- A vector of one repeated scalar is a cast, a matrix of one scalar a call of its own. -/
def builtinCall : Builtin → List String → Option String
  | .texelAt, [tex, pos] => some s!"{tex}.Sample(samp, {pos})"
  | .frontFacing, _ => some "frontFacing"
  | f, [x] =>
    match f with
    | .vec2 | .vec3 | .vec4 | .ivec2 | .ivec3 | .ivec4 => some ("(" ++ builtinName f ++ ")(" ++ x ++ ")")
    | .mat2 | .mat3 | .mat4 => some (builtinName f ++ "FromScalar(" ++ x ++ ")")
    | _ => none
  | _, _ => none

def dialect : Dialect where
  typeParts := suffixParts shortTypeName
  zeroValue := zeroValue
  slotName := slotName
  builtinName := builtinName
  binary := binary
  builtinCall := builtinCall
  returnLine := varyingsReturn
  discardLines := ["discard;", "return float4(0.0, 0.0, 0.0, 0.0);"]

def packOffset (offset : Nat) : String :=
  let component :=
    match offset % Layout.registerDwords with
    | 1 => ".y"
    | 2 => ".z"
    | 3 => ".w"
    | _ => ""
  s!"c{offset / Layout.registerDwords}" ++ component

def uniformDecls (i : Nat) : List (Ty × Nat) → Emit (List String)
  | [] => .ok []
  | (t, offset) :: rest => do
    let decl ← dialect.varDecl t s!"U{i}"
    return ("\t" ++ decl ++ " : packoffset(" ++ packOffset offset ++ ");") :: (← uniformDecls (i + 1) rest)

def uniformLines (p : Program) : Emit (List String) := do
  if p.uniforms.isEmpty then return []
  let decls ← uniformDecls 0 (p.uniforms.zip p.uniformOffsets)
  return "" :: "cbuffer Uniforms : register(b0) \x7b" :: (decls ++ ["\x7d"])

def textureLines (p : Program) : List String :=
  if p.textureCount = 0 then []
  else
    "" :: ((List.range p.textureCount).map fun i => s!"Texture2D T{i} : register(t{i});")
      ++ ["SamplerState samp : register(s0);"]

def vertexLines (p : Program) (b : Block) : Emit (List String) := do
  let args ← numberedDecls dialect (fun i decl => decl ++ s!" : TEXCOORD{i}") "A" 0 p.attributes
  let lines ← bodyLines dialect (Body.ofVertex p b)
  let head := plainCall "Varyings VSMain" args ++ " \x7b"
  return endWithVaryings (["", head, "\tVaryings varyings;"] ++ lines) ++ ["\x7d"]

def fragmentLines (p : Program) (b : Block) : Emit (List String) := do
  let lines ← bodyLines dialect (Body.ofFragment p b)
  return "" :: "float4 PSMain(Varyings varyings, bool frontFacing : SV_IsFrontFace) : SV_TARGET \x7b"
    :: (lines ++ ["\x7d"])

def shader (p : Program) : Emit String := do
  let varyings ← numberedDecls dialect (fun i decl => "\t" ++ decl ++ s!" : TEXCOORD{i};") "M" 0 p.varyings
  let uniforms ← uniformLines p
  let funcs ← funcLines dialect (inOutSignature dialect) p.funcs
  let vertex ← (nonEmpty p.vertex).elim (pure []) (vertexLines p)
  let fragment ← (nonEmpty p.fragment).elim (pure []) (fragmentLines p)
  return joinLines
    ([prelude, "", "struct Varyings \x7b", "\tfloat4 Position : SV_POSITION;"] ++ varyings ++ ["\x7d;"]
      ++ uniforms ++ textureLines p ++ funcs ++ vertex ++ fragment)

def emit (p : Program) : Emit TargetOutput := do
  let text ← shader p
  let offsets := ", ".intercalate (p.uniformOffsets.map toString)
  return ⟨[⟨"shader.hlsl", text⟩], ["uniform offsets in dwords: [" ++ offsets ++ "]"]⟩

end Hlsl

end GameMedia.Shader.Target
