import GameMedia.Shader.Target.Hlsl

/-!
# MSL

One source with both entry points. There are no global variables to hold uniforms, textures and the facing of
the fragment, so every helper takes them before its own parameters.
-/

namespace GameMedia.Shader.Target.Msl

open Code

def prelude (unit : CoordUnit) : String :=
  "#include <metal_stdlib>\n\nusing namespace metal;\n\ntemplate<typename T, typename U>\nT mod(T x, U y) \x7b\n"
    ++ "\treturn x - y * floor(x/y);\n\x7d"
    ++ match unit with
      | .texels => "\n\nconstexpr sampler texture_sampler\x7bfilter::nearest\x7d;"
      | .pixels => ""

/-- An array is a value of its own, so nothing stands behind a declared name. -/
def typeParts : Ty → Emit (String × String)
  | .mk .array (t :: _) n => do
    let (inner, _) ← typeParts t
    return ("array<" ++ inner ++ s!", {n}>", "")
  | t => do return (← plainName shortTypeName t, "")

def zeroValue (t : Ty) : Emit String :=
  match t.tag with
  | .bool => .ok "false"
  | .int => .ok "0"
  | .array => .ok "\x7b\x7d"
  | _ => do return (← plainName shortTypeName t) ++ "(0)"

def slotName : Slot → String
  | .attribute i => s!"attributes[vid].M{i}"
  | .position => "varyings.Position"
  | .varying i => s!"varyings.M{i}"
  | .plain i => s!"l{i}"

def builtinName (f : Builtin) : String :=
  match f with
  | .inversesqrt => "rsqrt"
  | .frontFacing => "front_facing"
  | f => (shortConstructorName? f).getD f.name

def binary (op : Op) (l r : String) : String :=
  match op with
  | .vectorEq => s!"all(({l}) == ({r}))"
  | .vectorNe => s!"!all(({l}) == ({r}))"
  | op => plainBinary op l r

def builtinCall (unit : CoordUnit) : Builtin → List String → Option String
  | .texelAt, [tex, pos] =>
    match unit with
    | .texels => s!"{tex}.sample(texture_sampler, {pos})"
    | .pixels => s!"{tex}.read(static_cast<uint2>({pos}))"
  | .frontFacing, _ => some "(front_facing)"
  | _, _ => none

def implicits (p : Program) (uniforms : String) (texture : Nat → String) (facing : String) : List String :=
  (if p.uniforms.isEmpty then [] else [uniforms]) ++ (List.range p.textureCount).map texture ++ [facing]

def dialect (p : Program) : Dialect where
  typeParts := typeParts
  zeroValue := zeroValue
  slotName := slotName
  builtinName := builtinName
  uniformName := fun i => s!"uniforms.U{i}"
  binary := binary
  builtinCall := builtinCall p.unit
  implicitArgs := implicits p "uniforms" (fun i => s!"T{i}") "front_facing"
  returnLine := varyingsReturn
  discardLines := ["discard_fragment();", "return float4(0.0);"]
  startsAtZero := fun kind slot =>
    match kind, slot with
    | .vertex, .plain _ => false
    | .vertex, _ => true
    | _, _ => false
  arraysAreValues := true

/-- Output parameters are references, numbered from `i`. -/
def outDecls (i : Nat) : List Ty → Emit (List String)
  | [] => .ok []
  | t :: ts => do
    let (before, _) ← typeParts t
    return ("thread " ++ before ++ s!"& l{i}") :: (← outDecls (i + 1) ts)

def signature (p : Program) (f : Func) : Emit String := do
  let leading :=
    implicits p "constant Uniforms& uniforms" (fun i => s!"texture2d<float> T{i}") "bool front_facing"
  let ins ← paramDecls (dialect p) "" 0 f.ins
  let outs ← outDecls f.ins.length f.outs
  let (before, _) ← typeParts f.result
  return before ++ " " ++ plainCall s!"F{f.index}" (leading ++ ins ++ outs)

def structLines (d : Dialect) (name letter : String) (first : List String) (ts : List Ty) :
    Emit (List String) := do
  let members ← numberedDecls d (fun _ decl => "\t" ++ decl ++ ";") letter 0 ts
  return "" :: ("struct " ++ name ++ " \x7b") :: (first ++ members ++ ["\x7d;"])

def textureParams (p : Program) : List String :=
  (List.range p.textureCount).map fun i => s!"texture2d<float> T{i} [[texture({i})]]"

def entryHead (name : String) (params : List String) : List String :=
  ["", name ++ "(", "\t" ++ ",\n\t".intercalate params ++ ") \x7b"]

def vertexLines (p : Program) (b : Block) : Emit (List String) := do
  let uniforms := if p.uniforms.isEmpty then [] else ["constant Uniforms& uniforms [[buffer(1)]]"]
  let params := ["uint vid [[vertex_id]]", "const device Attributes* attributes [[buffer(0)]]"]
    ++ uniforms ++ textureParams p
  let facing := if p.funcs.isEmpty then [] else ["\tbool front_facing = false;"]
  let lines ← bodyLines (dialect p) (Body.ofVertex p b)
  return endWithVaryings
    (entryHead "vertex Varyings Vertex" params ++ ["\tVaryings varyings = \x7b\x7d;"] ++ facing ++ lines)
    ++ ["\x7d"]

def fragmentLines (p : Program) (b : Block) : Emit (List String) := do
  let uniforms := if p.uniforms.isEmpty then [] else ["constant Uniforms& uniforms [[buffer(0)]]"]
  let params := ["Varyings varyings [[stage_in]]"] ++ uniforms ++ textureParams p
    ++ ["bool front_facing [[front_facing]]"]
  let lines ← bodyLines (dialect p) (Body.ofFragment p b)
  return entryHead "fragment float4 Fragment" params ++ lines ++ ["\x7d"]

def shader (p : Program) : Emit String := do
  let d := dialect p
  let uniforms ← if p.uniforms.isEmpty then pure [] else structLines d "Uniforms" "U" [] p.uniforms
  let attributes ← if p.attributes.isEmpty then pure [] else structLines d "Attributes" "M" [] p.attributes
  let varyings ← structLines d "Varyings" "M" ["\tfloat4 Position [[position]];"] p.varyings
  let funcs ← funcLines d (signature p) p.funcs
  let vertex ← (nonEmpty p.vertex).elim (pure []) (vertexLines p)
  let fragment ← (nonEmpty p.fragment).elim (pure []) (fragmentLines p)
  return joinLines ([prelude p.unit] ++ uniforms ++ attributes ++ varyings ++ funcs ++ vertex ++ fragment)

def emit (p : Program) : Emit TargetOutput := do
  return ⟨[⟨"shader.metal", ← shader p⟩], []⟩

end GameMedia.Shader.Target.Msl
