import GameMedia.Shader.Program

/-!
# Program dumps

A program as text for a reader.
-/

namespace GameMedia.Shader

open Code

namespace Program

def paramTexts (word : String) (i : Nat) : List Ty → List String
  | [] => []
  | t :: ts => (word ++ s!"l{i} " ++ t.text) :: paramTexts word (i + 1) ts

def paramList (ins outs : List Ty) : String :=
  ", ".intercalate (paramTexts "" 0 ins ++ paramTexts "out " ins.length outs)

def titled (title : String) (lines : List String) : List String :=
  if lines.isEmpty then [] else "" :: title :: lines

def uniformLines (p : Program) : List String :=
  (p.uniforms.zip p.uniformOffsets).zipIdx.map fun ((t, offset), i) =>
    let name := p.uniformNames.getD i ""
    s!"  U{i} {name}: {t} @dword {offset}"

def slotLines (letter : String) (ts : List Ty) : List String :=
  ts.zipIdx.map fun (t, i) => s!"  {letter}{i}: {t}"

def funcLines (f : Func) : List String :=
  let result := if f.result.isNone then "" else " " ++ f.result.text
  (s!"  F{f.index}(" ++ paramList f.ins f.outs ++ ")" ++ result ++ " \x7b") :: (f.body.lines 2 ++ ["  \x7d"])

/-- An entry point, or nothing when the program has none. -/
def entryLines (head : String) : Option Block → List String
  | none => []
  | some b => "" :: (head ++ " \x7b") :: (b.lines 1 ++ ["\x7d"])

def dumpLines (p : Program) : List String :=
  [s!"; unit: {p.unit}, textures: {p.textureCount}"]
    ++ titled "Uniforms:" p.uniformLines
    ++ titled "Attributes:" (slotLines "A" p.attributes)
    ++ titled "Varyings:" (slotLines "V" p.varyings)
    ++ titled "Functions:" (p.funcs.flatMap funcLines)
    ++ entryLines ("Vertex(" ++ paramList p.attributes (Ty.vec4 :: p.varyings) ++ ")") p.vertex
    ++ entryLines ("Fragment(" ++ paramList p.fragmentParams [] ++ ") vec4") p.fragment

def dump (p : Program) : String := String.join (p.dumpLines.map (· ++ "\n"))

end Program

end GameMedia.Shader
