import GameMedia.Shader.Fault
import GameMedia.Shader.Code

/-!
# Targets

What writing a program for a target gives: files with notes beside them, or the reason why the program cannot be
written. No checked source has such a reason; a program from outside may.
-/

namespace GameMedia.Shader

/-- A kind of value that no target can hold. -/
inductive Unsupported where
  | textureValues
  | structTypes
  deriving DecidableEq, Repr

def Unsupported.text : Unsupported → String
  | .textureValues => "texture values"
  | .structTypes => "struct types"

inductive EmitError where
  | unsupported (what : Unsupported)
  | fault (fault : Fault)
  | bareArray (ty : Ty)
  | arrayElement (ty : Ty)
  | blankValue
  | swizzle (letters : String)
  | unaryOperator (op : Op)
  | callee (e : Code.Expr)
  | loopOperator (op : Op)
  | loopStep (step : Constant)

def EmitError.message : EmitError → String
  | .unsupported what => "unsupported: " ++ what.text
  | .fault f => f.message
  | .bareArray t => "unexpected array type: " ++ t.text
  | .arrayElement t => "array without element type: " ++ t.text
  | .blankValue => "blank identifier used as a value"
  | .swizzle s => "unexpected swizzling: " ++ s
  | .unaryOperator op => "unexpected unary operator: " ++ op.text
  | .callee e => "unexpected callee: " ++ e.text
  | .loopOperator op => "unexpected for-loop operator: " ++ op.text
  | .loopStep c => "unexpected for-loop delta: " ++ c.text

structure TargetFile where
  name : String
  content : String

structure TargetOutput where
  files : List TargetFile
  notes : List String := []

namespace TargetOutput

def text? (o : TargetOutput) (name : String) : Option String :=
  (o.files.find? fun f => f.name == name).map TargetFile.content

def summary (o : TargetOutput) : String :=
  s!"{o.files.length} file(s), {o.notes.length} diagnostic(s)"

end TargetOutput

/-- The two forms of the OpenGL language. -/
inductive GlslVersion where
  | desktop
  | es300
  deriving DecidableEq, Repr

structure TargetOptions where
  glsl : GlslVersion := .desktop

def TargetOptions.text (o : TargetOptions) : String :=
  let version :=
    match o.glsl with
    | .desktop => "default"
    | .es300 => "es300"
  "BackendOptions \x7b glsl_version: " ++ version ++ " \x7d"

end GameMedia.Shader
