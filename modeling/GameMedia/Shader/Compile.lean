import GameMedia.Shader.Check.File
import GameMedia.Shader.Directive
import GameMedia.Shader.Surface.Parser.File

/-!
# Compilation

From source text to a checked program. The stages are run in order, and the first that finds something wrong says so.
-/

namespace GameMedia.Shader

inductive CompileError where
  | directive (e : DirectiveError)
  | grammar (ds : List (Diagnostic Surface.SyntaxError))
  | meaning (ds : Complaints)

namespace CompileError

def message : CompileError → String
  | directive e => e.message
  | grammar ds => Diagnostic.joined Surface.SyntaxError.message ds
  | meaning ds => Diagnostic.joined Check.Complaint.message ds

/-- The number of diagnostics that have a position. -/
def count : CompileError → Nat
  | directive _ => 0
  | grammar ds => ds.length
  | meaning ds => ds.length

end CompileError

def compile (options : CompileOptions) (source : String) : Except CompileError Program := do
  let unit ← (coordUnit source).mapError .directive
  let file ← (Surface.File.ofSource source).mapError .grammar
  (Check.program options unit file).mapError .meaning

end GameMedia.Shader
