import GameMedia.Shader.Program
import GameMedia.Text.WhiteSpace

/-!
# The unit directive

A comment line before the package clause may say in which unit the shader takes source coordinates. It is read
line by line from the source text, whatever tokens stand there.
-/

namespace GameMedia.Shader

/-- What is wrong with the unit directives of a source. -/
inductive DirectiveError where
  | afterPackage
  | repeated
  | unknownUnit (value : String)
  deriving DecidableEq, Repr

namespace DirectiveError

def message : DirectiveError → String
  | afterPackage => "shader: //kage:unit must be placed before the package clause"
  | repeated => "shader: at most one //kage:unit can exist in a shader"
  | unknownUnit value => "shader: invalid value for //kage:unit: " ++ value

end DirectiveError

namespace Directive

inductive Line where
  | package
  | unit (value : String)
  | other
  deriving DecidableEq, Repr

/-- Whether a line that begins with the word for packages goes on as a clause. -/
def endsWord : List Char → Bool
  | [] => true
  | c :: _ => c = ' ' || c = '\t'

/-- The value of a directive that begins a line, if white space divides the two. -/
def unitValue? : List Char → Option String
  | [] => none
  | c :: cs => if Text.isWhiteSpace c then some (String.ofList (Text.trim cs)) else none

def classify (line : List Char) : Line :=
  match Text.after? "package" line with
  | some rest => if endsWord rest then .package else .other
  | none =>
    match (Text.after? "//kage:unit" line).bind unitValue? with
    | some value => .unit value
    | none => .other

def unit? : String → Option CoordUnit
  | "pixels" => some .pixels
  | "texels" => some .texels
  | _ => none

def readUnit (inPackage : Bool) (found : Option CoordUnit) : List Line → Except DirectiveError CoordUnit
  | [] => .ok (found.getD .texels)
  | .other :: ls => readUnit inPackage found ls
  | .package :: ls => readUnit true found ls
  | .unit value :: ls =>
    if inPackage then .error .afterPackage
    else if found.isSome then .error .repeated
    else
      match unit? value with
      | some u => readUnit inPackage (some u) ls
      | none => .error (.unknownUnit value)

end Directive

def coordUnit (source : String) : Except DirectiveError CoordUnit :=
  Directive.readUnit false none ((Text.lines source.toList).map fun l => Directive.classify (Text.trim l))

end GameMedia.Shader
