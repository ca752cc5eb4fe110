import GameMedia.Shader.Check.Context
import GameMedia.Shader.Target

/-!
# Commands

What can be asked for on a command line, and how the words of one are understood. An option stands before or behind
the input, its value is the next word or follows an equals sign, and a later option overrules an earlier one.
-/

namespace GameMedia

open Shader

structure CompileCommand where
  input : String
  target : String := "glsl"
  /-- A file, or a directory when the target gives several files. -/
  output : Option String := none
  options : CompileOptions := {}
  glsl : GlslVersion := .desktop
  /-- Whether the program is also shown as text. -/
  dump : Bool := false
  /-- Whether to stop after checking the source. -/
  checkOnly : Bool := false

structure DecodeCommand where
  input : String
  output : Option String := none

inductive Command where
  | compile (c : CompileCommand)
  | decode (c : DecodeCommand)

inductive CommandError where
  | noCommand
  | unknownCommand (word : String)
  | unexpected (word : String)
  | noValue (option : String)
  | badCount (word : String)
  | badGlslVersion (word : String)
  | noInput

def CommandError.message : CommandError → String
  | .noCommand => "expected a command: compile or decode"
  | .unknownCommand w => s!"unknown command '{w}', expected compile or decode"
  | .unexpected w => s!"unexpected argument '{w}'"
  | .noValue o => s!"a value is required for '{o}'"
  | .badCount w => s!"invalid number of textures '{w}'"
  | .badGlslVersion w => s!"invalid GLSL version '{w}', expected default or es300"
  | .noInput => "an input file is required"

namespace Command

/-- Divides `--name=value` into the two words that it stands for. -/
def words (arg : String) : List String :=
  if arg.startsWith "--" then
    match arg.splitOn "=" with
    | name :: value :: more => [name, "=".intercalate (value :: more)]
    | _ => [arg]
  else [arg]

def glslVersion (word : String) : Except CommandError GlslVersion :=
  match word with
  | "default" => .ok .desktop
  | "es300" => .ok .es300
  | _ => .error (.badGlslVersion word)

def count (word : String) : Except CommandError Nat :=
  match if word.all Char.isDigit then word.toNat? else none with
  | some n => .ok n
  | none => .error (.badCount word)

/-- Whether a word is an option rather than an input. A single dash is an input. -/
def isOption (word : String) : Bool := word.startsWith "-" && word != "-"

/-- Reads the words behind `compile`. The input is empty until it has been seen. -/
def readCompile (c : CompileCommand) : List String → Except CommandError CompileCommand
  | [] => if c.input.isEmpty then .error .noInput else .ok c
  | "--emit-ir" :: rest => readCompile { c with dump := true } rest
  | "--dry-run" :: rest => readCompile { c with checkOnly := true } rest
  | "-v" :: rest => readCompile c rest
  | "--verbose" :: rest => readCompile c rest
  | [word] =>
    if isOption word then .error (.noValue word)
    else if c.input.isEmpty then .ok { c with input := word }
    else .error (.unexpected word)
  | word :: value :: rest =>
    match word with
    | "-t" => readCompile { c with target := value } rest
    | "--target" => readCompile { c with target := value } rest
    | "-o" => readCompile { c with output := some value } rest
    | "--output" => readCompile { c with output := some value } rest
    | "--vertex" => readCompile { c with options.vertexEntry := value } rest
    | "--fragment" => readCompile { c with options.fragmentEntry := value } rest
    | "--textures" => do readCompile { c with options.textureCount := ← count value } rest
    | "--glsl-version" => do readCompile { c with glsl := ← glslVersion value } rest
    | _ =>
      if isOption word || !c.input.isEmpty then .error (.unexpected word)
      else readCompile { c with input := word } (value :: rest)

/-- Reads the words behind `decode`. The input is empty until it has been seen. -/
def readDecode (c : DecodeCommand) : List String → Except CommandError DecodeCommand
  | [] => if c.input.isEmpty then .error .noInput else .ok c
  | "-v" :: rest => readDecode c rest
  | "--verbose" :: rest => readDecode c rest
  | [word] =>
    if isOption word then .error (.noValue word)
    else if c.input.isEmpty then .ok { c with input := word }
    else .error (.unexpected word)
  | word :: value :: rest =>
    match word with
    | "-o" => readDecode { c with output := some value } rest
    | "--output" => readDecode { c with output := some value } rest
    | _ =>
      if isOption word || !c.input.isEmpty then .error (.unexpected word)
      else readDecode { c with input := word } (value :: rest)

def ofArgs (args : List String) : Except CommandError Command :=
  match (args.flatMap words).dropWhile fun w => w == "-v" || w == "--verbose" with
  | [] => .error .noCommand
  | "compile" :: rest => (readCompile { input := "" } rest).map .compile
  | "decode" :: rest => (readDecode { input := "" } rest).map .decode
  | word :: _ => .error (.unknownCommand word)

end Command

end GameMedia
