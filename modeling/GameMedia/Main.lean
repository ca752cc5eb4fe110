import GameMedia.Audio.Decoder
import GameMedia.Command
import GameMedia.Shader.Compile
import GameMedia.Shader.Target.Registry

/-!
# The command line

Reads the input file, hands it to the library and writes what it gives.
-/

namespace GameMedia.Main

open Shader Audio

/-- Runs an action and says what was attempted when it fails. -/
def attempt {α : Type} (what : String) (act : IO α) : ExceptT String IO α := do
  match ← act.toBaseIO with
  | .ok a => pure a
  | .error e => throw s!"{what}: {e}"

def writeFile (path : String) (data : ByteArray) : ExceptT String IO Unit :=
  attempt s!"failed to write {path}" (IO.FS.writeBinFile path data)

def writeOutput (output : Option String) (files : List TargetFile) : ExceptT String IO Unit := do
  let several := files.length > 1
  match output with
  | none =>
    for f in files do
      if several then IO.println s!"// {f.name}"
      IO.print f.content
  | some path =>
    if several then
      attempt s!"failed to create {path}" (IO.FS.createDirAll path)
    for f in files do
      writeFile (if several then s!"{path}/{f.name}" else path) f.content.toUTF8

def compile (c : CompileCommand) : ExceptT String IO Unit := do
  let source ← attempt s!"failed to read {c.input}" (IO.FS.readFile c.input)
  let some entry := TargetEntry.find? c.target
    | throw (s!"unknown target '{c.target}' (available: " ++ ", ".intercalate TargetEntry.allTargets ++ ")")
  match Shader.compile c.options source with
  | .error e => throw (s!"failed to compile {c.input}: " ++ e.message)
  | .ok program =>
    if c.dump then IO.eprintln program.dump
    unless c.checkOnly do
      match entry.emit program ⟨c.glsl⟩ with
      | .error e => throw (s!"{entry.name} backend failed: " ++ e.message)
      | .ok out =>
        for note in out.notes do IO.eprintln s!"note: {note}"
        writeOutput c.output out.files

/-- Writes the sound that could be decoded, also when an error ends it. -/
def decode (c : DecodeCommand) : ExceptT String IO Unit := do
  let data ← attempt s!"failed to open {c.input}" (IO.FS.readBinFile c.input)
  let source : MemorySource := ⟨data.data, 0, none, none⟩
  match (Decoder.ofScanned source).1 with
  | .error e => throw (s!"failed to decode {c.input}: " ++ e.message)
  | .ok decoder =>
    let (pcm, failure, _) := decoder.readAll
    match c.output with
    | some path => writeFile path ⟨pcm⟩
    | none => (← IO.getStdout).write ⟨pcm⟩
    if let some e := failure then throw (s!"failed to decode {c.input}: " ++ e.message)

def run : Command → ExceptT String IO Unit
  | .compile c => compile c
  | .decode c => decode c

end GameMedia.Main

def main (args : List String) : IO UInt32 := do
  match GameMedia.Command.ofArgs args with
  | .error e =>
    IO.eprintln ("error: " ++ e.message)
    return 2
  | .ok command =>
    match ← (GameMedia.Main.run command).run with
    | .ok () => return 0
    | .error message =>
      IO.eprintln ("Error: " ++ message)
      return 1
