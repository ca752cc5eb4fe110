import GameMedia.Shader.Program.Dump
import GameMedia.Shader.Target.Glsl
import GameMedia.Shader.Target.Hlsl
import GameMedia.Shader.Target.Msl

/-!
# The registry of targets

Every target under the names it is asked for.
-/

namespace GameMedia.Shader

open Target

structure TargetEntry where
  name : String
  targets : List String
  emit : Program → TargetOptions → Except EmitError TargetOutput

namespace TargetEntry

def dump : TargetEntry where
  name := "IR Dump"
  targets := ["ir-dump", "ir"]
  emit := fun p _ => .ok ⟨[⟨"program.ir", p.dump⟩], []⟩

def glsl : TargetEntry where
  name := "GLSL"
  targets := ["glsl", "opengl"]
  emit := Glsl.emit

def hlsl : TargetEntry where
  name := "HLSL"
  targets := ["hlsl", "directx"]
  emit := fun p _ => Hlsl.emit p

def msl : TargetEntry where
  name := "MSL"
  targets := ["msl", "metal"]
  emit := fun p _ => Msl.emit p

def all : List TargetEntry := [dump, glsl, hlsl, msl]

def find? (target : String) : Option TargetEntry := all.find? fun e => e.targets.contains target

def allTargets : List String := all.flatMap targets

end TargetEntry

end GameMedia.Shader
