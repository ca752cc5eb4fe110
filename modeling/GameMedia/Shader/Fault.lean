/-!
# Structural faults

What can be wrong with a type, a program or the data handed to it when nothing has checked them before.
-/

namespace GameMedia.Shader

inductive Fault where
  /-- An array type with `found` element types, or another type that carries element types at all. -/
  | arrayElements (found : Nat)
  /-- A local variable that neither the parameters nor any block declares. -/
  | localIndex (index count : Nat)
  /-- Uniform data of another size than the uniforms have together. -/
  | uniformSize (expected found : Nat)
  deriving DecidableEq, Repr

def Fault.message : Fault → String
  | .arrayElements found => s!"array type must have exactly one element type, found {found}"
  | .localIndex index count =>
    s!"local variable index {index} out of range (function has {count} variables)"
  | .uniformSize expected found => s!"uniform data has {found} dwords, expected {expected}"

end GameMedia.Shader
