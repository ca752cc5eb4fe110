import GameMedia.Shader.Code
import GameMedia.Shader.Source

/-!
# Scopes

What a block declares: variables, which are numbered on from those of the enclosing blocks, constants and types.
-/

namespace GameMedia.Shader.Check

/-- What a variable is for. -/
inductive Role where
  /-- Inputs of entry points cannot be written. -/
  | param (readOnly : Bool)
  | counter
  | temporary
  /-- A variable that the source declares, and whether it is used anywhere. -/
  | declared (used : Bool)
  deriving DecidableEq, Repr

structure Variable where
  /-- Empty for what the source has no name for. -/
  name : String
  ty : Ty
  pos : Pos
  role : Role

/-- A constant by name. It has a type if its declaration gave it one. -/
structure NamedConst where
  name : String
  ty : Ty
  value : Constant

structure Scope where
  /-- The number of the first variable. -/
  base : Nat := 0
  vars : List Variable := []
  consts : List NamedConst := []
  types : List (String × Ty) := []
  /-- The first so many variables are the function's parameters. -/
  paramCount : Nat := 0

namespace Scope

def declares (s : Scope) (name : String) : Bool :=
  s.vars.any (·.name == name) || s.consts.any (·.name == name) || s.types.any (·.1 == name)

def findVar? (s : Scope) (name : String) : Option Nat :=
  let after := (s.vars.reverse.takeWhile fun v => v.name != name).length
  if after < s.vars.length then some (s.vars.length - 1 - after) else none

def findConst? (s : Scope) (name : String) : Option NamedConst := s.consts.find? fun c => c.name == name

def findType? (s : Scope) (name : String) : Option Ty := s.types.lookup name

/-- The number behind that of the last variable. -/
def stop (s : Scope) : Nat := s.base + s.vars.length

/-- The types of the variables that the block declares. The head of a loop declares its counter. -/
def localTypes (s : Scope) : List Ty :=
  (s.vars.drop s.paramCount).map fun v => if v.role = .counter then .none else v.ty

/-- The variables that the source declares and does not use. -/
def unused (s : Scope) : List Variable :=
  s.vars.filter fun v => v.role = .declared false && v.name != "" && v.name != "_"

def markUsed (s : Scope) (i : Nat) : Scope :=
  { s with vars := s.vars.modify i fun v =>
      match v.role with
      | .declared _ => { v with role := .declared true }
      | _ => v }

end Scope

/-! ## Nested scopes

Lists of scopes have the innermost first. -/

/-- The number of the variable that a name means and the variable. A constant hides the variables around it. -/
def lookupVar? (name : String) : List Scope → Option (Nat × Variable)
  | [] => none
  | s :: ss =>
    match s.findVar? name with
    | some i => (s.vars[i]?).map fun v => (s.base + i, v)
    | none => if (s.findConst? name).isSome then none else lookupVar? name ss

def useVar (name : String) : List Scope → List Scope
  | [] => []
  | s :: ss =>
    match s.findVar? name with
    | some i => s.markUsed i :: ss
    | none => if (s.findConst? name).isSome then s :: ss else s :: useVar name ss

def lookupConst? (name : String) : List Scope → Option NamedConst
  | [] => none
  | s :: ss => (s.findConst? name).or (lookupConst? name ss)

def lookupType? (name : String) : List Scope → Option Ty
  | [] => none
  | s :: ss => (s.findType? name).or (lookupType? name ss)

end GameMedia.Shader.Check
