import GameMedia.Shader.Body
import GameMedia.Shader.Check.Scope
import GameMedia.Shader.Check.Value

/-!
# The context of a check

What is known where code is checked: the file's declarations and the function around it, which do not change, and
the open scopes and the statements written so far, which do. The first complaint ends a check.
-/

namespace GameMedia.Shader

/-- The settings of a compilation. -/
structure CompileOptions where
  vertexEntry : String := "Vertex"
  fragmentEntry : String := "Fragment"
  /-- The source textures, which are known as `__t0`, `__t1` and so on. -/
  textureCount : Nat := 0
  deriving DecidableEq, Repr, Inhabited

namespace Check

structure Param where
  name : String
  ty : Ty
  pos : Pos

structure Signature where
  name : String
  pos : Pos
  ins : List Param
  outs : List Param
  /-- `Ty.none` unless the function returns its one result. -/
  result : Ty

/-- The declarations of a file. -/
structure Globals where
  options : CompileOptions := {}
  uniforms : List (String × Ty) := []
  consts : List NamedConst := []
  types : List (String × Ty) := []
  funcs : List Signature := []
  vertex : Option Signature := none
  fragment : Option Signature := none

namespace Globals

def declares (g : Globals) (name : String) : Bool :=
  g.consts.any (·.name == name) || g.types.any (·.1 == name) || g.uniforms.any (·.1 == name)

def declaresFunc (g : Globals) (name : String) : Bool :=
  g.funcs.any (·.name == name) || g.vertex.any (·.name == name) || g.fragment.any (·.name == name)

def isEntry (g : Globals) (name : String) : Bool := g.vertex.any (·.name == name) || g.fragment.any (·.name == name)

def funcIndex? (g : Globals) (name : String) : Option Nat := g.funcs.findIdx? fun f => f.name == name

def uniformIndex? (g : Globals) (name : String) : Option Nat := g.uniforms.findIdx? fun u => u.1 == name

/-- The number of the texture that a name means. It is written without leading zeros. -/
def textureIndex? (g : Globals) (name : String) : Option Nat := do
  let i ← Literal.natural 10 (name.toList.drop 3)
  if name == s!"__t{i}" && i < g.options.textureCount then some i else none

end Globals

/-- What the statements of a body have to know about its function. -/
structure Frame where
  kind : BodyKind := .helper
  inCount : Nat := 0
  outs : List Ty := []
  namedOuts : Bool := false
  result : Ty := .none

structure Env where
  globals : Globals
  frame : Frame := {}

structure State where
  scope : Scope := {}
  /-- The scopes around it, inner ones first. -/
  outer : List Scope := []
  /-- The statements written so far. -/
  out : List Code.Stmt := []

namespace State

def scopes (s : State) : List Scope := s.scope :: s.outer

def declares (s : State) (name : String) : Bool := s.scopes.any (·.declares name)

end State

end Check

abbrev Complaints : Type := List (Diagnostic Check.Complaint)

abbrev Check (α : Type) : Type := ReaderT Check.Env (StateT Check.State (Except Complaints)) α

namespace Check

variable {α : Type}

def fail (pos : Pos) (c : Complaint) : Check α := throw [⟨pos, c⟩]

def ruled (pos : Pos) (r : Except Complaint α) : Check α :=
  match r with
  | .ok a => pure a
  | .error c => fail pos c

def globals : Check Globals := return (← read).globals

def frame : Check Frame := return (← read).frame

def emit (s : Code.Stmt) : Check Unit := modify fun st => { st with out := st.out ++ [s] }

def emitAll (ss : List Code.Stmt) : Check Unit := modify fun st => { st with out := st.out ++ ss }

def declare (v : Variable) : Check Nat := do
  let i := (← get).scope.stop
  modify fun st => { st with scope := { st.scope with vars := st.scope.vars ++ [v] } }
  return i

/-- A new variable that the source has no name for. -/
def temporary (ty : Ty) : Check Nat := declare ⟨"", ty, default, .temporary⟩

def declareLocal (name : String) (ty : Ty) (pos : Pos) : Check Nat := declare ⟨name, ty, pos, .declared false⟩

def declareConst (c : NamedConst) : Check Unit :=
  modify fun st => { st with scope := { st.scope with consts := st.scope.consts ++ [c] } }

def declareType (name : String) (ty : Ty) : Check Unit :=
  modify fun st => { st with scope := { st.scope with types := st.scope.types ++ [(name, ty)] } }

def findLocal? (name : String) : Check (Option (Nat × Variable)) := do
  match lookupVar? name (← get).scopes with
  | none => return none
  | some found =>
    modify fun st =>
      match useVar name st.scopes with
      | [] => st
      | s :: ss => { st with scope := s, outer := ss }
    return some found

def findConst? (name : String) : Check (Option NamedConst) := do
  let g ← globals
  return (lookupConst? name (← get).scopes).or (g.consts.find? fun c => c.name == name)

def findType? (name : String) : Check (Option Ty) := do
  let g ← globals
  return ((lookupType? name (← get).scopes).or (g.types.lookup name)).or (predeclared? name)

def builtinNamed? (name : String) : Check (Option Builtin) := do
  let g ← globals
  if (← get).declares name || g.declares name || g.declaresFunc name then return none
  else return Builtin.ofSource? name

/-- Runs a check whose statements are dropped, and says whether there were any. -/
def withoutStmts (p : Check α) : Check (α × Bool) := do
  let out := (← get).out
  modify fun st => { st with out := [] }
  let a ← p
  let wrote := !(← get).out.isEmpty
  modify fun st => { st with out }
  return (a, wrote)

def checkUnused (s : Scope) : Check Unit :=
  match s.unused with
  | [] => pure ()
  | vs => throw (vs.map fun v => ⟨v.pos, .unusedLocal v.name⟩)

def inScope (p : Check Unit) : Check (Scope × List Code.Stmt) := do
  let st ← get
  set { scope := { base := st.scope.stop }, outer := st.scopes, out := [] : State }
  p
  let inner ← get
  match inner.outer with
  | [] => set { st with scope := {} }
  | s :: ss => set { scope := s, outer := ss, out := st.out : State }
  return (inner.scope, inner.out)

def block (p : Check Unit) : Check Code.Block := do
  let (s, out) ← inScope p
  checkUnused s
  return .mk s.localTypes s.base out

end Check

end GameMedia.Shader
