import GameMedia.Shader.Program

/-!
# Function bodies

A body knows which function it belongs to, and so what its first locals stand for.
-/

namespace GameMedia.Shader

open Code

inductive BodyKind where
  | vertex
  | fragment
  | helper
  deriving DecidableEq, Repr

/-- What a local stands for. -/
inductive Slot where
  | attribute (index : Nat)
  /-- The position a vertex gets, or the one a fragment has. -/
  | position
  | varying (index : Nat)
  /-- A variable of its own, counted behind what an entry point is given. -/
  | plain (index : Nat)
  deriving DecidableEq, Repr

structure Body where
  kind : BodyKind
  attributes : Nat
  varyings : Nat
  params : List Ty
  top : Block

namespace Body

def ofVertex (p : Program) (top : Block) : Body :=
  ⟨.vertex, p.attributes.length, p.varyings.length, p.vertexParams, top⟩

def ofFragment (p : Program) (top : Block) : Body :=
  ⟨.fragment, 0, p.varyings.length, p.fragmentParams, top⟩

def ofFunc (f : Func) : Body := ⟨.helper, 0, 0, f.ins ++ f.outs, f.body⟩

def slot (b : Body) (i : Nat) : Slot :=
  match b.kind with
  | .helper => .plain i
  | .vertex =>
    if i < b.attributes then .attribute i
    else if i = b.attributes then .position
    else if i ≤ b.attributes + b.varyings then .varying (i - b.attributes - 1)
    else .plain (i - (b.attributes + b.varyings + 1))
  | .fragment =>
    if i = 0 then .position
    else if i ≤ b.varyings then .varying (i - 1)
    else .plain (i - (b.varyings + 1))

def localType (b : Body) (i : Nat) : Except Fault Ty := Code.localType b.params b.top i

end Body

inductive BodyRef where
  | vertex
  | fragment
  | helper (index : Nat)
  deriving DecidableEq, Repr

def Program.body? (p : Program) : BodyRef → Option Body
  | .vertex => p.vertex.map (Body.ofVertex p)
  | .fragment => p.fragment.map (Body.ofFragment p)
  | .helper i => (p.func? i).map Body.ofFunc

end GameMedia.Shader
