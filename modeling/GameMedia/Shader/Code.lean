import GameMedia.Shader.Builtin
import GameMedia.Shader.Constant.Literal
import GameMedia.Shader.Ty

/-!
# Checked code

The tree that the checker produces and the targets write: expressions over numbered variables, statements, and
blocks that declare a run of consecutive local variables. A tree may also come from outside unchecked, so it can
hold combinations that no checked source gives.
-/

namespace GameMedia.Shader.Code

/-- What a number was written for. -/
inductive Hint where
  | none
  | bool
  | int
  | float
  deriving DecidableEq, Repr, Inhabited

inductive Expr where
  /-- The blank name on the left of an assignment. -/
  | blank
  | number (value : Constant) (hint : Hint)
  | uniform (index : Nat)
  | texture (index : Nat)
  | localVar (index : Nat)
  | member (index : Nat)
  | builtin (f : Builtin)
  /-- The component letters behind a point. -/
  | swizzle (letters : String)
  /-- A function of the program, by its number. -/
  | func (index : Nat)
  | unary (op : Op) (operand : Expr)
  | binary (op : Op) (lhs rhs : Expr)
  | select (cond onTrue onFalse : Expr)
  | call (callee : Expr) (args : List Expr)
  | field (base name : Expr)
  | index (base position : Expr)
  deriving Inhabited

namespace Expr

def constant? : Expr → Option Constant
  | number c _ => some c
  | _ => Option.none

def untyped (c : Constant) : Expr := number c .none

/-- A number whose hint is its own kind. -/
def typed (c : Constant) : Expr :=
  number c <|
    match c.kind with
    | .bool => .bool
    | .int => .int
    | .float => .float

mutual

def nodes : Expr → List Expr
  | unary op e => unary op e :: nodes e
  | binary op l r => binary op l r :: (nodes l ++ nodes r)
  | select c t f => select c t f :: (nodes c ++ nodes t ++ nodes f)
  | call f args => call f args :: (nodes f ++ nodesAll args)
  | field b n => field b n :: (nodes b ++ nodes n)
  | index b i => index b i :: (nodes b ++ nodes i)
  | e => [e]

def nodesAll : List Expr → List Expr
  | [] => []
  | e :: es => nodes e ++ nodesAll es

end

mutual

def text : Expr → String
  | blank => "_"
  | number c _ => c.text
  | uniform i => s!"U{i}"
  | texture i => s!"T{i}"
  | localVar i => s!"l{i}"
  | member i => s!"M{i}"
  | builtin f => f.name
  | swizzle s => s
  | func i => s!"F{i}"
  | unary op e => op.text ++ "(" ++ text e ++ ")"
  | binary op l r => "(" ++ text l ++ " " ++ op.text ++ " " ++ text r ++ ")"
  | select c t f => "(" ++ text c ++ " ? " ++ text t ++ " : " ++ text f ++ ")"
  | call f args => text f ++ "(" ++ ", ".intercalate (texts args) ++ ")"
  | field b n => text b ++ "." ++ text n
  | index b i => text b ++ "[" ++ text i ++ "]"

def texts : List Expr → List String
  | [] => []
  | e :: es => text e :: texts es

end

end Expr

/-- The head of a counted loop: a counter that starts at `start`, runs while `op` holds against `stop`, and moves
by `step`. -/
structure Counter where
  ty : Ty
  index : Nat
  start : Constant
  stop : Constant
  op : Op
  step : Constant
  deriving Inhabited

mutual

inductive Stmt where
  | expr (e : Expr)
  | block (b : Block)
  | assign (lhs rhs : Expr)
  /-- Sets the variable to zero. -/
  | init (index : Nat)
  | branch (cond : Expr) (onTrue : Block) (onFalse : Option Block)
  | loop (counter : Counter) (body : Block)
  | next
  | leave
  | ret (value : Option Expr)
  | discard

/-- `vars` are the types of the variables the block declares, numbered from `offset`. The slot of a loop counter
has no type, because the head of its loop declares it. -/
inductive Block where
  | mk (vars : List Ty) (offset : Nat) (stmts : List Stmt)

end

instance : Inhabited Block := ⟨.mk [] 0 []⟩
instance : Inhabited Stmt := ⟨.discard⟩

namespace Block

def vars : Block → List Ty
  | mk vs _ _ => vs

def offset : Block → Nat
  | mk _ n _ => n

def stmts : Block → List Stmt
  | mk _ _ ss => ss

def declares (b : Block) (i : Nat) : Bool := b.offset ≤ i && i < b.offset + b.vars.length

end Block

/-! ## Walking a tree -/

mutual

def Stmt.nodes : Stmt → List Expr
  | .expr e => e.nodes
  | .block b => Block.nodes b
  | .assign l r => l.nodes ++ r.nodes
  | .branch c t none => c.nodes ++ Block.nodes t
  | .branch c t (some f) => c.nodes ++ Block.nodes t ++ Block.nodes f
  | .loop _ b => Block.nodes b
  | .ret (some e) => e.nodes
  | .init _ | .next | .leave | .ret none | .discard => []

def Block.nodes : Block → List Expr
  | .mk _ _ ss => stmtNodes ss

def stmtNodes : List Stmt → List Expr
  | [] => []
  | s :: ss => s.nodes ++ stmtNodes ss

end

mutual

/-- Whether a statement returns, itself or somewhere inside. -/
def Stmt.returns : Stmt → Bool
  | .ret _ => true
  | .block b => Block.returns b
  | .branch _ t none => Block.returns t
  | .branch _ t (some f) => Block.returns t || Block.returns f
  | .loop _ b => Block.returns b
  | .expr _ | .assign _ _ | .init _ | .next | .leave | .discard => false

def Block.returns : Block → Bool
  | .mk _ _ ss => stmtsReturn ss

def stmtsReturn : List Stmt → Bool
  | [] => false
  | s :: ss => s.returns || stmtsReturn ss

end

/-! ## Local variables -/

mutual

/-- The type of the variable where the statement or a block inside declares it first. -/
def Stmt.findLocal? (i : Nat) : Stmt → Option Ty
  | .block b => Block.findLocal? i b
  | .branch _ t none => Block.findLocal? i t
  | .branch _ t (some f) => (Block.findLocal? i t).or (Block.findLocal? i f)
  | .loop c b => if c.index = i then some c.ty else Block.findLocal? i b
  | .expr _ | .assign _ _ | .init _ | .next | .leave | .ret _ | .discard => none

def Block.findLocal? (i : Nat) : Block → Option Ty
  | .mk vars offset ss =>
    if offset ≤ i ∧ i < offset + vars.length then vars[i - offset]? else findLocalIn? i ss

def findLocalIn? (i : Nat) : List Stmt → Option Ty
  | [] => none
  | s :: ss => (s.findLocal? i).or (findLocalIn? i ss)

end

mutual

/-- The variables that blocks under the statement declare. -/
def Stmt.localCount : Stmt → Nat
  | .block b => Block.localCount b
  | .branch _ t none => Block.localCount t
  | .branch _ t (some f) => Block.localCount t + Block.localCount f
  | .loop _ b => Block.localCount b
  | .expr _ | .assign _ _ | .init _ | .next | .leave | .ret _ | .discard => 0

def Block.localCount : Block → Nat
  | .mk vars _ ss => vars.length + localCountIn ss

def localCountIn : List Stmt → Nat
  | [] => 0
  | s :: ss => s.localCount + localCountIn ss

end

def localType (params : List Ty) (top : Block) (i : Nat) : Except Fault Ty :=
  match params[i]?.or (top.findLocal? i) with
  | some t => .ok t
  | none => .error (.localIndex i (params.length + top.localCount))

/-! ## Text -/

def indent (level : Nat) : String := "".pushn ' ' (2 * level)

/-- The declarations of a block, loop counters left out. -/
def declLines (level : Nat) : Nat → List Ty → List String
  | _, [] => []
  | i, t :: ts =>
    (if t.isNone then [] else [indent level ++ s!"var l{i} " ++ t.text]) ++ declLines level (i + 1) ts

def Counter.text (c : Counter) : String :=
  s!"for l{c.index} {c.ty} := {c.start}; l{c.index} {c.op} {c.stop}; l{c.index} += {c.step} \x7b"

mutual

def Stmt.lines (level : Nat) : Stmt → List String
  | .expr e => [indent level ++ e.text]
  | .block b => (indent level ++ "\x7b") :: (Block.lines (level + 1) b ++ [indent level ++ "\x7d"])
  | .assign l r => [indent level ++ l.text ++ " = " ++ r.text]
  | .init i => [indent level ++ s!"init l{i}"]
  | .branch c t none =>
    (indent level ++ "if " ++ c.text ++ " \x7b") :: (Block.lines (level + 1) t ++ [indent level ++ "\x7d"])
  | .branch c t (some f) =>
    (indent level ++ "if " ++ c.text ++ " \x7b") ::
      (Block.lines (level + 1) t ++ [indent level ++ "\x7d else \x7b"] ++ Block.lines (level + 1) f
        ++ [indent level ++ "\x7d"])
  | .loop c b => (indent level ++ c.text) :: (Block.lines (level + 1) b ++ [indent level ++ "\x7d"])
  | .next => [indent level ++ "continue"]
  | .leave => [indent level ++ "break"]
  | .ret (some e) => [indent level ++ "return " ++ e.text]
  | .ret none => [indent level ++ "return"]
  | .discard => [indent level ++ "discard"]

def Block.lines (level : Nat) : Block → List String
  | .mk vars offset ss => declLines level offset vars ++ stmtLines level ss

def stmtLines (level : Nat) : List Stmt → List String
  | [] => []
  | s :: ss => s.lines level ++ stmtLines level ss

end

end GameMedia.Shader.Code
