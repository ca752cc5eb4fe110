import GameMedia.Shader.Source

/-!
# Surface syntax trees

What a source file says before anything is checked. The tree also has the forms that shaders may not use
(channels, closures, maps and the like), so that a checker can name them.
-/

namespace GameMedia.Shader.Surface

structure Ident where
  name : String
  pos : Pos
  deriving DecidableEq, Repr, Inhabited

inductive UnaryOp where
  | plus
  | neg
  | not
  | bitNot
  | deref
  | address
  | receive
  deriving DecidableEq, Repr, Inhabited

def UnaryOp.text : UnaryOp → String
  | plus => "+"
  | neg => "-"
  | not => "!"
  | bitNot => "^"
  | deref => "*"
  | address => "&"
  | receive => "<-"

inductive BinaryOp where
  | add
  | sub
  | mul
  | quo
  | rem
  | and
  | or
  | xor
  | shl
  | shr
  | andNot
  | logicalAnd
  | logicalOr
  | eq
  | ne
  | lt
  | le
  | gt
  | ge
  deriving DecidableEq, Repr, Inhabited

namespace BinaryOp

/-- A higher number binds tighter. -/
def precedence : BinaryOp → Nat
  | logicalOr => 1
  | logicalAnd => 2
  | eq | ne | lt | le | gt | ge => 3
  | add | sub | or | xor => 4
  | mul | quo | rem | shl | shr | and | andNot => 5

def text : BinaryOp → String
  | add => "+"
  | sub => "-"
  | mul => "*"
  | quo => "/"
  | rem => "%"
  | and => "&"
  | or => "|"
  | xor => "^"
  | shl => "<<"
  | shr => ">>"
  | andNot => "&^"
  | logicalAnd => "&&"
  | logicalOr => "||"
  | eq => "=="
  | ne => "!="
  | lt => "<"
  | le => "<="
  | gt => ">"
  | ge => ">="

end BinaryOp

inductive LiteralKind where
  | int
  | float
  | imag
  | char
  | string
  deriving DecidableEq, Repr, Inhabited

mutual

/-- An expression or a type. Those without a position of their own stand where their first part does. -/
inductive Expr where
  | ident (pos : Pos) (name : String)
  | literal (pos : Pos) (kind : LiteralKind) (text : String)
  | composite (ty : Expr) (elems : List Expr)
  | paren (pos : Pos) (e : Expr)
  | selector (base : Expr) (name : Ident)
  | index (base i : Expr)
  | slice (base : Expr)
  | typeAssert (base : Expr)
  | call (callee : Expr) (args : List Expr) (spread : Bool)
  | unary (pos : Pos) (op : UnaryOp) (e : Expr)
  | binary (op : BinaryOp) (l r : Expr)
  | keyValue (key value : Expr)
  /-- An array type without a length takes it from the elements that follow. -/
  | arrayType (pos : Pos) (length : Option Expr) (elem : Expr)
  | sliceType (pos : Pos) (elem : Expr)
  | structType (pos : Pos) (fields : List Field)
  | funcType (pos : Pos)
  | funcLit (pos : Pos)
  | mapType (pos : Pos)
  | chanType (pos : Pos)
  | interfaceType (pos : Pos)

/-- Names that share a type. A parameter or result may have none. -/
inductive Field where
  | mk (names : List Ident) (ty : Expr)

end

instance : Inhabited Expr := ⟨.ident default ""⟩

namespace Field

def names : Field → List Ident
  | mk names _ => names

def ty : Field → Expr
  | mk _ ty => ty

end Field

namespace Expr

def pos : Expr → Pos
  | ident pos _ | literal pos _ _ | paren pos _ | unary pos _ _ | arrayType pos _ _ | sliceType pos _
  | structType pos _ | funcType pos | funcLit pos | mapType pos | chanType pos | interfaceType pos => pos
  | composite e _ | selector e _ | index e _ | slice e | typeAssert e | call e _ _ | binary _ e _
  | keyValue e _ => e.pos

def name? : Expr → Option String
  | ident _ name => some name
  | paren _ e => e.name?
  | _ => none

mutual

/-- The expression as error messages show it, with its longer parts left out. -/
def text : Expr → String
  | ident _ s | literal _ _ s => s
  | composite ty _ => ty.text ++ "\x7b…\x7d"
  | paren _ e => "(" ++ e.text ++ ")"
  | selector e name => e.text ++ "." ++ name.name
  | index e i => e.text ++ "[" ++ i.text ++ "]"
  | slice e => e.text ++ "[:]"
  | typeAssert e => e.text ++ ".(…)"
  | call f args _ => f.text ++ "(" ++ ", ".intercalate (texts args) ++ ")"
  | unary _ op e => op.text ++ e.text
  | binary op l r => l.text ++ " " ++ op.text ++ " " ++ r.text
  | keyValue k v => k.text ++ ": " ++ v.text
  | arrayType _ (some n) elem => "[" ++ n.text ++ "]" ++ elem.text
  | arrayType _ none elem => "[...]" ++ elem.text
  | sliceType _ elem => "[]" ++ elem.text
  | structType _ _ => "struct\x7b…\x7d"
  | funcType _ => "func(…)"
  | funcLit _ => "func literal"
  | mapType _ => "map[…]…"
  | chanType _ => "chan …"
  | interfaceType _ => "interface\x7b…\x7d"

def texts : List Expr → List String
  | [] => []
  | e :: es => e.text :: texts es

end

end Expr

/-! ## Declarations -/

inductive GroupKind where
  | imports
  | const
  | type
  | var
  deriving DecidableEq, Repr, Inhabited

structure ValueSpec where
  pos : Pos
  names : List Ident
  ty : Option Expr
  values : List Expr

structure TypeSpec where
  pos : Pos
  name : Ident
  ty : Expr

inductive Spec where
  | path (pos : Pos)
  | value (s : ValueSpec)
  | type (s : TypeSpec)

/-- Declarations under one keyword. -/
structure Group where
  kind : GroupKind
  pos : Pos
  specs : List Spec

/-! ## Statements -/

inductive AssignOp where
  | assign
  | define
  | compound (op : BinaryOp)
  deriving DecidableEq, Repr, Inhabited

def AssignOp.text : AssignOp → String
  | assign => "="
  | define => ":="
  | compound op => op.text ++ "="

inductive BranchKind where
  | leave
  | next
  | goto
  | fallthrough
  deriving DecidableEq, Repr, Inhabited

def BranchKind.text : BranchKind → String
  | leave => "break"
  | next => "continue"
  | goto => "goto"
  | fallthrough => "fallthrough"

mutual

inductive Stmt where
  | empty (pos : Pos)
  | decl (g : Group)
  | assign (pos : Pos) (lhs : List Expr) (op : AssignOp) (rhs : List Expr)
  /-- One more, or one less. -/
  | step (pos : Pos) (target : Expr) (up : Bool)
  | expr (pos : Pos) (e : Expr)
  | block (b : Block)
  | cond (pos : Pos) (init : Option Stmt) (test : Expr) (body : Block) (other : Option Stmt)
  | loop (pos : Pos) (init : Option Stmt) (test : Option Expr) (post : Option Stmt) (body : Block)
  | range (pos : Pos) (body : Block)
  | ret (pos : Pos) (values : List Expr)
  | branch (pos : Pos) (kind : BranchKind) (label : Option Ident)
  | labeled (label : Ident) (s : Stmt)
  | spawn (pos : Pos) (e : Expr)
  | defer (pos : Pos) (e : Expr)
  | send (pos : Pos)
  | switch (pos : Pos)
  | select (pos : Pos)

inductive Block where
  | mk (pos : Pos) (stmts : List Stmt)

end

instance : Inhabited Block := ⟨.mk default []⟩

namespace Block

def pos : Block → Pos
  | mk pos _ => pos

def stmts : Block → List Stmt
  | mk _ stmts => stmts

end Block

namespace Stmt

def pos : Stmt → Pos
  | empty pos | assign pos _ _ _ | step pos _ _ | expr pos _ | cond pos _ _ _ _ | loop pos _ _ _ _ | range pos _
  | ret pos _ | branch pos _ _ | spawn pos _ | defer pos _ | send pos | switch pos | select pos => pos
  | decl g => g.pos
  | block b => b.pos
  | labeled label _ => label.pos

def isEmpty : Stmt → Bool
  | empty _ => true
  | _ => false

end Stmt

/-! ## Files -/

structure FuncDecl where
  pos : Pos
  name : Ident
  hasReceiver : Bool
  params : List Field
  results : List Field
  body : Option Block

inductive Decl where
  | group (g : Group)
  | func (f : FuncDecl)

structure File where
  package : Ident
  decls : List Decl

end GameMedia.Shader.Surface
