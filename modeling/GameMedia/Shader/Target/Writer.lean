import GameMedia.Shader.Body
import GameMedia.Shader.Target

/-!
# Writing code

The targets agree on blocks, assignments, loops, calls and operators. A `Dialect` holds what they do not agree
on, and the functions here write expressions and blocks for any dialect. Every operand is put in parentheses, so
the structure of an expression survives whatever the precedences of the target are.
-/

namespace GameMedia.Shader.Target

open Code

abbrev Emit := Except EmitError

structure Dialect where
  /-- A type as the text before and behind a declared name. -/
  typeParts : Ty → Emit (String × String)
  /-- An expression for the zero of a type. -/
  zeroValue : Ty → Emit String
  slotName : Slot → String
  builtinName : Builtin → String
  uniformName : Nat → String := fun i => s!"U{i}"
  binary : Op → String → String → String
  /-- Calls that are not written as a name with arguments. -/
  builtinCall : Builtin → List String → Option String
  /-- What every call of a helper passes before the arguments of the source. -/
  implicitArgs : List String := []
  returnLine : BodyKind → Option String → String
  discardLines : List String
  /-- Slots that need no zero because they have it already. -/
  startsAtZero : BodyKind → Slot → Bool := fun _ _ => false
  /-- Whether an array can be assigned as a whole. -/
  arraysAreValues : Bool := false

/-- The name of a type without element types. -/
def plainName (name : Tag → String) (t : Ty) : Emit String :=
  match t.tag with
  | .texture => .error (.unsupported .textureValues)
  | .struct => .error (.unsupported .structTypes)
  | .array => .error (.bareArray t)
  | tag => .ok (name tag)

/-- Lengths of arrays stand behind the name: `float x[4]`. -/
def suffixParts (name : Tag → String) : Ty → Emit (String × String)
  | .mk .array (t :: _) n => do
    let (before, behind) ← suffixParts name t
    return (before, s!"[{n}]" ++ behind)
  | t => do return (← plainName name t, "")

def plainBinary (op : Op) (l r : String) : String := "(" ++ l ++ ") " ++ op.text ++ " (" ++ r ++ ")"

def plainReturn : Option String → String
  | some v => "return " ++ v ++ ";"
  | none => "return;"

namespace Dialect

def varDecl (d : Dialect) (t : Ty) (name : String) : Emit String := do
  let (before, behind) ← d.typeParts t
  return before ++ " " ++ name ++ behind

/-- Sets a variable to zero and, with `declare`, declares it. Loop counters are left to their loops. -/
def initLines (d : Dialect) (name : String) (t : Ty) (declare : Bool) : Emit (List String) := do
  if t.isNone then return []
  if t.tag = .array ∧ !d.arraysAreValues then
    let some elem := t.elem? | throw (.arrayElement t)
    let zero ← d.zeroValue elem
    let decl ← if declare then do pure [(← d.varDecl t name) ++ ";"] else pure []
    return decl ++ (List.range t.length).map fun i => s!"{name}[{i}] = {zero};"
  let zero ← d.zeroValue t
  let target ← if declare then d.varDecl t name else pure name
  return [target ++ " = " ++ zero ++ ";"]

end Dialect

/-- `f(f(a, b), c)` for a function of two arguments given more. -/
def nestCalls (name : String) : List String → String
  | [] => name ++ "()"
  | a :: as => as.foldl (fun acc b => name ++ "(" ++ acc ++ ", " ++ b ++ ")") a

def plainCall (name : String) (args : List String) : String :=
  name ++ "(" ++ ", ".intercalate args ++ ")"

/-- The part of a loop head that moves the counter. A step that rounds to one is written as an increment. -/
def stepText (v : String) (step : Constant) : Emit String :=
  if step.sign = 0 then .error (.loopStep step)
  else if step.double? = some (Number.Binary64.nearest step.sign) then
    .ok (v ++ if 0 < step.sign then "++" else "--")
  else if 0 < step.sign then .ok (v ++ " += " ++ step.literal)
  else
    match step.unary? .sub with
    | some c => .ok (v ++ " -= " ++ c.literal)
    | none => .error (.loopStep step)

section Writer

variable (d : Dialect) (body : Body)

def localName (i : Nat) : String := d.slotName (body.slot i)

def callText (callee : Expr) (args : List String) : Emit String :=
  match callee with
  | .builtin f =>
    match d.builtinCall f args with
    | some s => .ok s
    | none =>
      if (f = .min ∨ f = .max) ∧ 2 < args.length then .ok (nestCalls (d.builtinName f) args)
      else .ok (plainCall (d.builtinName f) args)
  | .func i => .ok (plainCall s!"F{i}" (d.implicitArgs ++ args))
  | e => .error (.callee e)

mutual

def exprText : Expr → Emit String
  | .blank => .error .blankValue
  | .number c _ => .ok c.literal
  | .uniform i => .ok (d.uniformName i)
  | .texture i => .ok s!"T{i}"
  | .localVar i => .ok (localName d body i)
  | .member i => .ok s!"M{i}"
  | .builtin f => .ok (d.builtinName f)
  | .swizzle s => if isSwizzle s then .ok s else .error (.swizzle s)
  | .func i => .ok s!"F{i}"
  | .unary op e =>
    match op with
    | .add | .sub | .not => do return op.text ++ "(" ++ (← exprText e) ++ ")"
    | _ => .error (.unaryOperator op)
  | .binary op l r => do
    let l ← exprText l
    let r ← exprText r
    return d.binary op l r
  | .select c t f => do
    let c ← exprText c
    let t ← exprText t
    let f ← exprText f
    return "(" ++ c ++ ") ? (" ++ t ++ ") : (" ++ f ++ ")"
  | .call f args => do
    let args ← exprTexts args
    callText d f args
  | .field b n => do
    let b ← exprText b
    let n ← exprText n
    return "(" ++ b ++ ")." ++ n
  | .index b i => do
    let b ← exprText b
    let i ← exprText i
    return "(" ++ b ++ ")[" ++ i ++ "]"

def exprTexts : List Expr → Emit (List String)
  | [] => .ok []
  | e :: es => do
    let s ← exprText e
    return s :: (← exprTexts es)

end

/-- The type of local `i` where the innermost of the enclosing blocks that declares it stands; `chain` has the
innermost block first. -/
def localTypeIn (chain : List Block) (i : Nat) : Emit Ty :=
  match chain.find? fun b => b.declares i with
  | some b =>
    match b.vars[i - b.offset]? with
    | some t => .ok t
    | none => (body.localType i).mapError .fault
  | none => (body.localType i).mapError .fault

def tabs (n : Nat) : String := "".pushn '\t' n

def assignLines (level : Nat) (chain : List Block) (lhs rhs : Expr) : Emit (List String) := do
  let l ← exprText d body lhs
  let r ← exprText d body rhs
  let whole := [tabs level ++ l ++ " = " ++ r ++ ";"]
  match lhs with
  | .localVar i =>
    if d.arraysAreValues then return whole
    let t ← localTypeIn body chain i
    if t.tag = .array then
      return (List.range t.length).map fun k => tabs level ++ s!"{l}[{k}] = {r}[{k}];"
    return whole
  | _ => return whole

def initLines (level : Nat) (chain : List Block) (i : Nat) : Emit (List String) := do
  if d.startsAtZero body.kind (body.slot i) then return []
  let t ← localTypeIn body chain i
  let lines ← d.initLines (localName d body i) t false
  return lines.map (tabs level ++ ·)

def loopHead (c : Counter) : Emit String := do
  if !c.op.isComparison then throw (.loopOperator c.op)
  let v := localName d body c.index
  let step ← stepText v c.step
  let decl ← d.varDecl c.ty v
  return s!"for ({decl} = {c.start.literal}; {v} {c.op} {c.stop.literal}; {step}) \x7b"

def declLines (level : Nat) : Nat → List Ty → Emit (List String)
  | _, [] => .ok []
  | i, t :: ts => do
    let lines ← d.initLines (localName d body i) t true
    return lines.map (tabs level ++ ·) ++ (← declLines level (i + 1) ts)

mutual

def stmtLines (level : Nat) (chain : List Block) : Stmt → Emit (List String)
  | .expr e => do return [tabs level ++ (← exprText d body e) ++ ";"]
  | .block b => do
    let inner ← blockLines (level + 1) chain b
    return (tabs level ++ "\x7b") :: (inner ++ [tabs level ++ "\x7d"])
  | .assign l r => assignLines d body level chain l r
  | .init i => initLines d body level chain i
  | .branch c t none => do
    let c ← exprText d body c
    let inner ← blockLines (level + 1) chain t
    return (tabs level ++ "if (" ++ c ++ ") \x7b") :: (inner ++ [tabs level ++ "\x7d"])
  | .branch c t (some f) => do
    let c ← exprText d body c
    let inner ← blockLines (level + 1) chain t
    let other ← blockLines (level + 1) chain f
    return (tabs level ++ "if (" ++ c ++ ") \x7b") ::
      (inner ++ [tabs level ++ "\x7d else \x7b"] ++ other ++ [tabs level ++ "\x7d"])
  | .loop c b => do
    let head ← loopHead d body c
    let inner ← blockLines (level + 1) chain b
    return (tabs level ++ head) :: (inner ++ [tabs level ++ "\x7d"])
  | .next => .ok [tabs level ++ "continue;"]
  | .leave => .ok [tabs level ++ "break;"]
  | .ret none => .ok [tabs level ++ d.returnLine body.kind none]
  | .ret (some e) => do return [tabs level ++ d.returnLine body.kind (some (← exprText d body e))]
  | .discard => .ok (d.discardLines.map (tabs level ++ ·))

def blockLines (level : Nat) (chain : List Block) : Block → Emit (List String)
  | .mk vars offset stmts => do
    let decls ← declLines d body level offset vars
    return decls ++ (← stmtsLines level (.mk vars offset stmts :: chain) stmts)

def stmtsLines (level : Nat) (chain : List Block) : List Stmt → Emit (List String)
  | [] => .ok []
  | s :: ss => do
    let lines ← stmtLines level chain s
    return lines ++ (← stmtsLines level chain ss)

end

def bodyLines : Emit (List String) := blockLines d body 1 [] body.top

end Writer

/-! ## Files -/

/-- Drops newlines at the end of reversed text until at most one is left. -/
def dropBlankTail : List Char → List Char
  | '\n' :: '\n' :: cs => dropBlankTail ('\n' :: cs)
  | cs => cs

/-- Lines one under another, a run of empty ones as one and none at the start. -/
def stackLines (afterBlank : Bool) : List String → String
  | [] => ""
  | l :: ls =>
    if l.isEmpty then (if afterBlank then "" else "\n") ++ stackLines true ls
    else l ++ "\n" ++ stackLines false ls

/-- The text of a file: no blank line at either end and never two together. -/
def joinLines (lines : List String) : String :=
  String.ofList (dropBlankTail (stackLines true lines).toList.reverse).reverse

def nonEmpty (b : Option Block) : Option Block := b.filter fun b => !b.stmts.isEmpty

def paramDecls (d : Dialect) (word : String) (i : Nat) : List Ty → Emit (List String)
  | [] => .ok []
  | t :: ts => do
    let decl ← d.varDecl t s!"l{i}"
    return (word ++ decl) :: (← paramDecls d word (i + 1) ts)

def numberedDecls (d : Dialect) (frame : Nat → String → String) (letter : String) (i : Nat) :
    List Ty → Emit (List String)
  | [] => .ok []
  | t :: ts => do
    let decl ← d.varDecl t s!"{letter}{i}"
    return frame i decl :: (← numberedDecls d frame letter (i + 1) ts)

def inOutSignature (d : Dialect) (f : Func) : Emit String := do
  let ins ← paramDecls d "in " 0 f.ins
  let outs ← paramDecls d "out " f.ins.length f.outs
  let args := if (ins ++ outs).isEmpty then "void" else ", ".intercalate (ins ++ outs)
  let (before, behind) ← d.typeParts f.result
  return before ++ behind ++ s!" F{f.index}(" ++ args ++ ")"

def eachFunc (write : Func → Emit (List String)) : List Func → Emit (List String)
  | [] => .ok []
  | f :: fs => do
    let lines ← write f
    return lines ++ (← eachFunc write fs)

def funcLines (d : Dialect) (signature : Func → Emit String) (fs : List Func) : Emit (List String) := do
  if fs.isEmpty then return []
  let prototypes ← eachFunc (fun f => do return [(← signature f) ++ ";"]) fs
  let definitions ← eachFunc (fun f => do
    let head ← signature f
    let lines ← bodyLines d (Body.ofFunc f)
    return "" :: (head ++ " \x7b") :: (lines ++ ["\x7d"])) fs
  return "" :: (prototypes ++ definitions)

end GameMedia.Shader.Target
