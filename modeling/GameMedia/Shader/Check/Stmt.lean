import GameMedia.Shader.Check.Assign

/-!
# Statements

Loops count: the header gives a constant start, a constant limit and a constant step, and the loop is refused unless
these bring it to an end.
-/

namespace GameMedia.Shader.Check

open Surface (BinaryOp Group Spec)

/-! ## Declarations -/

def declareConsts (pos : Pos) : List NamedConst → Check Unit
  | [] => pure ()
  | c :: cs => do
    notRedeclared pos c.name
    declareConst c
    declareConsts pos cs

def localSpec : Surface.GroupKind → Spec → Check Unit
  | .const, .value s => do declareConsts s.pos (← constSpec s)
  | .type, .type s => do
    let t ← typeOf s.ty
    notRedeclared s.name.pos s.name.name
    declareType s.name.name t
  | .var, .value s => varSpec s
  | _, _ => pure ()

def localSpecs (kind : Surface.GroupKind) : List Spec → Check Unit
  | [] => pure ()
  | s :: ss => do
    localSpec kind s
    localSpecs kind ss

def localDecl (g : Group) : Check Unit :=
  if g.kind = .imports then fail g.pos .importForbidden else localSpecs g.kind g.specs

/-! ## Calls as statements -/

def stripParens : Surface.Expr → Surface.Expr
  | .paren _ e => stripParens e
  | e => e

/-- Whether a call has to be more than a statement: that of a built-in function other than `discard`. -/
def needsUse (callee : Surface.Expr) : Check Bool := do
  match callee.name? with
  | none => return false
  | some name =>
    if ((← globals).funcIndex? name).isSome then return false
    else return (← builtinNamed? name).any fun f => f ≠ .discard

def exprStmt (e : Surface.Expr) : Check Unit := do
  match stripParens e with
  | .call callee args spread =>
    if ← needsUse callee then fail e.pos (.notUsed e.text)
    else
      match ← values (.call callee args spread) with
      | [.typed (.call f as) _] => emit (.expr (.call f as))
      | _ => return ()
  | _ => fail e.pos (.notUsed e.text)

/-! ## Results -/

def returnedValues (pos : Pos) (n : Nat) (es : List Surface.Expr) : Check (List Sourced) := do
  if es.length = n then sourcedValues es
  else
    match es with
    | [e] =>
      let vs ← values e
      if vs.length < n then fail pos .fewResults
      else if n < vs.length then fail pos .manyResults
      else return vs.map fun v => (e.pos, v)
    | es => if es.length < n then fail pos .fewResults else fail pos .manyResults

def outputStores (i : Nat) : List (Sourced × Ty) → Check (List (Value × Code.Expr))
  | [] => pure []
  | ((pos, v), ty) :: rest => do
    let e ← ruled pos (settle v ty .returnStmt)
    return (.typed (.localVar i) ty, e) :: (← outputStores (i + 1) rest)

def returnStmt (pos : Pos) (es : List Surface.Expr) : Check Unit := do
  let f ← frame
  if !f.result.isNone then
    match es with
    | [e] =>
      let v ← value e
      emit (.ret (some (← ruled e.pos (settle v f.result .returnStmt))))
    | [] => fail pos .fewResults
    | _ => fail pos .manyResults
  else if es.isEmpty then
    if !f.outs.isEmpty ∧ !f.namedOuts then fail pos .fewResults else emit (.ret none)
  else if f.outs.isEmpty then fail pos .manyResults
  else
    let vs ← returnedValues pos f.outs.length es
    let ts ← outputStores f.inCount (vs.zip f.outs)
    emitAll (← stores (1 < ts.length) ts)
    emit (.ret none)

/-! ## Loops -/

def terminates (op : Op) (start stop step : Constant) : Bool :=
  match op with
  | .lt | .le => 0 < step.sign
  | .gt | .ge => step.sign < 0
  | .eq => step.sign ≠ 0
  | .ne =>
    match start.number?, stop.number?, step.number? with
    | some a, some b, some d => d ≠ 0 && ((b - a) / d).den = 1 && 0 < (b - a) / d
    | _, _, _ => false
  | _ => false

def loopConstant (e : Surface.Expr) (ty : Option Ty) : Check (Constant × Ty) := do
  let (v, wrote) ← withoutStmts (value e)
  match v.constant?, wrote with
  | some c, false =>
    let t := ty.getD (if v.ty.isNone then defaultType c else v.ty)
    if !v.ty.isNone ∧ v.ty ≠ t then fail e.pos .loopFormat
    else if t ≠ .int ∧ t ≠ .float then fail e.pos .loopFormat
    else
      match convert? c t with
      | some c => return (c, t)
      | none => fail e.pos .loopFormat
  | _, _ => fail e.pos .loopFormat

def loopStart? : Option Surface.Stmt → Option (String × Pos × Surface.Expr)
  | some (.assign _ [l] .define [r]) =>
    match l.name? with
    | some name => if name = "_" then none else some (name, l.pos, r)
    | none => none
  | _ => none

def loopOp? : BinaryOp → Option Op
  | .lt => some .lt
  | .le => some .le
  | .gt => some .gt
  | .ge => some .ge
  | .eq => some .eq
  | .ne => some .ne
  | _ => none

def loopLimit? (name : String) : Surface.Expr → Option (Op × Surface.Expr)
  | .binary op l r => do
    let code ← loopOp? op
    if l.name? = some name then some (code, r) else none
  | _ => none

def loopStep? (name : String) : Surface.Stmt → Option (Bool × Option Surface.Expr)
  | .step _ e up => if e.name? = some name then some (!up, none) else none
  | .assign _ [l] (.compound op) [r] =>
    if l.name? = some name ∧ (op = .add ∨ op = .sub) then some (op = .sub, some r) else none
  | .assign _ [l] .assign [r] =>
    match stripParens r with
    | .binary op a b =>
      if l.name? = some name ∧ (op = .add ∨ op = .sub) ∧ a.name? = some name then some (op = .sub, some b)
      else none
    | _ => none
  | _ => none

/-- The distance that a counter moves. -/
def loopDelta (ty : Ty) (down : Bool) (c : Constant) : Constant :=
  let c := (convert? c ty).getD c
  if down then (c.unary? .sub).getD c else c

def loopHeader (pos : Pos) (init : Option Surface.Stmt) (test : Option Surface.Expr) (post : Option Surface.Stmt) :
    Check (String × Pos × Code.Counter) := do
  match loopStart? init with
  | none => fail pos .loopFormat
  | some (name, namePos, first) =>
    let (start, ty) ← loopConstant first none
    match test.map stripParens with
    | none => fail pos .loopFormat
    | some cond =>
      match loopLimit? name cond with
      | none => fail cond.pos .loopFormat
      | some (op, limit) =>
        let (stop, _) ← loopConstant limit (some ty)
        match post with
        | none => fail pos .loopFormat
        | some s =>
          match loopStep? name s with
          | none => fail s.pos .loopFormat
          | some (down, e) =>
            let c ← match e with
              | some e => do pure (← loopConstant e (some ty)).1
              | none => pure (.int 1)
            let step := loopDelta ty down c
            if terminates op start stop step then return (name, namePos, ⟨ty, 0, start, stop, op, step⟩)
            else fail pos .endlessLoop

/-! ## The rules -/

def branchStmt (pos : Pos) (inLoop : Bool) (label : Option Surface.Ident) (kind : Surface.BranchKind) : Check Unit :=
  if label.isSome then fail pos (.unsupported .labels)
  else
    match kind with
    | .leave => if inLoop then emit .leave else fail pos (.outsideLoop kind.text)
    | .next => if inLoop then emit .next else fail pos (.outsideLoop kind.text)
    | .goto => fail pos (.unsupported .goto)
    | .fallthrough => fail pos (.unsupported .fallthrough)

def assignStmt (pos : Pos) (lhs rhs : List Surface.Expr) : Surface.AssignOp → Check Unit
  | .define => define pos lhs rhs
  | .assign => assign pos lhs rhs
  | .compound op => compound pos op lhs rhs

mutual

def stmt (inLoop : Bool) : Surface.Stmt → Check Unit
  | .empty _ => pure ()
  | .decl g => localDecl g
  | .assign pos lhs op rhs => assignStmt pos lhs rhs op
  | .step pos e up => step pos e up
  | .expr _ e => exprStmt e
  | .block (.mk _ ss) => do emit (.block (← block (stmts inLoop ss)))
  | .cond _ init test (.mk _ body) other => do
    let branches : Check Unit := do
      let c ← value test
      if c.ty ≠ .bool then fail test.pos (.conditionType c.ty)
      else
        let onTrue ← block (stmts inLoop body)
        let onFalse ← match other with
          | none => pure none
          | some (.block (.mk _ ss)) => some <$> block (stmts inLoop ss)
          | some s => some <$> block (stmt inLoop s)
        emit (.branch c.expr onTrue onFalse)
    match init with
    | none => branches
    | some s =>
      let b ← block do
        stmt inLoop s
        branches
      emit (.block b)
  | .loop pos init test post (.mk _ body) => do
    let (name, namePos, counter) ← loopHeader pos init test post
    let (s, out) ← inScope do
      let index ← declare ⟨name, counter.ty, namePos, .counter⟩
      let b ← block (stmts true body)
      emit (.loop { counter with index } b)
    emit (.block (.mk s.localTypes s.base out))
  | .range pos _ => fail pos (.unsupported .rangeStmts)
  | .ret pos es => returnStmt pos es
  | .branch pos kind label => branchStmt pos inLoop label kind
  | .labeled label _ => fail label.pos (.unsupported .labels)
  | .spawn pos _ => fail pos (.unsupported .goStmts)
  | .defer pos _ => fail pos (.unsupported .deferStmts)
  | .send pos => fail pos (.unsupported .channelSends)
  | .switch pos => fail pos (.unsupported .switchStmts)
  | .select pos => fail pos (.unsupported .selectStmts)

def stmts (inLoop : Bool) : List Surface.Stmt → Check Unit
  | [] => pure ()
  | s :: ss => do
    stmt inLoop s
    stmts inLoop ss

end

end GameMedia.Shader.Check
