import GameMedia.Shader.Check.Expr

/-!
# Declarations and assignments

A statement that stores several values evaluates all of them before it stores any: what is not constant goes through
a variable of its own.
-/

namespace GameMedia.Shader.Check

open Surface (BinaryOp Ident ValueSpec)

/-! ## Constants -/

def declaredConst (spec : ValueSpec) (e : Surface.Expr) (ty : Ty) (v : Value) (c : Constant) :
    Check Constant := do
  if !canDeclare ty v.ty c then fail spec.pos (.constDecl c.text ty)
  else if ty.tag = .int ∧ c.isIntegral ∧ !fitsInt c then fail e.pos (.constOverflow c)
  else
    let converted := match ty.tag with
      | .int => c.toInt?
      | .float => c.toFloat?
      | _ => some c
    match converted with
    | some c => return c
    | none => fail spec.pos (.constDecl e.text ty)

def constValue (e : Surface.Expr) : Check (Value × Constant) := do
  let (v, wrote) ← withoutStmts (value e)
  match v.constant?, wrote with
  | some c, false => return (v, c)
  | _, _ => fail e.pos (.notConstant e.text)

def namedConsts (spec : ValueSpec) (ty : Option Ty) : List (Ident × Surface.Expr) → Check (List NamedConst)
  | [] => pure []
  | (name, e) :: rest => do
    let (v, c) ← constValue e
    let named ← match ty with
      | some t => do pure ⟨name.name, t, ← declaredConst spec e t v c⟩
      | none => pure ⟨name.name, v.ty, c⟩
    let more ← namedConsts spec ty rest
    return if name.name = "_" then more else named :: more

def declaredType? : Option Surface.Expr → Check (Option Ty)
  | none => pure none
  | some e => some <$> typeOf e

def constSpec (spec : ValueSpec) : Check (List NamedConst) := do
  if spec.names.length ≠ spec.values.length then
    fail spec.pos (.valueCount spec.names.length spec.values.length)
  else namedConsts spec (← declaredType? spec.ty) (spec.names.zip spec.values)

/-! ## Values to store -/

abbrev Sourced : Type := Pos × Value

def sourcedValues : List Surface.Expr → Check (List Sourced)
  | [] => pure []
  | e :: es => do
    let v ← value e
    return (e.pos, v) :: (← sourcedValues es)

def valuesFor (pos : Pos) (n : Nat) (rhs : List Surface.Expr) : Check (List Sourced) := do
  if rhs.length = n then sourcedValues rhs
  else
    match rhs with
    | [e] =>
      let vs ← values e
      if vs.length = n then return vs.map fun v => (e.pos, v)
      else fail pos (.resultCount n e.text vs.length)
    | _ => fail pos (.valueCount n rhs.length)

def kept (several : Bool) (ty : Ty) (e : Code.Expr) : Check Code.Expr := do
  if several && e.constant?.isNone then
    let i ← temporary ty
    emit (.assign (.localVar i) e)
    return .localVar i
  else return e

/-! ## Variables -/

/-- Complains if the innermost scope has the name already. -/
def notRedeclared (pos : Pos) (name : String) : Check Unit := do
  if name ≠ "_" ∧ (← get).scope.declares name then fail pos (.redeclared name) else return ()

/-- A variable that is about to be declared: its type and what it starts as. -/
structure Fresh where
  name : Ident
  ty : Ty
  start : Option Code.Expr

/-- The variables of a declaration with a type and no values. -/
def freshZeros (ty : Ty) : List Ident → Check (List Fresh)
  | [] => pure []
  | n :: ns => do
    notRedeclared n.pos n.name
    return ⟨n, ty, none⟩ :: (← freshZeros ty ns)

/-- The variables of a declaration with values and perhaps a type. -/
def freshValues (ty : Option Ty) : List (Ident × Sourced) → Check (List Fresh)
  | [] => pure []
  | (n, pos, v) :: rest => do
    notRedeclared n.pos n.name
    let first ← match ty with
      | some t => do pure ⟨n, t, some (← ruled pos (settle v t .varDecl))⟩
      | none => do
        let v ← ruled pos (settleDefault v)
        pure ⟨n, v.ty, some v.expr⟩
    return first :: (← freshValues ty rest)

/-- Declares variables and gives the statements that set them. -/
def declareFresh (several : Bool) : List Fresh → Check (List Code.Stmt)
  | [] => pure []
  | f :: fs => do
    if f.name.name = "_" then declareFresh several fs
    else
      let start ← match f.start with
        | some e => some <$> kept several f.ty e
        | none => pure none
      let i ← declareLocal f.name.name f.ty f.name.pos
      let store := match start with
        | some e => Code.Stmt.assign (.localVar i) e
        | none => .init i
      return store :: (← declareFresh several fs)

/-- Declares the variables of a declaration. Their values see the names around them. -/
def varSpec (spec : ValueSpec) : Check Unit := do
  let ty ← declaredType? spec.ty
  if ty.any fun t => t.tag = .texture then fail spec.pos (.unsupported .textureVariables)
  else
    let fresh ← match spec.values, ty with
      | [], some t => freshZeros t spec.names
      | [], none =>
        match spec.names with
        | [] => pure []
        | n :: _ => do
          notRedeclared n.pos n.name
          fail spec.pos .missingTypeOrValue
      | rhs, ty => do freshValues ty (spec.names.zip (← valuesFor spec.pos spec.names.length rhs))
    emitAll (← declareFresh (1 < fresh.length) fresh)

def definedNames : List Surface.Expr → Check (List Ident)
  | [] => pure []
  | .ident pos name :: es => do return ⟨name, pos⟩ :: (← definedNames es)
  | e :: _ => fail e.pos (.nonName e.text)

/-- What a definition stores to: a new variable, or one that its own scope has already. -/
inductive Defined where
  | new (name : Ident) (ty : Ty) (e : Code.Expr)
  | old (index : Nat) (ty : Ty) (e : Code.Expr)

/-- The type of a variable of the innermost scope that a definition stores to. -/
def redefined (name : Ident) (i : Nat) : Check (Nat × Ty) := do
  let s := (← get).scope
  match s.vars[i]? with
  | none => return (s.base + i, .none)
  | some v =>
    modify fun st => { st with scope := st.scope.markUsed i }
    if v.role = .param true then fail name.pos (.entryArgument name.name) else return (s.base + i, v.ty)

def definedTargets : List (Ident × Sourced) → Check (List Defined)
  | [] => pure []
  | (name, pos, v) :: rest => do
    if name.name = "_" then definedTargets rest
    else
      let first ← match (← get).scope.findVar? name.name with
        | some i => do
          let (index, ty) ← redefined name i
          pure (.old index ty (← ruled pos (settle v ty .assignment)))
        | none => do
          notRedeclared name.pos name.name
          let v ← ruled pos (settleDefault v)
          pure (.new name v.ty v.expr)
      return first :: (← definedTargets rest)

/-- Declares what is new and gives the statements that store. -/
def declareDefined (several : Bool) : List Defined → Check (List Code.Stmt)
  | [] => pure []
  | .new name ty e :: ds => do
    let e ← kept several ty e
    let i ← declareLocal name.name ty name.pos
    return .assign (.localVar i) e :: (← declareDefined several ds)
  | .old index ty e :: ds => do
    let e ← kept several ty e
    return .assign (.localVar index) e :: (← declareDefined several ds)

def define (pos : Pos) (lhs rhs : List Surface.Expr) : Check Unit := do
  let names ← definedNames lhs
  let vs ← valuesFor pos names.length rhs
  let s := (← get).scope
  if names.all fun n => n.name = "_" || (s.findVar? n.name).isSome then fail pos .nothingNew
  else
    let targets ← definedTargets (names.zip vs)
    emitAll (← declareDefined (1 < names.length) targets)

/-! ## Assignments -/

/-- What a name on the left of an assignment means. Inputs of entry points, counters of loops, constants and uniforms
cannot be written. -/
def namedTarget (pos : Pos) (name : String) : Check Value := do
  match ← findLocal? name with
  | some (i, v) =>
    match v.role with
    | .param true => fail pos (.entryArgument name)
    | .counter => fail pos (.counterModified name)
    | _ => return .typed (.localVar i) v.ty
  | none =>
    if (← findConst? name).isSome then fail pos (.constAssigned name)
    else if ((← globals).uniformIndex? name).isSome then fail pos .uniformAssigned
    else
      let _ ← identValue pos name
      fail pos (.notAssignable name)

/-- What can be assigned to: a variable, or parts of one. -/
def target : Surface.Expr → Check Value
  | .paren _ e => target e
  | .ident pos name => namedTarget pos name
  | .index base i => do
    let b ← target base
    match elements? b.ty with
    | none => fail base.pos (.notIndexable b.ty)
    | some (elem, length) =>
      let v ← value i
      return .typed (.index b.expr (← ruled i.pos (position v length))) elem
  | .selector base name => do
    let b ← target base
    ruled base.pos (swizzle b name.name true)
  | e => fail e.pos (.notAssignable e.text)

/-- The targets and the values for them. A value for the blank name is only looked at. -/
def targets : List (Surface.Expr × Sourced) → Check (List (Value × Code.Expr))
  | [] => pure []
  | (l, pos, v) :: rest => do
    if l.name? = some "_" then
      let _ ← ruled pos (settleDefault v)
      targets rest
    else
      let t ← target l
      let e ← ruled pos (settle v t.ty .assignment)
      return (t, e) :: (← targets rest)

def stores (several : Bool) : List (Value × Code.Expr) → Check (List Code.Stmt)
  | [] => pure []
  | (t, e) :: rest => do
    let e ← kept several t.ty e
    return .assign t.expr e :: (← stores several rest)

def assign (pos : Pos) (lhs rhs : List Surface.Expr) : Check Unit := do
  let vs ← valuesFor pos lhs.length rhs
  let ts ← targets (lhs.zip vs)
  emitAll (← stores (1 < ts.length) ts)

def compound (pos : Pos) (op : BinaryOp) (lhs rhs : List Surface.Expr) : Check Unit := do
  match lhs, rhs with
  | [l], [r] =>
    let v ← value r
    let t ← target l
    let result ← ruled pos (binary op t v)
    let e ← ruled pos (settle result t.ty .assignment)
    emit (.assign t.expr e)
  | _, _ => fail pos (.compoundCount op)

/-- One more or one less. -/
def step (pos : Pos) (e : Surface.Expr) (up : Bool) : Check Unit := do
  let t ← target e
  if !t.ty.isNumeric then fail pos (.notNumeric e.text up t.ty)
  else
    let result ← ruled pos (binary (if up then .add else .sub) t (.const (.int 1)))
    emit (.assign t.expr result.expr)

end GameMedia.Shader.Check
