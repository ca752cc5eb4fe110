import GameMedia.Shader.Check.Builtin
import GameMedia.Shader.Check.Context

/-!
# Expressions and types

An expression has one value, or as many as the function it calls has results. What has to run before, such as a call
with several results or the elements of an array, is written as statements. Types are checked together with
expressions, because the length of an array is one.
-/

namespace GameMedia.Shader.Check

open Surface (Ident)

def expectOne (e : Surface.Expr) : List Value → Check Value
  | [v] => pure v
  | [] => fail e.pos (.noValue e.text)
  | _ => fail e.pos (.manyValues e.text)

/-! ## Names -/

/-- What a name means that is no local variable or constant. -/
def globalValue (g : Globals) (name : String) : Except Complaint Value :=
  if g.declaresFunc name then .error (.notCalled name)
  else
    match g.uniforms.findIdx? (fun u => u.1 == name), g.uniforms.lookup name with
    | some i, some ty => .ok (.typed (.uniform i) ty)
    | _, _ =>
      if (Builtin.ofSource? name).isSome then .error (.builtinNotCalled name)
      else
        match g.textureIndex? name with
        | some i => .ok (.typed (.texture i) .texture)
        | none =>
          if name = "true" then .ok (.ofBool true)
          else if name = "false" then .ok (.ofBool false)
          else .error (.unexpectedIdent name)

def identValue (pos : Pos) (name : String) : Check Value := do
  if name = "_" then fail pos .blankValue
  else
    match ← findLocal? name with
    | some (i, v) => return .typed (.localVar i) v.ty
    | none =>
      match ← findConst? name with
      | some c => return .ofConstant c.value c.ty
      | none => ruled pos (globalValue (← globals) name)

/-! ## Calls -/

def argumentFor (ins : List Param) (i : Nat) (pos : Pos) (v : Value) : Check Value :=
  match ins[i]? with
  | some p => do return .typed (← ruled pos (settle v p.ty .argument)) p.ty
  | none => pure v

def outputs : List Param → Check (List Value)
  | [] => pure []
  | p :: ps => do
    let i ← temporary p.ty
    return .typed (.localVar i) p.ty :: (← outputs ps)

/-- The values of a call of a helper function. One with several results, or an array, runs as a statement that writes
them to variables. -/
def callFunc (pos : Pos) (index : Nat) (sig : Signature) (args : List Value) : Check (List Value) := do
  if !sig.result.isNone then
    if !sig.outs.isEmpty then fail pos (.resultAndOutputs sig.name)
    else return [.typed (.call (.func index) (args.map Value.expr)) sig.result]
  else
    let results ← outputs sig.outs
    emit (.expr (.call (.func index) ((args ++ results).map Value.expr)))
    return results

/-- Discarding a fragment, which only the fragment entry point may do. -/
def discard (pos : Pos) (argCount : Nat) : Check (List Value) := do
  ruled pos (expectArity .discard 0 argCount)
  if (← frame).kind = .fragment then
    emit .discard
    return []
  else fail pos (.fragmentOnly Builtin.discard.name (← globals).options.fragmentEntry)

def frontFacing (pos : Pos) (argCount : Nat) : Check (List Value) := do
  ruled pos (expectArity .frontFacing 0 argCount)
  if (← frame).kind = .fragment then return [callBuiltin .frontFacing [] .bool]
  else fail pos (.fragmentOnly Builtin.frontFacing.name (← globals).options.fragmentEntry)

inductive Callee where
  | helper (index : Nat) (sig : Signature)
  | builtin (f : Builtin)

def calleeNamed (pos : Pos) (name : String) : Check Callee := do
  let g ← globals
  let hidden := (← get).declares name
  match g.funcIndex? name, g.funcs.find? (fun f => f.name == name), hidden with
  | some i, some sig, false => return .helper i sig
  | _, _, _ =>
    if g.isEntry name then fail pos (.entryCalled name)
    else
      match ← builtinNamed? name with
      | some f => return .builtin f
      | none =>
        let _ ← identValue pos name
        fail pos (.notFunction name)

/-! ## Arrays -/

def storeElements (array : Nat) (i : Nat) : List Value → Check Unit
  | [] => pure ()
  | v :: vs => do
    emit (.assign (.index (.localVar array) (numberFor (.int i) .int)) v.expr)
    storeElements array (i + 1) vs

def isKeyed : Surface.Expr → Bool
  | .keyValue _ _ => true
  | _ => false

def literalType (pos : Pos) (ty : Ty) (inferred : Bool) (elems : List Surface.Expr) : Check Ty := do
  if ty.tag ≠ .array then fail pos (.compositeType ty)
  else
    match elems.find? isKeyed with
    | some e => fail e.pos (.unsupported .keyedElements)
    | none =>
      let ty := if inferred then .array (ty.elem?.getD .none) elems.length else ty
      if ty.length < elems.length then fail pos (.manyElements ty) else return ty

def lengthOf? (v : Value) : Option Nat := do
  let c ← v.constant?
  let n ← c.int64?
  if c.kind ≠ .bool ∧ 0 ≤ n ∧ (v.ty.isNone ∨ v.ty = .int) then some n.toNat else none

/-! ## The rules -/

mutual

def values : Surface.Expr → Check (List Value)
  | .ident pos name => do return [← identValue pos name]
  | .literal pos .int s =>
    match Constant.ofIntLiteral? s with
    | some c => pure [.const c]
    | none => fail pos (.badInt s)
  | .literal pos .float s =>
    match Constant.ofFloatLiteral? s with
    | some c => pure [.const c]
    | none => fail pos (.badFloat s)
  | .literal pos .imag _ => fail pos (.unsupported .complexNumbers)
  | .literal pos .char _ => fail pos (.unsupported .runeLiterals)
  | .literal pos .string _ => fail pos (.unsupported .stringLiterals)
  | .paren _ e => values e
  | .composite ty elems => do
    let (found, inferred) ← resolve true ty
    let t ← literalType ty.pos found inferred elems
    let elem := t.elem?.getD .none
    let vs ← eachValue (fun _ pos v => do return .typed (← ruled pos (settle v elem .arrayLiteral)) elem) 0 elems
    let array ← temporary t
    storeElements array 0 vs
    return [.typed (.localVar array) t]
  | .selector base name => do
    let b ← expectOne base (← values base)
    return [← ruled base.pos (swizzle b name.name false)]
  | .index base i => do
    let b ← expectOne base (← values base)
    match elements? b.ty with
    | none => fail base.pos (.notIndexable b.ty)
    | some (elem, length) =>
      let v ← expectOne i (← values i)
      return [.typed (.index b.expr (← ruled i.pos (position v length))) elem]
  | .slice base => fail base.pos (.unsupported .sliceExprs)
  | .typeAssert base => fail base.pos (.unsupported .typeAssertions)
  | .call callee args spread => do
    if spread then fail callee.pos (.unsupported .variadicArguments)
    else
      match callee.name? with
      | none => fail callee.pos (.invalidCall (Surface.Expr.call callee args spread).text)
      | some name =>
        match ← calleeNamed callee.pos name with
        | .helper index sig =>
          if sig.ins.length < args.length then fail callee.pos (.manyArguments sig.name)
          else if args.length < sig.ins.length then fail callee.pos (.fewArguments sig.name)
          else callFunc callee.pos index sig (← eachValue (argumentFor sig.ins) 0 args)
        | .builtin .discard => discard callee.pos args.length
        | .builtin .frontFacing => frontFacing callee.pos args.length
        | .builtin f =>
          let vs ← eachValue (fun _ pos v => ruled pos (settleShift v .int)) 0 args
          return [← ruled callee.pos (builtinValue f vs)]
  | .unary pos op e => do
    let code ← ruled pos (unaryOpFor op)
    let v ← expectOne e (← values e)
    return [← ruled pos (unary op code v)]
  | .binary op l r => do
    let a ← expectOne l (← values l)
    let b ← expectOne r (← values r)
    return [← ruled l.pos (binary op a b)]
  | .keyValue key value => fail key.pos (.keyValue (Surface.Expr.keyValue key value).text)
  | .funcLit pos => fail pos (.unsupported .functionLiterals)
  | .arrayType pos length elem => fail pos (.notExpr (Surface.Expr.arrayType pos length elem).text)
  | .sliceType pos elem => fail pos (.notExpr (Surface.Expr.sliceType pos elem).text)
  | .structType pos fields => fail pos (.notExpr (Surface.Expr.structType pos fields).text)
  | .funcType pos => fail pos (.notExpr (Surface.Expr.funcType pos).text)
  | .mapType pos => fail pos (.notExpr (Surface.Expr.mapType pos).text)
  | .chanType pos => fail pos (.notExpr (Surface.Expr.chanType pos).text)
  | .interfaceType pos => fail pos (.notExpr (Surface.Expr.interfaceType pos).text)

def eachValue (place : Nat → Pos → Value → Check Value) (i : Nat) : List Surface.Expr → Check (List Value)
  | [] => pure []
  | e :: es => do
    let v ← place i e.pos (← expectOne e (← values e))
    return v :: (← eachValue place (i + 1) es)

/-- The type that an expression means, and whether its length is left to the elements of a literal, which `infer`
allows. -/
def resolve (infer : Bool) : Surface.Expr → Check (Ty × Bool)
  | .ident pos name => do
    match ← findType? name with
    | some t => return (t, false)
    | none =>
      if name = "sampler2d" ∨ name = "texture2d" then fail pos (.unsupported .textureVariables)
      else fail pos (.unexpectedType name)
  | .paren _ e => resolve infer e
  | .arrayType pos length elem => do
    let (t, _) ← resolve false elem
    if t.tag = .array then fail pos (.unsupported .nestedArrays)
    else
      match length with
      | none => if infer then return (.array t 0, true) else fail pos .inferredLength
      | some e =>
        let (v, wrote) ← withoutStmts do expectOne e (← values e)
        match lengthOf? v, wrote with
        | some n, false => return (.array t n, false)
        | _, _ => fail e.pos (.arrayLength e.text)
  | .structType pos _ => fail pos (.unsupported .structTypes)
  | .sliceType pos _ => fail pos (.unsupported .sliceTypes)
  | .mapType pos => fail pos (.unsupported .mapTypes)
  | .chanType pos => fail pos (.unsupported .channelTypes)
  | .interfaceType pos => fail pos (.unsupported .interfaceTypes)
  | .funcType pos => fail pos (.unsupported .functionTypes)
  | .unary pos .deref _ => fail pos (.unsupported .pointerTypes)
  | e => fail e.pos (.unexpectedType e.text)

end

def value (e : Surface.Expr) : Check Value := do expectOne e (← values e)

def typeOf (e : Surface.Expr) : Check Ty := do return (← resolve false e).1

end GameMedia.Shader.Check
