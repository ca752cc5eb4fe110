import GameMedia.Shader.Surface.Parser

/-!
# Types and parameter lists
-/

namespace GameMedia.Shader.Surface.Parser

/-- An entry of a parameter list as it is written. -/
inductive Param where
  /-- A name alone: a parameter whose type comes later, or a type. -/
  | name (id : Ident)
  | named (id : Ident) (ty : Expr)
  | type (ty : Expr)

namespace Param

def isNamed : Param → Bool
  | named _ _ => true
  | _ => false

/-- The entry as a type, in a list where nothing is named. -/
def asType : Param → Expr
  | name id => .ident id.pos id.name
  | named _ ty | type ty => ty

/-- The names that wait for a type are `pending`. The error is where names and types mix. -/
def group (pending : List Ident) : List Param → Except Pos (List Field)
  | [] =>
    match pending with
    | [] => .ok []
    | id :: _ => .error id.pos
  | name id :: ps => group (pending ++ [id]) ps
  | named id ty :: ps => (group [] ps).map (Field.mk (pending ++ [id]) ty :: ·)
  | type ty :: _ => .error ty.pos

def fields (ps : List Param) : Except Pos (List Field) :=
  if ps.any isNamed then group [] ps else .ok (ps.map fun p => Field.mk [] p.asType)

end Param

def param (g : Grammar) : Parser Param := do
  match ← peek with
  | .symbol .ellipsis => fail (← here) .variadicParameter
  | .ident _ =>
    let id ← ident
    match ← peek with
    | .symbol .comma | .symbol .rightParen => return .name id
    | .symbol .period =>
      let _ ← next
      return .type (.selector (.ident id.pos id.name) (← ident))
    | .symbol .ellipsis => fail (← here) .variadicParameter
    | _ => return .named id (← g.type)
  | _ => return .type (← g.type)

def parameters (g : Grammar) : Parser (List Field) := do
  let _ ← expect .leftParen
  let ps ← listed .rightParen (param g)
  let _ ← expect .rightParen
  match Param.fields ps with
  | .ok fields => return fields
  | .error pos => fail pos .mixedParameters

def beginsType : Token → Bool
  | .ident _ => true
  | .symbol s => s = .leftBracket || s = .mul || s = .arrow || s = .leftParen
  | .keyword k => k = .struct || k = .func || k = .map || k = .chan || k = .interface
  | _ => false

/-- The parameters and the results of a function. -/
def signature (g : Grammar) : Parser (List Field × List Field) := do
  let params ← parameters g
  if ← sees .leftParen then return (params, ← parameters g)
  else if beginsType (← peek) then return (params, [.mk [] (← g.type)])
  else return (params, [])

def arrayType (g : Grammar) : Parser Expr := do
  let pos ← expect .leftBracket
  if ← eat .rightBracket then return .sliceType pos (← g.type)
  else
    let length ← do
      if ← eat .ellipsis then pure none
      else some <$> nested (g.expr 1)
    let _ ← expect .rightBracket
    return .arrayType pos length (← g.type)

def field (g : Grammar) : Parser Field := do
  let names ← separated ident
  return .mk names (← g.type)

def structType (g : Grammar) : Parser Expr := do
  let pos ← expectKeyword .struct
  let _ ← expect .leftBrace
  let fields ← ended .rightBrace (field g)
  let _ ← expect .rightBrace
  return .structType pos fields

def mapType (g : Grammar) (pos : Pos) : Parser Expr := do
  let _ ← next
  let _ ← expect .leftBracket
  let _ ← g.type
  let _ ← expect .rightBracket
  let _ ← g.type
  return .mapType pos

def chanType (g : Grammar) (pos : Pos) : Parser Expr := do
  let _ ← next
  let _ ← eatKeyword .chan
  let _ ← eat .arrow
  let _ ← g.type
  return .chanType pos

def namedType (pos : Pos) (name : String) : Parser Expr := do
  let _ ← next
  if ← eat .period then return .selector (.ident pos name) (← ident)
  else return .ident pos name

def type (g : Grammar) : Parser Expr := do
  let pos ← here
  match ← peek with
  | .ident name => namedType pos name
  | .symbol .leftBracket => arrayType g
  | .keyword .struct => structType g
  | .symbol .mul =>
    let _ ← next
    return .unary pos .deref (← g.type)
  | .keyword .func =>
    let _ ← next
    let _ ← signature g
    return .funcType pos
  | .keyword .map => mapType g pos
  | .keyword .chan | .symbol .arrow => chanType g pos
  | .keyword .interface =>
    let _ ← next
    braces
    return .interfaceType pos
  | .symbol .leftParen =>
    let _ ← next
    let inner ← g.type
    let _ ← expect .rightParen
    return .paren pos inner
  | _ => unexpected .type

end GameMedia.Shader.Surface.Parser
