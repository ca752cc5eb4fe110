import GameMedia.Shader.Surface.Parser.Exprs

/-!
# Declarations and statements
-/

namespace GameMedia.Shader.Surface.Parser

/-! ## Declarations -/

def groupKind? : Token → Option GroupKind
  | .keyword .import => some .imports
  | .keyword .const => some .const
  | .keyword .type => some .type
  | .keyword .var => some .var
  | _ => none

def pathSpec : Parser Spec := do
  let pos ← here
  match ← peek with
  | .ident _ | .symbol .period =>
    let _ ← next
  | _ => pure ()
  match ← peek with
  | .string _ =>
    let _ ← next
    return .path pos
  | _ => unexpected .importPath

def typeSpec (g : Grammar) : Parser Spec := do
  let pos ← here
  let name ← ident
  let _ ← eat .assign
  return .type ⟨pos, name, ← type g⟩

def valueSpec (g : Grammar) (isConst : Bool) : Parser Spec := do
  let pos ← here
  let names ← separated ident
  let ty ← do
    if (← sees .assign) || (← seesSemicolon) || (← sees .rightParen) then pure none
    else some <$> type g
  let values ← do
    if ← eat .assign then exprs g else pure []
  if isConst && values.isEmpty then fail pos .constWithoutValue
  else return .value ⟨pos, names, ty, values⟩

def spec (g : Grammar) : GroupKind → Parser Spec
  | .imports => pathSpec
  | .type => typeSpec g
  | .const => valueSpec g true
  | .var => valueSpec g false

/-- Declarations under a keyword that is still to be read. -/
def group (g : Grammar) (kind : GroupKind) : Parser Group := do
  let pos := (← next).pos
  if ← eat .leftParen then
    let specs ← ended .rightParen (spec g kind)
    let _ ← expect .rightParen
    return ⟨kind, pos, specs⟩
  else return ⟨kind, pos, [← spec g kind]⟩

/-! ## Simple statements -/

def assignOp? : Token → Option AssignOp
  | .symbol s =>
    match s with
    | .assign => some .assign
    | .define => some .define
    | .addAssign => some (.compound .add)
    | .subAssign => some (.compound .sub)
    | .mulAssign => some (.compound .mul)
    | .quoAssign => some (.compound .quo)
    | .remAssign => some (.compound .rem)
    | .andAssign => some (.compound .and)
    | .orAssign => some (.compound .or)
    | .xorAssign => some (.compound .xor)
    | .shlAssign => some (.compound .shl)
    | .shrAssign => some (.compound .shr)
    | .andNotAssign => some (.compound .andNot)
    | _ => none
  | _ => none

def single (es : List Expr) : Parser Expr :=
  match es with
  | [e] => pure e
  | _ => do
    let pos := ((es[1]?).map Expr.pos).getD (← here)
    fail pos (.expectedOne es.length)

def stepOrExpr (pos : Pos) (lhs : List Expr) : Parser Stmt := do
  match ← peek with
  | .symbol .inc =>
    let _ ← next
    return .step pos (← single lhs) true
  | .symbol .dec =>
    let _ ← next
    return .step pos (← single lhs) false
  | _ => return .expr pos (← single lhs)

def marked (g : Grammar) : Parser Stmt := do
  if ← sees .rightBrace then return .empty (← here) else g.stmt

def simpleRest (g : Grammar) (labels : Bool) (pos : Pos) (lhs : List Expr) : Parser Stmt := do
  match ← peek, lhs with
  | .symbol .colon, [.ident p name] =>
    if labels then
      let _ ← next
      return .labeled ⟨name, p⟩ (← marked g)
    else stepOrExpr pos lhs
  | .symbol .arrow, _ =>
    let _ ← next
    let _ ← expr g
    return .send pos
  | _, _ => stepOrExpr pos lhs

/-- An assignment behind its operator. A range loop may also be written this way, with its block. -/
def assignment (g : Grammar) (pos : Pos) (lhs : List Expr) (op : AssignOp) : Parser Stmt := do
  if (← seesKeyword .range) && (op = .assign || op = .define) then
    let _ ← next
    let _ ← expr g
    return .range pos (← block g)
  else return .assign pos lhs op (← exprs g)

def simpleStmt (g : Grammar) (labels : Bool) : Parser Stmt := do
  let pos ← here
  let lhs ← exprs g
  match assignOp? (← peek) with
  | some op =>
    let _ ← next
    assignment g pos lhs op
  | none => simpleRest g labels pos lhs

/-! ## Conditionals and loops -/

def header {α : Type} (p : Parser α) : Parser α := withLevel (fun _ => -1) p

def condition (k : Keyword) : Stmt → Parser Expr
  | .expr _ e => pure e
  | s => fail s.pos (.statementAsCondition k)

def headerInit (p : Parser Stmt) : Parser (Option Stmt) := do
  if ← sees .semicolon then return none else return some (← p)

def condHeader (g : Grammar) : Parser (Option Stmt × Expr) := do
  if ← sees .leftBrace then fail (← here) .missingCondition
  else
    let first ← headerInit (simpleStmt g false)
    if ← eat .semicolon then
      if ← sees .leftBrace then fail (← here) .missingCondition
      else return (first, ← expr g)
    else
      match first with
      | some s => return (none, ← condition .if s)
      | none => unexpected .condition

def otherBranch (g : Grammar) : Parser Stmt := do
  match ← peek with
  | .keyword .if => g.cond
  | .symbol .leftBrace => return .block (← block g)
  | _ => unexpected .branch

def cond (g : Grammar) : Parser Stmt := do
  let pos ← expectKeyword .if
  let (init, test) ← header (condHeader g)
  let body ← block g
  let other ← do
    if ← eatKeyword .else then some <$> otherBranch g else pure none
  return .cond pos init test body other

/-- What stands between the keyword and the body of a loop. -/
inductive LoopHeader where
  | range
  | clauses (init : Option Stmt) (test : Option Expr) (post : Option Stmt)

def firstClause (g : Grammar) : Parser (Option Stmt) := do
  let pos ← here
  let lhs ← exprs g
  match assignOp? (← peek) with
  | some op =>
    let _ ← next
    if ← eatKeyword .range then
      let _ ← expr g
      return none
    else return some (.assign pos lhs op (← exprs g))
  | none => return some (← stepOrExpr pos lhs)

def laterClauses (g : Grammar) (init : Option Stmt) : Parser LoopHeader := do
  let test ← do
    if ← sees .semicolon then pure none else some <$> expr g
  let _ ← expect .semicolon
  let post ← do
    if ← sees .leftBrace then pure none else some <$> simpleStmt g false
  return .clauses init test post

def loopHeader (g : Grammar) : Parser LoopHeader := do
  if ← sees .leftBrace then return .clauses none none none
  else if ← eatKeyword .range then
    let _ ← expr g
    return .range
  else if ← eat .semicolon then laterClauses g none
  else
    match ← firstClause g with
    | none => return .range
    | some s =>
      if ← eat .semicolon then laterClauses g (some s)
      else return .clauses none (some (← condition .for s)) none

def loopStmt (g : Grammar) : Parser Stmt := do
  let pos ← expectKeyword .for
  let h ← header (loopHeader g)
  let body ← block g
  match h with
  | .range => return .range pos body
  | .clauses init test post => return .loop pos init test post body

/-! ## Statements -/

/-- A statement with the semicolon that ends it. -/
def terminated (p : Parser Stmt) : Parser Stmt := do
  let s ← p
  semicolon
  return s

/-- A statement whose contents are skipped: everything up to a brace, and the group in braces. -/
def skipped (s : Stmt) : Parser Stmt := do
  let _ ← next
  skipUntil (· = .symbol .leftBrace)
  braces
  return s

def returned (g : Grammar) (pos : Pos) : Parser Stmt := do
  let _ ← next
  if (← seesSemicolon) || (← sees .rightBrace) then return .ret pos []
  else return .ret pos (← exprs g)

def branch (pos : Pos) (kind : BranchKind) : Parser Stmt := do
  let _ ← next
  if ← seesIdent then return .branch pos kind (some (← ident))
  else return .branch pos kind none

/-- A statement that begins with a keyword of its own, as far as its semicolon. -/
def keywordStmt? (g : Grammar) (pos : Pos) : Keyword → Option (Parser Stmt)
  | .var => some (Stmt.decl <$> group g .var)
  | .const => some (Stmt.decl <$> group g .const)
  | .type => some (Stmt.decl <$> group g .type)
  | .if => some (cond g)
  | .for => some (loopStmt g)
  | .switch => some (skipped (.switch pos))
  | .select => some (skipped (.select pos))
  | .return => some (returned g pos)
  | .break => some (branch pos .leave)
  | .continue => some (branch pos .next)
  | .goto => some (branch pos .goto)
  | .fallthrough => some (branch pos .fallthrough)
  | .go => some do
    let _ ← next
    return .spawn pos (← expr g)
  | .defer => some do
    let _ ← next
    return .defer pos (← expr g)
  | _ => none

/-- A statement that begins with expressions. A label needs no semicolon behind what it marks. -/
def plainStmt (g : Grammar) : Parser Stmt := do
  let s ← simpleStmt g true
  match s with
  | .labeled _ _ => return s
  | _ =>
    semicolon
    return s

def stmt (g : Grammar) : Parser Stmt := do
  let pos ← here
  match ← peek with
  | .keyword .import => fail pos .importInFunction
  | .keyword k =>
    match keywordStmt? g pos k with
    | some p => terminated p
    | none => plainStmt g
  | .symbol .leftBrace => terminated (Stmt.block <$> block g)
  | .symbol .semicolon | .newline =>
    let _ ← next
    return .empty pos
  | _ => plainStmt g

end GameMedia.Shader.Surface.Parser
