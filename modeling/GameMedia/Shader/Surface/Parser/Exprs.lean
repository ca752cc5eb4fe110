import GameMedia.Shader.Surface.Parser.Types

/-!
# Expressions

A primary expression is an operand with selectors, indices, arguments and elements behind it. A name with a brace
behind it is a composite literal, except in the header of a control statement, where the brace opens its body.
-/

namespace GameMedia.Shader.Surface.Parser

/-! ## Statement lists

They are needed here for the bodies of function literals. -/

/-- One more statement of a block. One that fails is left out, and so is an empty one. -/
def stmtsStep (g : Grammar) (items : List Stmt) : Parser (List Stmt ⊕ List Stmt) := do
  if (← closes .rightBrace) || (← isFull) then return .inr items
  else
    match ← attempt g.stmt with
    | some s => return .inl (if s.isEmpty then items else items ++ [s])
    | none =>
      skipStmt
      return .inl items

/-- Statements up to the end of their block. -/
def stmts (g : Grammar) : Parser (List Stmt) := loop (stmtsStep g) []

def block (g : Grammar) : Parser Block := do
  let pos ← expect .leftBrace
  let items ← stmts g
  let _ ← expect .rightBrace
  return .mk pos items

def funcBody (g : Grammar) : Parser Block := withLevel (fun _ => 0) (block g)

/-! ## Operators -/

def binaryOp? : Token → Option BinaryOp
  | .symbol s =>
    match s with
    | .add => some .add
    | .sub => some .sub
    | .mul => some .mul
    | .quo => some .quo
    | .rem => some .rem
    | .and => some .and
    | .or => some .or
    | .xor => some .xor
    | .shl => some .shl
    | .shr => some .shr
    | .andNot => some .andNot
    | .logicalAnd => some .logicalAnd
    | .logicalOr => some .logicalOr
    | .eql => some .eq
    | .notEqual => some .ne
    | .less => some .lt
    | .lessEqual => some .le
    | .greater => some .gt
    | .greaterEqual => some .ge
    | _ => none
  | _ => none

def unaryOp? : Token → Option UnaryOp
  | .symbol s =>
    match s with
    | .add => some .plus
    | .sub => some .neg
    | .not => some .not
    | .xor => some .bitNot
    | .mul => some .deref
    | .and => some .address
    | .arrow => some .receive
    | _ => none
  | _ => none

/-! ## Operands -/

def literal? : Token → Option (LiteralKind × String)
  | .int s => some (.int, s)
  | .float s => some (.float, s)
  | .imag s => some (.imag, s)
  | .char s => some (.char, s)
  | .string s => some (.string, s)
  | _ => none

def funcOperand (g : Grammar) (pos : Pos) : Parser Expr := do
  let _ ← next
  let _ ← signature g
  if ← sees .leftBrace then
    let _ ← funcBody g
    return .funcLit pos
  else return .funcType pos

def operand (g : Grammar) : Parser Expr := do
  let pos ← here
  let t ← peek
  match literal? t with
  | some (kind, text) =>
    let _ ← next
    return .literal pos kind text
  | none =>
    match t with
    | .ident name =>
      let _ ← next
      return .ident pos name
    | .symbol .leftParen =>
      let _ ← next
      let inner ← nested (g.expr 1)
      let _ ← expect .rightParen
      return .paren pos inner
    | .keyword .func => funcOperand g pos
    | .symbol .leftBracket | .keyword .struct | .keyword .map | .keyword .chan | .keyword .interface => type g
    | _ => unexpected .operand

/-! ## Suffixes -/

def isLiteralType : Expr → Bool
  | .ident _ _ | .selector (.ident _ _) _ | .arrayType _ _ _ | .sliceType _ _ | .structType _ _ | .mapType _ => true
  | _ => false

def isTypeName : Expr → Bool
  | .ident _ _ | .selector _ _ => true
  | _ => false

def selectorSuffix (g : Grammar) (base : Expr) : Parser Expr := do
  match ← peek with
  | .ident _ => return .selector base (← ident)
  | .symbol .leftParen =>
    let _ ← next
    if !(← eatKeyword .type) then
      let _ ← g.type
    let _ ← expect .rightParen
    return .typeAssert base
  | _ => unexpected .selector

/-- The bounds of a slice from its first colon on, of which nothing is kept. -/
def sliceSuffix (base : Expr) : Parser Expr := do
  skipUntil (· = .symbol .rightBracket)
  let _ ← expect .rightBracket
  return .slice base

def indexSuffix (g : Grammar) (base : Expr) : Parser Expr := do
  if ← sees .colon then sliceSuffix base
  else
    let i ← g.expr 1
    if ← sees .colon then sliceSuffix base
    else
      let _ ← expect .rightBracket
      return .index base i

def sameLine (cause : SyntaxError) : Parser Unit := do
  if ← seesNewline then fail (← here) cause else return ()

def argument (g : Grammar) : Parser (Expr × Bool) := do
  sameLine .newlineInArguments
  let e ← g.expr 1
  return (e, ← eat .ellipsis)

def arguments (g : Grammar) : Parser (List Expr × Bool) := do
  let args ← listed .rightParen (argument g)
  sameLine .newlineInArguments
  let _ ← expect .rightParen
  return (args.map Prod.fst, args.any Prod.snd)

def element (g : Grammar) : Parser Expr := do
  sameLine .newlineInComposite
  if ← sees .leftBrace then fail (← here) .elidedType
  else
    let e ← g.expr 1
    if ← eat .colon then return .keyValue e (← g.expr 1) else return e

def elements (g : Grammar) : Parser (List Expr) := do
  let elems ← listed .rightBrace (element g)
  sameLine .newlineInComposite
  let _ ← expect .rightBrace
  return elems

def suffix (g : Grammar) (e : Expr) : Parser (Expr ⊕ Expr) := do
  match ← peek with
  | .symbol .period =>
    let _ ← next
    return .inl (← selectorSuffix g e)
  | .symbol .leftBracket =>
    let _ ← next
    return .inl (← nested (indexSuffix g e))
  | .symbol .leftParen =>
    let _ ← next
    let (args, spread) ← nested (arguments g)
    return .inl (.call e args spread)
  | .symbol .leftBrace =>
    if isLiteralType e && (0 ≤ (← level) || !isTypeName e) then
      let _ ← next
      return .inl (.composite e (← nested (elements g)))
    else return .inr e
  | _ => return .inr e

def primary (g : Grammar) : Parser Expr := do loop (suffix g) (← operand g)

/-! ## Operator expressions -/

def unary (g : Grammar) : Parser Expr := do
  let pos ← here
  match unaryOp? (← peek) with
  | some op =>
    let _ ← next
    return .unary pos op (← g.unary)
  | none => primary g

/-- One more operator and its right side, or the expression if the next token is none that binds so tightly. -/
def binarySuffix (g : Grammar) (least : Nat) (lhs : Expr) : Parser (Expr ⊕ Expr) := do
  match binaryOp? (← peek) with
  | none => return .inr lhs
  | some op =>
    if op.precedence < least then return .inr lhs
    else
      let _ ← next
      return .inl (.binary op lhs (← g.expr (op.precedence + 1)))

def binary (g : Grammar) (least : Nat) : Parser Expr := do loop (binarySuffix g least) (← unary g)

def expr (g : Grammar) : Parser Expr := binary g 1

def exprs (g : Grammar) : Parser (List Expr) := separated (expr g)

end GameMedia.Shader.Surface.Parser
