import GameMedia.Shader.Surface
import GameMedia.Shader.Token.Scan

/-!
# Parsing

A parser reads tokens from a state and gives a result or fails. Either way it leaves a state behind: what it has
read stays read and the errors it has recorded stay recorded, so that a caller can go on after a failure.

Loops are bounded by the tokens that are left, since each round of a loop that goes on reads one at least.
-/

namespace GameMedia.Shader.Surface

/-- What a parser was looking for. -/
inductive Wanted where
  | symbol (s : Symbol)
  | keyword (k : Keyword)
  | identifier
  | importPath
  | type
  | operand
  | selector
  | condition
  | branch
  deriving DecidableEq, Repr

def Wanted.text : Wanted → String
  | symbol s => "'" ++ s.text ++ "'"
  | keyword k => "'" ++ k.text ++ "'"
  | identifier => "identifier"
  | importPath => "import path"
  | type => "type"
  | operand => "operand"
  | selector => "selector or type assertion"
  | condition => "condition"
  | branch => "if statement or block"

inductive SyntaxError where
  | invalidCharacter
  | expected (what : Wanted) (found : Token)
  | outsideFunction
  | importInFunction
  | constWithoutValue
  | genericFunction
  | variadicParameter
  | mixedParameters
  | newlineInArguments
  | newlineInComposite
  | elidedType
  | expectedOne (found : Nat)
  | missingCondition
  | statementAsCondition (k : Keyword)
  deriving DecidableEq, Repr

def SyntaxError.message : SyntaxError → String
  | invalidCharacter => "invalid character"
  | expected what found => "expected " ++ what.text ++ ", found " ++ found.describe
  | outsideFunction => "non-declaration statement outside function body"
  | importInFunction => "import is not allowed inside a function body"
  | constWithoutValue => "missing init expr for const declaration"
  | genericFunction => "generic functions are not supported"
  | variadicParameter => "variadic parameters are not supported"
  | mixedParameters => "mixed named and unnamed parameters"
  | newlineInArguments => "unexpected newline in argument list; possibly missing comma or )"
  | newlineInComposite => "unexpected newline in composite literal; possibly missing comma or \x7d"
  | elidedType => "composite literal with elided type is not supported"
  | expectedOne found => s!"expected 1 expression, found {found}"
  | missingCondition => "missing condition in if statement"
  | statementAsCondition k => "cannot use a statement as " ++ k.text ++ " condition"

namespace Parser

/-- Where a parser stands. The last token is never passed. -/
structure State where
  /-- The token to read next. -/
  head : Placed
  /-- The tokens behind it. -/
  rest : List Placed
  /-- Below zero in the header of a control statement, above zero in brackets. -/
  level : Int
  errors : List (Diagnostic SyntaxError)

/-- The number of errors after which parsing stops. -/
def errorLimit : Nat := 10

namespace State

def advance (s : State) : State :=
  match s.rest with
  | [] => s
  | t :: ts => { s with head := t, rest := ts }

def record (s : State) (pos : Pos) (cause : SyntaxError) : State :=
  if s.errors.length < errorLimit then { s with errors := s.errors ++ [⟨pos, cause⟩] } else s

def isFull (s : State) : Bool := errorLimit ≤ s.errors.length

end State

end Parser

def Parser (α : Type) : Type := Parser.State → Option α × Parser.State

namespace Parser

variable {α β σ : Type}

instance : Monad Parser where
  pure a s := (some a, s)
  bind p f s :=
    match p s with
    | (some a, t) => f a t
    | (none, t) => (none, t)

/-! ## Tokens -/

def failed : Parser α := fun s => (none, s)

def fail (pos : Pos) (cause : SyntaxError) : Parser α := fun s => (none, s.record pos cause)

/-- The result of a parser as a value, `none` if it fails. -/
def attempt (p : Parser α) : Parser (Option α) := fun s =>
  let (a, t) := p s
  (some a, t)

def withLevel (change : Int → Int) (p : Parser α) : Parser α := fun s =>
  let (a, t) := p { s with level := change s.level }
  (a, { t with level := s.level })

/-- One bracket deeper. -/
def nested (p : Parser α) : Parser α := withLevel (· + 1) p

def level : Parser Int := fun s => (some s.level, s)

def peek : Parser Token := fun s => (some s.head.token, s)

def here : Parser Pos := fun s => (some s.head.pos, s)

def next : Parser Placed := fun s => (some s.head, s.advance)

/-- How many tokens are left behind the next. -/
def remaining : Parser Nat := fun s => (some s.rest.length, s)

def isFull : Parser Bool := fun s => (some s.isFull, s)

/-- Fails because another token was expected. -/
def unexpected (what : Wanted) : Parser α := fun s =>
  (none, s.record s.head.pos (.expected what s.head.token))

def sees (symbol : Symbol) : Parser Bool := do return (← peek) = .symbol symbol

def seesKeyword (k : Keyword) : Parser Bool := do return (← peek) = .keyword k

def seesSemicolon : Parser Bool := do return (← peek).isSemicolon

def seesNewline : Parser Bool := do return (← peek) = .newline

def seesIdent : Parser Bool := do
  match ← peek with
  | .ident _ => return true
  | _ => return false

def closes (close : Symbol) : Parser Bool := do
  let t ← peek
  return t = .symbol close || t = .eof

def eat (symbol : Symbol) : Parser Bool := do
  if ← sees symbol then
    let _ ← next
    return true
  else return false

def eatKeyword (k : Keyword) : Parser Bool := do
  if ← seesKeyword k then
    let _ ← next
    return true
  else return false

def expect (symbol : Symbol) : Parser Pos := do
  if ← sees symbol then return (← next).pos
  else unexpected (.symbol symbol)

def expectKeyword (k : Keyword) : Parser Pos := do
  if ← seesKeyword k then return (← next).pos
  else unexpected (.keyword k)

def ident : Parser Ident := do
  match ← peek with
  | .ident name =>
    let t ← next
    return ⟨name, t.pos⟩
  | _ => unexpected .identifier

/-- The end of a statement. The semicolon may be left out before a closing `)` or `}`. -/
def semicolon : Parser Unit := do
  match ← peek with
  | .symbol .semicolon | .newline =>
    let _ ← next
    return ()
  | .symbol .rightParen | .symbol .rightBrace | .eof => return ()
  | _ => unexpected (.symbol .semicolon)

/-! ## Skipping -/

def bracket : Token → Bool × Bool
  | .symbol .leftBrace | .symbol .leftParen | .symbol .leftBracket => (true, false)
  | .symbol .rightBrace | .symbol .rightParen | .symbol .rightBracket => (false, true)
  | _ => (false, false)

/-- The depth behind a token. It stays at zero where a bracket closes that none opened. -/
def depthAfter (depth : Nat) (t : Token) : Nat :=
  match bracket t with
  | (true, _) => depth + 1
  | (_, true) => depth - 1
  | _ => depth

inductive Skip where
  | stop
  | stopBehind
  | goOn
  deriving DecidableEq, Repr

def skipFrom (rule : Nat → Token → Skip) (depth : Nat) (head : Placed) : List Placed → Placed × List Placed
  | [] => (head, [])
  | t :: ts =>
    match rule depth head.token with
    | .stop => (head, t :: ts)
    | .stopBehind => (t, ts)
    | .goOn => skipFrom rule (depthAfter depth head.token) t ts

def skip (rule : Nat → Token → Skip) : Parser Unit := fun s =>
  let (head, rest) := skipFrom rule 0 s.head s.rest
  (some (), { s with head, rest })

/-- Stops before the first token that satisfies `p`, and at the end of the source. -/
def skipUntil (p : Token → Bool) : Parser Unit :=
  skip fun _ t => if t = .eof || p t then .stop else .goOn

/-- Stops behind the current statement or before the end of its block. -/
def skipStmt : Parser Unit :=
  skip fun depth t =>
    if t = .eof then .stop
    else if depth = 0 && t.isSemicolon then .stopBehind
    else if depth = 0 && t = .symbol .rightBrace then .stop
    else .goOn

def beginsDecl : Token → Bool
  | .keyword .func | .keyword .var | .keyword .const | .keyword .type | .keyword .import => true
  | _ => false

/-- Stops before the next declaration outside brackets. -/
def skipDecl : Parser Unit :=
  skip fun depth t => if t = .eof || (depth = 0 && beginsDecl t) then .stop else .goOn

/-- The tokens behind the brace that closes `depth` open ones, or those at the end if none does. -/
def closeFrom (depth : Nat) (head : Placed) : List Placed → Bool × Placed × List Placed
  | [] => (false, head, [])
  | t :: ts =>
    match head.token with
    | .eof => (false, t, ts)
    | .symbol .leftBrace => closeFrom (depth + 1) t ts
    | .symbol .rightBrace => if depth ≤ 1 then (true, t, ts) else closeFrom (depth - 1) t ts
    | _ => closeFrom depth t ts

def braces : Parser Unit := do
  let _ ← expect .leftBrace
  let closed ← fun s : State =>
    let (closed, head, rest) := closeFrom 1 s.head s.rest
    (some closed, { s with head, rest })
  if closed then return () else unexpected (.symbol .rightBrace)

/-! ## Loops -/

/-- Repeats a step at most so many times until it gives a result. -/
def iterate (body : σ → Parser (σ ⊕ β)) : Nat → σ → Parser β
  | 0, _ => failed
  | n + 1, a => do
    match ← body a with
    | .inl a => iterate body n a
    | .inr b => return b

/-- Repeats a step that reads a token whenever it asks to be repeated. -/
def loop (body : σ → Parser (σ ⊕ β)) (start : σ) : Parser β := do
  iterate body ((← remaining) + 1) start

def separatedStep (item : Parser α) (items : List α) : Parser (List α ⊕ List α) := do
  if ← eat .comma then return .inl (items ++ [← item])
  else return .inr items

/-- One item or more with commas between them. -/
def separated (item : Parser α) : Parser (List α) := do
  let first ← item
  loop (separatedStep item) [first]

def listedStep (close : Symbol) (item : Parser α) (items : List α) : Parser (List α ⊕ List α) := do
  if ← closes close then return .inr items
  else
    let a ← item
    if ← eat .comma then return .inl (items ++ [a])
    else return .inr (items ++ [a])

def listed (close : Symbol) (item : Parser α) : Parser (List α) := loop (listedStep close item) []

def endedStep (close : Symbol) (item : Parser α) (items : List α) : Parser (List α ⊕ List α) := do
  if ← closes close then return .inr items
  else
    let a ← item
    semicolon
    return .inl (items ++ [a])

def ended (close : Symbol) (item : Parser α) : Parser (List α) := loop (endedStep close item) []

end Parser

/-- The parsers that the grammar's rules call on what follows a token they have read. -/
structure Grammar where
  /-- An expression of operators that bind at least so tightly. -/
  expr : Nat → Parser Expr
  unary : Parser Expr
  type : Parser Expr
  stmt : Parser Stmt
  cond : Parser Stmt

end GameMedia.Shader.Surface
