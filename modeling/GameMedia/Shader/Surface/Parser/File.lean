import GameMedia.Shader.Surface.Parser.Stmts

/-!
# Source files

The grammar's rules call each other through a record of parsers, built up from one whose parsers all fail. A rule
reads a token before it calls the record, so as many layers as there are tokens are enough.
-/

namespace GameMedia.Shader.Surface

namespace Grammar

def deepen (g : Grammar) : Grammar where
  expr := Parser.binary g
  unary := Parser.unary g
  type := Parser.type g
  stmt := Parser.stmt g
  cond := Parser.cond g

def layers : Nat → Grammar
  | 0 => ⟨fun _ => Parser.failed, Parser.failed, Parser.failed, Parser.failed, Parser.failed⟩
  | n + 1 => deepen (layers n)

end Grammar

namespace Parser

def funcDecl (g : Grammar) : Parser FuncDecl := do
  let pos ← expectKeyword .func
  let hasReceiver ← sees .leftParen
  if hasReceiver then
    let _ ← parameters g
  let name ← ident
  if ← sees .leftBracket then fail (← here) .genericFunction
  else
    let (params, results) ← signature g
    let body ← do
      if ← sees .leftBrace then some <$> funcBody g else pure none
    semicolon
    return ⟨pos, name, hasReceiver, params, results, body⟩

def decl (g : Grammar) : Parser Decl := do
  let t ← peek
  match groupKind? t with
  | some kind =>
    let d ← group g kind
    semicolon
    return .group d
  | none =>
    if t = .keyword .func then return .func (← funcDecl g)
    else fail (← here) .outsideFunction

/-- One more declaration. Behind one that fails, at least a token is skipped. -/
def declsStep (g : Grammar) (items : List Decl) : Parser (List Decl ⊕ List Decl) := do
  if (← peek) = .eof || (← isFull) then return .inr items
  else if ← seesSemicolon then
    let _ ← next
    return .inl items
  else
    match ← attempt (decl g) with
    | some d => return .inl (items ++ [d])
    | none =>
      let _ ← next
      skipDecl
      return .inl items

def decls (g : Grammar) : Parser (List Decl) := loop (declsStep g) []

def file (g : Grammar) : Parser File := do
  skipUntil fun t => !t.isSemicolon
  let _ ← expectKeyword .package
  let package ← ident
  semicolon
  return ⟨package, ← decls g⟩

end Parser

def File.ofTokens : List Placed → Except (List (Diagnostic SyntaxError)) File
  | [] => .error []
  | head :: rest =>
    match Parser.file (Grammar.layers (rest.length + 1)) ⟨head, rest, 0, []⟩ with
    | (some file, s) => if s.errors.isEmpty then .ok file else .error s.errors
    | (none, s) => .error s.errors

def File.ofSource (source : String) : Except (List (Diagnostic SyntaxError)) File :=
  match tokenize source with
  | .ok tokens => File.ofTokens tokens
  | .error pos => .error [⟨pos, .invalidCharacter⟩]

end GameMedia.Shader.Surface
