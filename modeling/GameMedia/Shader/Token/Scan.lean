import GameMedia.Shader.Token

/-!
# Scanning

Source text becomes lexemes, each the longest that begins where the one before it ended, and these become
tokens. A line break ends a statement behind the tokens that can end one, also inside a block comment.
-/

namespace GameMedia.Shader

/-- What a stretch of source text is. -/
inductive Lexeme where
  | blank
  | lineBreak
  | comment (breaksLine : Bool)
  | token (t : Token)
  deriving DecidableEq, Repr

namespace Scan

/-! ## Character classes -/

def isBlank (c : Char) : Bool := c = ' ' || c = '\t' || c = '\r' || c = '\x0c'

def isDigit (c : Char) : Bool := '0' ≤ c && c ≤ '9'

def isLetter (c : Char) : Bool := ('A' ≤ c && c ≤ 'Z') || ('a' ≤ c && c ≤ 'z') || c = '_'

def isWordChar (c : Char) : Bool := isLetter c || isDigit c

def isDigitChar (c : Char) : Bool := isDigit c || c = '_'

def isHexChar (c : Char) : Bool := isDigitChar c || ('a' ≤ c && c ≤ 'f') || ('A' ≤ c && c ≤ 'F')

def isOctalChar (c : Char) : Bool := ('0' ≤ c && c ≤ '7') || c = '_'

def isBinaryChar (c : Char) : Bool := c = '0' || c = '1' || c = '_'

/-! ## Widths

Each function gives the number of characters of the longest match at the start of the text. -/

def runWidth (p : Char → Bool) (cs : List Char) : Nat := (cs.takeWhile p).length

/-- Like `runWidth`, but at least one. -/
def someWidth (p : Char → Bool) (cs : List Char) : Option Nat :=
  if runWidth p cs = 0 then none else some (runWidth p cs)

def decimalWidth : List Char → Option Nat
  | [] => none
  | c :: cs => if isDigit c then some (1 + runWidth isDigitChar cs) else none

def basedWidth : List Char → Option Nat
  | '0' :: c :: cs =>
    if c = 'x' ∨ c = 'X' then (someWidth isHexChar cs).map (2 + ·)
    else if c = 'b' ∨ c = 'B' then (someWidth isBinaryChar cs).map (2 + ·)
    else if c = 'o' ∨ c = 'O' then (someWidth isOctalChar cs).map (2 + ·)
    else none
  | _ => none

/-- A power of ten: its mark, perhaps a sign, and digits. -/
def exponentWidth : List Char → Option Nat
  | c :: cs =>
    if c = 'e' ∨ c = 'E' then
      match cs with
      | '+' :: ds | '-' :: ds => (someWidth isDigitChar ds).map (2 + ·)
      | ds => (someWidth isDigitChar ds).map (1 + ·)
    else none
  | [] => none

/-- The characters up to `n` and the exponent behind them, if there is one. -/
def withExponent (cs : List Char) (n : Nat) : Nat := n + (exponentWidth (cs.drop n)).getD 0

/-- Digits, a point, perhaps more digits and an exponent. -/
def pointedWidth (cs : List Char) : Option Nat := do
  let n ← decimalWidth cs
  match cs.drop n with
  | '.' :: ds => some (withExponent cs (n + 1 + runWidth isDigitChar ds))
  | _ => none

/-- A point with digits behind it and perhaps an exponent. -/
def fractionWidth : List Char → Option Nat
  | '.' :: ds => (decimalWidth ds).map fun n => withExponent ('.' :: ds) (1 + n)
  | _ => none

/-- Digits with an exponent. -/
def scaledWidth (cs : List Char) : Option Nat := do
  let n ← decimalWidth cs
  let e ← exponentWidth (cs.drop n)
  return n + e

/-- The greater of two widths. -/
def wider : Option Nat → Option Nat → Option Nat
  | some m, some n => some (max m n)
  | m, none => m
  | none, n => n

def intWidth (cs : List Char) : Option Nat := wider (decimalWidth cs) (basedWidth cs)

def floatWidth (cs : List Char) : Option Nat :=
  wider (pointedWidth cs) (wider (fractionWidth cs) (scaledWidth cs))

/-- A number with an `i` right behind it. -/
def marked (cs : List Char) (width : Option Nat) : Option Nat := do
  let n ← width
  if cs[n]? = some 'i' then some (n + 1) else none

def imagWidth (cs : List Char) : Option Nat :=
  wider (marked cs (decimalWidth cs))
    (wider (marked cs (pointedWidth cs)) (wider (marked cs (fractionWidth cs)) (marked cs (scaledWidth cs))))

/-- Text up to and with an unescaped `quote` on the same line. -/
def quotedWidth (quote : Char) : List Char → Option Nat
  | [] => none
  | '\n' :: _ => none
  | '\\' :: '\n' :: _ => none
  | ['\\'] => none
  | '\\' :: _ :: cs => (quotedWidth quote cs).map (2 + ·)
  | c :: cs => if c = quote then some 1 else (quotedWidth quote cs).map (1 + ·)

/-- A rune has at least one character between its quotes. -/
def charWidth : List Char → Option Nat
  | '\'' :: '\'' :: _ => none
  | '\'' :: cs => (quotedWidth '\'' cs).map (1 + ·)
  | _ => none

def rawQuote : Char := '\x60'

def rawWidth (cs : List Char) : Option Nat :=
  let n := runWidth (· ≠ rawQuote) cs
  if n < cs.length then some (n + 2) else none

def commentEnd : List Char → Option Nat
  | [] => none
  | '*' :: '/' :: _ => some 2
  | _ :: cs => (commentEnd cs).map (1 + ·)

/-! ## Lexemes -/

def spellings : List (List Char × Symbol) := Symbol.all.map fun s => (s.text.toList, s)

/-- The longest symbol at the start of the text: those that extend others come first. -/
def symbolAt (cs : List Char) : Option (List Char × Symbol) := spellings.find? fun p => p.1.isPrefixOf cs

def wordToken (s : String) : Token :=
  match Keyword.ofWord? s with
  | some k => .keyword k
  | none => .ident s

/-- The widest of several readings, the first of equals. -/
def widest : List (Option Nat × (String → Token)) → Option (Nat × (String → Token))
  | [] => none
  | (none, _) :: rest => widest rest
  | (some n, make) :: rest =>
    match widest rest with
    | some (m, make') => if n < m then some (m, make') else some (n, make)
    | none => some (n, make)

def cut (make : String → Token) (n : Nat) (cs : List Char) : Lexeme × Nat :=
  (.token (make (String.ofList (cs.take n))), n)

def numberLexeme (cs : List Char) : Option (Lexeme × Nat) :=
  (widest [(intWidth cs, .int), (floatWidth cs, .float), (imagWidth cs, .imag)]).map fun (n, make) => cut make n cs

def symbolLexeme (cs : List Char) : Option (Lexeme × Nat) :=
  (symbolAt cs).map fun (text, s) => (.token (.symbol s), text.length)

def lexeme : List Char → Option (Lexeme × Nat)
  | [] => none
  | '/' :: '/' :: cs => some (.blank, 2 + runWidth (· ≠ '\n') cs)
  | '/' :: '*' :: cs => (commentEnd cs).map fun n => (.comment ((cs.take n).contains '\n'), 2 + n)
  | '.' :: c :: cs => if isDigit c then numberLexeme ('.' :: c :: cs) else symbolLexeme ('.' :: c :: cs)
  | c :: cs =>
    if c = '\n' then some (.lineBreak, 1)
    else if isBlank c then some (.blank, 1 + runWidth isBlank cs)
    else if isLetter c then some (cut wordToken (1 + runWidth isWordChar cs) (c :: cs))
    else if isDigit c then numberLexeme (c :: cs)
    else if c = '\'' then (charWidth (c :: cs)).map fun n => cut .char n (c :: cs)
    else if c = '"' then (quotedWidth '"' cs).map fun n => cut .string (1 + n) (c :: cs)
    else if c = rawQuote then (rawWidth cs).map fun n => cut .string n (c :: cs)
    else symbolLexeme (c :: cs)

/-- The lexemes of a text that begins at a byte offset, each with its own offset, or the offset where no lexeme
begins. -/
def lexemesFrom (offset : Nat) (cs : List Char) : Except Nat (List (Nat × Lexeme)) :=
  match cs with
  | [] => .ok []
  | c :: rest =>
    match lexeme (c :: rest) with
    | none => .error offset
    | some (l, n) =>
      match lexemesFrom (offset + byteLength ((c :: rest).take n)) (rest.drop (n - 1)) with
      | .ok ls => .ok ((offset, l) :: ls)
      | .error e => .error e
termination_by cs.length
decreasing_by simp only [List.length_drop, List.length_cons]; omega

/-! ## Statement ends -/

/-- The lexemes as tokens. `canEnd` says whether a line break would end a statement here, `stop` is where the
text ends. -/
def place (index : LineIndex) (stop : Nat) (canEnd : Bool) : List (Nat × Lexeme) → List Placed
  | [] =>
    (if canEnd then [⟨.newline, index.pos stop⟩] else []) ++ [⟨.eof, index.pos stop⟩]
  | (_, .blank) :: ls | (_, .comment false) :: ls => place index stop canEnd ls
  | (o, .lineBreak) :: ls | (o, .comment true) :: ls =>
    (if canEnd then [⟨.newline, index.pos o⟩] else []) ++ place index stop false ls
  | (o, .token t) :: ls => ⟨t, index.pos o⟩ :: place index stop t.endsStatement ls

end Scan

def tokenize (source : String) : Except Pos (List Placed) :=
  let cs := source.toList
  let index := LineIndex.ofChars cs
  match Scan.lexemesFrom 0 cs with
  | .ok ls => .ok (Scan.place index (byteLength cs) false ls)
  | .error offset => .error (index.pos offset)

end GameMedia.Shader
