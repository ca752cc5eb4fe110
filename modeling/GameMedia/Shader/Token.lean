import GameMedia.Shader.Source

/-!
# Tokens

The words and symbols of shader source. The language has the keywords of its family also where it has no use
for them, so that a program using them is told what is missing.
-/

namespace GameMedia.Shader

inductive Keyword where
  | «break»
  | case
  | chan
  | const
  | «continue»
  | default
  | defer
  | «else»
  | fallthrough
  | «for»
  | func
  | go
  | goto
  | «if»
  | «import»
  | interface
  | map
  | package
  | range
  | «return»
  | select
  | struct
  | switch
  | type
  | var
  deriving DecidableEq, Repr, Inhabited

namespace Keyword

def text : Keyword → String
  | «break» => "break"
  | case => "case"
  | chan => "chan"
  | const => "const"
  | «continue» => "continue"
  | default => "default"
  | defer => "defer"
  | «else» => "else"
  | fallthrough => "fallthrough"
  | «for» => "for"
  | func => "func"
  | go => "go"
  | goto => "goto"
  | «if» => "if"
  | «import» => "import"
  | interface => "interface"
  | map => "map"
  | package => "package"
  | range => "range"
  | «return» => "return"
  | select => "select"
  | struct => "struct"
  | switch => "switch"
  | type => "type"
  | var => "var"

def all : List Keyword :=
  [«break», case, chan, const, «continue», default, defer, «else», fallthrough, «for», func, go, goto, «if»,
    «import», interface, map, package, range, «return», select, struct, switch, type, var]

def ofWord? (s : String) : Option Keyword := all.find? fun k => k.text == s

end Keyword

inductive Symbol where
  | add
  | sub
  | mul
  | quo
  | rem
  | and
  | or
  | xor
  | shl
  | shr
  | andNot
  | addAssign
  | subAssign
  | mulAssign
  | quoAssign
  | remAssign
  | andAssign
  | orAssign
  | xorAssign
  | shlAssign
  | shrAssign
  | andNotAssign
  | logicalAnd
  | logicalOr
  | arrow
  | inc
  | dec
  | eql
  | less
  | greater
  | assign
  | not
  | notEqual
  | lessEqual
  | greaterEqual
  | define
  | ellipsis
  | leftParen
  | rightParen
  | leftBracket
  | rightBracket
  | leftBrace
  | rightBrace
  | comma
  | period
  | semicolon
  | colon
  deriving DecidableEq, Repr, Inhabited

namespace Symbol

def text : Symbol → String
  | add => "+"
  | sub => "-"
  | mul => "*"
  | quo => "/"
  | rem => "%"
  | and => "&"
  | or => "|"
  | xor => "^"
  | shl => "<<"
  | shr => ">>"
  | andNot => "&^"
  | addAssign => "+="
  | subAssign => "-="
  | mulAssign => "*="
  | quoAssign => "/="
  | remAssign => "%="
  | andAssign => "&="
  | orAssign => "|="
  | xorAssign => "^="
  | shlAssign => "<<="
  | shrAssign => ">>="
  | andNotAssign => "&^="
  | logicalAnd => "&&"
  | logicalOr => "||"
  | arrow => "<-"
  | inc => "++"
  | dec => "--"
  | eql => "=="
  | less => "<"
  | greater => ">"
  | assign => "="
  | not => "!"
  | notEqual => "!="
  | lessEqual => "<="
  | greaterEqual => ">="
  | define => ":="
  | ellipsis => "..."
  | leftParen => "("
  | rightParen => ")"
  | leftBracket => "["
  | rightBracket => "]"
  | leftBrace => "\x7b"
  | rightBrace => "\x7d"
  | comma => ","
  | period => "."
  | semicolon => ";"
  | colon => ":"

/-- Every symbol, each behind those whose text it begins. -/
def all : List Symbol :=
  [shlAssign, shrAssign, andNotAssign, ellipsis, shl, shr, andNot, addAssign, subAssign, mulAssign, quoAssign,
    remAssign, andAssign, orAssign, xorAssign, logicalAnd, logicalOr, arrow, inc, dec, eql, notEqual, lessEqual,
    greaterEqual, define, add, sub, mul, quo, rem, and, or, xor, less, greater, assign, not, leftParen,
    rightParen, leftBracket, rightBracket, leftBrace, rightBrace, comma, period, semicolon, colon]

end Symbol

inductive Token where
  | ident (name : String)
  | int (text : String)
  | float (text : String)
  | imag (text : String)
  | char (text : String)
  | string (text : String)
  | keyword (k : Keyword)
  | symbol (s : Symbol)
  /-- A semicolon that a line end stands for. -/
  | newline
  | eof
  deriving DecidableEq, Repr, Inhabited

namespace Token

def text : Token → String
  | ident s | int s | float s | imag s | char s | string s => s
  | keyword k => k.text
  | symbol s => s.text
  | newline => "newline"
  | eof => "EOF"

def endsStatement : Token → Bool
  | ident _ | int _ | float _ | imag _ | char _ | string _ => true
  | keyword k => k = .break || k = .continue || k = .fallthrough || k = .return
  | symbol s => s = .inc || s = .dec || s = .rightParen || s = .rightBracket || s = .rightBrace
  | newline | eof => false

/-- A written semicolon or a line end in its place. -/
def isSemicolon : Token → Bool
  | symbol .semicolon | newline => true
  | _ => false

def describe : Token → String
  | ident s => "identifier " ++ s
  | int s | float s | imag s | char s | string s => "literal " ++ s
  | newline => "newline"
  | eof => "EOF"
  | keyword k => "'" ++ k.text ++ "'"
  | symbol s => "'" ++ s.text ++ "'"

end Token

/-- A token where it stands. -/
structure Placed where
  token : Token
  pos : Pos
  deriving DecidableEq, Repr, Inhabited

end GameMedia.Shader
