/-!
# Operators

The operators of checked code. Multiplication and equality are split by the shape of their operands, because
the targets write them differently.
-/

namespace GameMedia.Shader

inductive Op where
  | add
  | sub
  | not
  | componentMul
  | matrixMul
  | div
  | mod
  | shl
  | shr
  | lt
  | le
  | gt
  | ge
  | eq
  | ne
  | vectorEq
  | vectorNe
  | and
  | xor
  | or
  | andAnd
  | orOr
  deriving DecidableEq, Repr, Inhabited

namespace Op

def text : Op → String
  | add => "+"
  | sub => "-"
  | not => "!"
  | componentMul | matrixMul => "*"
  | div => "/"
  | mod => "%"
  | shl => "<<"
  | shr => ">>"
  | lt => "<"
  | le => "<="
  | gt => ">"
  | ge => ">="
  | eq | vectorEq => "=="
  | ne | vectorNe => "!="
  | and => "&"
  | xor => "^"
  | or => "|"
  | andAnd => "&&"
  | orOr => "||"

instance : ToString Op := ⟨text⟩

def isComparison : Op → Bool
  | lt | le | gt | ge | eq | ne => true
  | _ => false

end Op

end GameMedia.Shader
