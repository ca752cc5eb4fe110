/-!
# Source positions

Where something stands in source text. A position is found from a byte offset through an index of the offsets
at which lines start.
-/

namespace GameMedia.Shader

/-- A line and a column, both counted from one. Columns count bytes. -/
structure Pos where
  line : Nat
  col : Nat
  deriving DecidableEq, Repr, Inhabited

namespace Pos

def text (p : Pos) : String := s!"{p.line}:{p.col}"

instance : ToString Pos := ⟨text⟩

end Pos

def byteLength : List Char → Nat
  | [] => 0
  | c :: cs => c.utf8Size + byteLength cs

/-- The offsets at which lines start, in ascending order and without the first line's, which is zero. -/
structure LineIndex where
  starts : List Nat

namespace LineIndex

def startsFrom (offset : Nat) : List Char → List Nat
  | [] => []
  | c :: cs =>
    let next := offset + c.utf8Size
    if c = '\n' then next :: startsFrom next cs else startsFrom next cs

def ofChars (cs : List Char) : LineIndex := ⟨startsFrom 0 cs⟩

def posFrom (line start offset : Nat) : List Nat → Pos
  | [] => ⟨line, offset - start + 1⟩
  | s :: ss => if s ≤ offset then posFrom (line + 1) s offset ss else ⟨line, offset - start + 1⟩

def pos (index : LineIndex) (offset : Nat) : Pos := posFrom 1 0 offset index.starts

end LineIndex

/-- A complaint about one place of the source. -/
structure Diagnostic (ε : Type) where
  pos : Pos
  cause : ε
  deriving DecidableEq, Repr

namespace Diagnostic

variable {ε : Type}

def text (message : ε → String) (d : Diagnostic ε) : String := d.pos.text ++ ": " ++ message d.cause

def joined (message : ε → String) (ds : List (Diagnostic ε)) : String :=
  "\n".intercalate (ds.map (text message))

end Diagnostic

end GameMedia.Shader
