import GameMedia.Audio.BitReader
import GameMedia.Audio.Error
import GameMedia.Audio.Huffman.Codes

/-!
# Huffman codes

Frequency lines are coded in pairs, and further up, where they are at most one, in quadruples. A code is read down a
tree. Behind it stand the bits by which a value exceeds the table, and the signs.
-/

namespace GameMedia.Audio

namespace Huffman

/-! ## Trees -/

/-- A tree of codes: a bit of a code goes to the left if it is zero. -/
inductive Tree where
  | empty
  | leaf (value : Nat)
  | node (zero one : Tree)
  deriving Inhabited

namespace Tree

def insert (value : Nat) : List Bool → Tree → Tree
  | [], _ => .leaf value
  | false :: bs, .node l r => .node (insert value bs l) r
  | true :: bs, .node l r => .node l (insert value bs r)
  | false :: bs, _ => .node (insert value bs .empty) .empty
  | true :: bs, _ => .node .empty (insert value bs .empty)

def codeBits (code : Nat) : Nat → List Bool
  | 0 => []
  | n + 1 => code.testBit n :: codeBits code n

def insertAll (value : Nat → Nat) (i : Nat) (t : Tree) : CodeTable → Tree
  | [] => t
  | (code, length) :: rest => insertAll value (i + 1) (insert (value i) (codeBits code length) t) rest

def ofTable (table : CodeTable) (value : Nat → Nat) : Tree := insertAll value 0 .empty table

/-- Reads a code. There is none if the bits lead to an empty tree. -/
def read : Tree → BitRead (Option Nat)
  | .empty => pure none
  | .leaf value => pure (some value)
  | .node l r => do if ← BitRead.bit then r.read else l.read

end Tree

/-! ## Tables -/

/-- A table with the number of values in its rows. -/
structure Book where
  codes : CodeTable
  width : Nat

def Book.tree (b : Book) : Tree := .ofTable b.codes fun i => 16 * (i / b.width) + i % b.width

/-- The book of each table of pairs, and the number of bits by which its greatest value may be exceeded. Three tables
code nothing. -/
def pairBook? : Nat → Option (Book × Nat)
  | 1 => some (⟨pairs1, 2⟩, 0)
  | 2 => some (⟨pairs2, 3⟩, 0)
  | 3 => some (⟨pairs3, 3⟩, 0)
  | 5 => some (⟨pairs5, 4⟩, 0)
  | 6 => some (⟨pairs6, 4⟩, 0)
  | 7 => some (⟨pairs7, 6⟩, 0)
  | 8 => some (⟨pairs8, 6⟩, 0)
  | 9 => some (⟨pairs9, 6⟩, 0)
  | 10 => some (⟨pairs10, 8⟩, 0)
  | 11 => some (⟨pairs11, 8⟩, 0)
  | 12 => some (⟨pairs12, 8⟩, 0)
  | 13 => some (⟨pairs13, 16⟩, 0)
  | 15 => some (⟨pairs15, 16⟩, 0)
  | 16 => some (⟨pairs16, 16⟩, 1)
  | 17 => some (⟨pairs16, 16⟩, 2)
  | 18 => some (⟨pairs16, 16⟩, 3)
  | 19 => some (⟨pairs16, 16⟩, 4)
  | 20 => some (⟨pairs16, 16⟩, 6)
  | 21 => some (⟨pairs16, 16⟩, 8)
  | 22 => some (⟨pairs16, 16⟩, 10)
  | 23 => some (⟨pairs16, 16⟩, 13)
  | 24 => some (⟨pairs24, 16⟩, 4)
  | 25 => some (⟨pairs24, 16⟩, 5)
  | 26 => some (⟨pairs24, 16⟩, 6)
  | 27 => some (⟨pairs24, 16⟩, 7)
  | 28 => some (⟨pairs24, 16⟩, 8)
  | 29 => some (⟨pairs24, 16⟩, 9)
  | 30 => some (⟨pairs24, 16⟩, 11)
  | 31 => some (⟨pairs24, 16⟩, 13)
  | _ => none

def pairTrees : Array (Option (Tree × Nat)) :=
  (Array.range 32).map fun t => (pairBook? t).map fun (b, extra) => (b.tree, extra)

def quadTreeA : Tree := .ofTable quadsA id

def quadTreeB : Tree := .ofTable quadsB id

/-! ## Values -/

def signed (magnitude : Nat) : BitRead Int := do
  if magnitude = 0 then return 0
  else if ← BitRead.bit then return -magnitude
  else return magnitude

def extended (extra value : Nat) : BitRead Int := do
  if 0 < extra ∧ value = 15 then signed (value + (← BitRead.bits extra)) else signed value

abbrev CodeRead : Type → Type := ExceptT AudioError BitRead

def readPair (table : Nat) : CodeRead (Int × Int) := do
  match pairTrees.getD table none with
  | none => return (0, 0)
  | some (tree, extra) =>
    match ← tree.read with
    | none => throw (.badCode table)
    | some value =>
      let x ← extended extra (value / 16)
      let y ← extended extra (value % 16)
      return (x, y)

def quadValues (value : Nat) : BitRead (List Int) := do
  let v ← signed (value / 8 % 2)
  let w ← signed (value / 4 % 2)
  let x ← signed (value / 2 % 2)
  let y ← signed (value % 2)
  return [v, w, x, y]

def readQuad (tableB : Bool) : CodeRead (List Int) := do
  match ← (if tableB then quadTreeB else quadTreeA).read with
  | none => throw (.badCode (if tableB then 33 else 32))
  | some value => quadValues value

end Huffman

end GameMedia.Audio
