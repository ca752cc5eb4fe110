import GameMedia.Shader.Program

/-!
# Reachability

Which functions a block can call, directly or through others, and which uniforms an entry point can read. The
call closure is a fixed number of rounds: a shortest chain of calls visits no function twice, so it is no longer
than the list of functions.
-/

namespace GameMedia.Shader

open Code

def insertAscending (n : Nat) : List Nat → List Nat
  | [] => [n]
  | m :: ms => if n < m then n :: m :: ms else if n = m then m :: ms else m :: insertAscending n ms

def ascending (ns : List Nat) : List Nat := ns.foldr insertAscending []

def Code.Block.calls (b : Block) : List Nat :=
  b.nodes.filterMap fun
    | .func i => some i
    | _ => none

def Code.Block.uniforms (b : Block) : List Nat :=
  b.nodes.filterMap fun
    | .uniform i => some i
    | _ => none

namespace Program

def callee? (p : Program) (i : Nat) : Option Func := p.funcs.reverse.find? fun f => f.index = i

def withCallees (p : Program) (is : List Nat) : List Nat :=
  ascending (is ++ is.flatMap fun i => (p.callee? i).elim [] fun f => f.body.calls)

def closeCalls (p : Program) : Nat → List Nat → List Nat
  | 0, is => is
  | n + 1, is => closeCalls p n (p.withCallees is)

/-- The functions that `b` can call, directly or through others, in ascending order. -/
def reachableFuncs (p : Program) (b : Block) : List Func :=
  (p.closeCalls p.funcs.length (ascending b.calls)).filterMap p.callee?

def runningBlocks (p : Program) (entry : Block) : List Block :=
  entry :: (p.reachableFuncs entry).map Func.body

/-- The uniforms that an entry point can read, in ascending order. -/
def reachableUniforms (p : Program) : List Nat :=
  let entries := p.vertex.toList ++ p.fragment.toList
  ascending ((entries.flatMap p.runningBlocks).flatMap Block.uniforms)

end Program

/-! ## Filtering -/

/-- The factor of each word of values one after another: one where the value is kept, else zero. The first value has
number `i`. -/
def factorsFrom (keep : Nat → Bool) : Nat → List Ty → List UInt32
  | _, [] => []
  | i, t :: ts => List.replicate t.dwordCount (if keep i then 1 else 0) ++ factorsFrom keep (i + 1) ts

def Program.uniformFactors (p : Program) : List UInt32 := factorsFrom p.reachableUniforms.contains 0 p.uniforms

/-- A program with the factors of its uniforms, once they were needed. -/
structure UniformFilter where
  program : Program
  factors : Option (List UInt32) := none

/-- Zeroes the unpacked values of the uniforms that no entry point reads. Tells what is in the buffer afterwards, also if
it has the wrong size. -/
def UniformFilter.apply (s : UniformFilter) (buffer : List UInt32) : Except Fault Unit × List UInt32 × UniformFilter :=
  let expected := Ty.dwordSum s.program.uniforms
  if buffer.length = expected then
    let factors := s.factors.getD s.program.uniformFactors
    (.ok (), List.zipWith (· * ·) buffer factors, { s with factors := some factors })
  else (.error (.uniformSize expected buffer.length), buffer, s)

/-- What a filter makes of a buffer that it is used for once. -/
def Program.filterUniforms (p : Program) (words : List UInt32) : Except Fault (List UInt32) :=
  match UniformFilter.apply ⟨p, none⟩ words with
  | (.ok (), words, _) => .ok words
  | (.error e, _, _) => .error e

end GameMedia.Shader
