import Mathlib
import GameMedia.Shader.Body
import GameMedia.Shader.Check.Typing

/-!
# Typing of checked code

The types of checked code, inferred from its declarations alone: the parameters, the variables that blocks and loops
declare, the uniforms and the signatures of the functions. Nothing here knows how code comes to be. A body whose types
fit in this sense is what every target relies on.

Indices are not unique, so a context is a function that an inner block overrides where it declares something, and a
loop where its counter lives.
-/

namespace GameMedia.Shader

/-! ## Types of values -/

namespace Ty

def Plain (t : Ty) : Prop :=
  t ∈ [bool, int, float, basic .vec2, basic .vec3, vec4, basic .ivec2, basic .ivec3, basic .ivec4, basic .mat2,
    basic .mat3, basic .mat4]

instance (t : Ty) : Decidable t.Plain := inferInstanceAs (Decidable (_ ∈ _))

/-- What a variable can hold: a plain value or an array of them. -/
def Storable : Ty → Prop
  | mk .array [t] _ => t.Plain
  | t => t.Plain

instance : (t : Ty) → Decidable t.Storable
  | mk .array [t] _ => inferInstanceAs (Decidable t.Plain)
  | mk .array [] _ | mk .array (_ :: _ :: _) _ => inferInstanceAs (Decidable (Plain _))
  | mk .none _ _ | mk .bool _ _ | mk .int _ _ | mk .float _ _ | mk .vec2 _ _ | mk .vec3 _ _ | mk .vec4 _ _
  | mk .ivec2 _ _ | mk .ivec3 _ _ | mk .ivec4 _ _ | mk .mat2 _ _ | mk .mat3 _ _ | mk .mat4 _ _ | mk .texture _ _
  | mk .struct _ _ => inferInstanceAs (Decidable (Plain _))

end Ty

/-! ## Signatures of the built-in functions -/

namespace Builtin

/-- The components that a value of a type brings to a vector of integers or of floats. -/
def components? (isInt : Bool) (t : Ty) : Option Nat :=
  if t = (if isInt then .int else .float) then some 1
  else if if isInt then t.isIntVector else t.isFloatVector then some t.dimension
  else none

/-- A vector is made of one scalar, of another vector of its size, or of parts that have its components together. -/
def makesVector (n : Nat) (isInt : Bool) (ts : List Ty) : Bool :=
  match ts with
  | [] => false
  | [t] => t = (if isInt then .int else .float) || t.isVector && t.dimension = n
  | ts => ts.all (fun t => (components? isInt t).isSome) && (ts.filterMap (components? isInt)).sum = n

/-- A matrix is made of one scalar, of another matrix of its size, of its columns or of its elements. -/
def makesMatrix (n : Nat) (ts : List Ty) : Bool :=
  match ts with
  | [t] => t = .float || t.isMatrix && t.dimension = n
  | ts => ts.length = n && ts.all (fun t => some t = Ty.floatVector? n) || ts.length = n * n && ts.all (· = .float)

/-- The functions of a float or a float vector that give a value of the same type. -/
def isPointwise : Builtin → Bool
  | radians | degrees | sin | cos | tan | asin | acos | atan | exp | log | exp2 | log2 | sqrt | inversesqrt | floor
  | ceil | fract | normalize | dfdx | dfdy | fwidth => true
  | _ => false

/-- What a call gives for arguments of those types. -/
def result? (f : Builtin) (ts : List Ty) : Option Ty :=
  let when (p : Bool) (t : Ty) : Option Ty := if p then some t else none
  match f, ts with
  | vec2, ts => when (makesVector 2 false ts) (.basic .vec2)
  | vec3, ts => when (makesVector 3 false ts) (.basic .vec3)
  | vec4, ts => when (makesVector 4 false ts) .vec4
  | ivec2, ts => when (makesVector 2 true ts) (.basic .ivec2)
  | ivec3, ts => when (makesVector 3 true ts) (.basic .ivec3)
  | ivec4, ts => when (makesVector 4 true ts) (.basic .ivec4)
  | mat2, ts => when (makesMatrix 2 ts) (.basic .mat2)
  | mat3, ts => when (makesMatrix 3 ts) (.basic .mat3)
  | mat4, ts => when (makesMatrix 4 ts) (.basic .mat4)
  | bool, [t] => when (t = .bool) .bool
  | int, [t] => when (t = .int || t = .float) .int
  | float, [t] => when (t = .int || t = .float) .float
  | abs, [t] | sign, [t] => when (t.isFloatLike || t.isIntegral) t
  | transpose, [t] => when t.isMatrix t
  | length, [t] => when t.isFloatLike .float
  | distance, [a, b] | dot, [a, b] => when (a.isFloatLike && a = b) .float
  | cross, [a, b] => when (a = .basic .vec3 && b = .basic .vec3) (.basic .vec3)
  | atan2, [a, b] | pow, [a, b] | reflect, [a, b] => when (a.isFloatLike && a = b) a
  | mod, [a, b] => when (a.isFloatLike && (a = b || b = .float)) a
  | step, [a, b] => when (b.isFloatLike && (a = b || a = .float)) b
  | mix, [a, b, t] => when (a.isFloatLike && a = b && (t = a || t = .float)) a
  | smoothstep, [a, b, x] => when (x.isFloatLike && a = b && (a = x || a = .float)) x
  | faceforward, [a, b, c] => when (a.isFloatLike && a = b && a = c) a
  | refract, [a, b, eta] => when (a.isFloatLike && a = b && eta = .float) a
  | clamp, [t, a, b] => when ((t.isFloatLike || t.isIntegral) && [a, b].all fun u => u = t || some u = Check.scalarOf? t) t
  | min, t :: u :: us | max, t :: u :: us =>
    when ((t.isFloatLike || t.isIntegral) && (u :: us).all fun u => u = t || some u = Check.scalarOf? t) t
  | texelAt, [t, p] => when (t = .texture && p = .basic .vec2) .vec4
  | frontFacing, [] => some .bool
  | f, [t] => when (f.isPointwise && t.isFloatLike) t
  | _, _ => none

end Builtin

namespace Code

/-! ## Expressions -/

structure FuncType where
  ins : List Ty
  outs : List Ty
  result : Ty
  deriving DecidableEq

/-- What stands around a body: the declarations of its file and what kind of body it is. -/
structure Setting where
  uniforms : List Ty
  textures : Nat
  funcs : Nat → Option FuncType
  kind : BodyKind
  /-- `Ty.none` if the body returns nothing. -/
  result : Ty
  /-- Whether a constant may be shifted by an integer vector. No operator rule allows it. -/
  vectorCounts : Bool := false

/-- The types of the local variables, `Ty.none` for the slot of a loop counter outside its loop. -/
abbrev Locals : Type := Nat → Option Ty

def Locals.enter (Γ : Locals) (vars : List Ty) (offset : Nat) : Locals := fun i =>
  if offset ≤ i ∧ i < offset + vars.length then vars[i - offset]? else Γ i

/-- The locals with another type for one of them. -/
def Locals.set (Γ : Locals) (i : Nat) (t : Ty) : Locals := fun j => if j = i then some t else Γ j

def Hint.ofKind : Constant.Kind → Hint
  | .bool => .bool
  | .int => .int
  | .float => .float

def unaryType? (op : Op) (t : Ty) : Option Ty :=
  match op with
  | .add | .sub => if t.isNumeric then some t else none
  | .not => if t = .bool then some .bool else none
  | _ => none

def Op.isShift (op : Op) : Bool := op = .shl || op = .shr

def Expr.isNumber : Expr → Bool
  | .number _ _ => true
  | _ => false

namespace Setting

/-- The type of an operator whose left operand is `l`. -/
def binaryType? (S : Setting) (op : Op) (l : Expr) (tl tr : Ty) : Option Ty :=
  if S.vectorCounts && Op.isShift op && l.isNumber && tl = .int && tr.isIntegral then some .int
  else Check.binaryType? op tl tr

end Setting

section

variable (S : Setting) (Γ : Locals)

mutual

/-- The type of an expression. Only a fragment has a front. -/
def Expr.type? : Expr → Option Ty
  | .number c h => if h = Hint.ofKind c.kind then some (Check.defaultType c) else none
  | .uniform i => S.uniforms[i]?
  | .texture i => if i < S.textures then some .texture else none
  | .localVar i => (Γ i).filter fun t => !t.isNone
  | .unary op e => do unaryType? op (← e.type?)
  | .binary op l r => do
    let tl ← l.type?
    let tr ← r.type?
    S.binaryType? op l tl tr
  | .call (.builtin f) args => do
    let ts ← types? args
    if f = .frontFacing ∧ S.kind ≠ .fragment then none else f.result? ts
  | .call (.func i) args => do
    let f ← S.funcs i
    let ts ← types? args
    if f.outs = [] ∧ f.result ≠ .none ∧ ts = f.ins then some f.result else none
  | .field b (.swizzle s) => do Check.swizzleType? (← b.type?) s
  | .index b i => do
    let t ← b.type?
    let ti ← i.type?
    if ti = .int then (Check.elements? t).map Prod.fst else none
  | _ => none

def types? : List Expr → Option (List Ty)
  | [] => some []
  | e :: es => do
    let t ← e.type?
    let ts ← types? es
    return t :: ts

end

end

/-! ## Statements -/

def Expr.local? : Expr → Option Nat
  | .localVar i => some i
  | _ => none

/-- Output arguments are variables, and no two are the same. -/
def DistinctLocals (es : List Expr) : Prop := (∀ e ∈ es, e.local?.isSome) ∧ (es.filterMap Expr.local?).Nodup

instance (es : List Expr) : Decidable (DistinctLocals es) := inferInstanceAs (Decidable (_ ∧ _))

/-- The counter is an integer or a float, the three constants are of its kind, and it moves. -/
def Counter.Typed (c : Counter) : Prop :=
  (c.ty = .int ∨ c.ty = .float) ∧ (∀ k ∈ [c.start, c.stop, c.step], Check.defaultType k = c.ty) ∧
    c.op.isComparison = true ∧ c.step.sign ≠ 0

section

variable (S : Setting)

/-- An expression as a statement. Only here can a function be called that has outputs: these are its last arguments. -/
def Expr.Runs (Γ : Locals) : Expr → Prop
  | .call (.func i) args =>
    (S.funcs i).any fun f => types? S Γ args = some (f.ins ++ f.outs) ∧ DistinctLocals (args.drop f.ins.length)
  | e => (e.type? S Γ).isSome

mutual

def Stmt.Typed (inLoop : Bool) (Γ : Locals) : Stmt → Prop
  | .expr e => e.Runs S Γ
  | .block b => Block.Typed inLoop Γ b
  | .assign l r => (l.type? S Γ).isSome ∧ l.type? S Γ = r.type? S Γ
  | .init i => (Expr.type? S Γ (.localVar i)).isSome
  | .branch c t none => c.type? S Γ = some .bool ∧ Block.Typed inLoop Γ t
  | .branch c t (some f) => c.type? S Γ = some .bool ∧ Block.Typed inLoop Γ t ∧ Block.Typed inLoop Γ f
  | .loop c b => c.Typed ∧ Γ c.index = some .none ∧ Block.Typed true (Γ.set c.index c.ty) b
  | .next | .leave => inLoop = true
  | .ret none => S.result = .none
  | .ret (some e) => S.result ≠ .none ∧ e.type? S Γ = some S.result
  | .discard => S.kind = .fragment

/-- A block declares storable variables and slots of loop counters. -/
def Block.Typed (inLoop : Bool) (Γ : Locals) : Block → Prop
  | .mk vars offset ss => (∀ t ∈ vars, t = .none ∨ t.Storable) ∧ stmtsTyped inLoop (Γ.enter vars offset) ss

def stmtsTyped (inLoop : Bool) (Γ : Locals) : List Stmt → Prop
  | [] => True
  | s :: ss => Stmt.Typed inLoop Γ s ∧ stmtsTyped inLoop Γ ss

end

end

end Code

/-! ## Programs -/

open Code

def Func.type (f : Func) : FuncType := ⟨f.ins, f.outs, f.result⟩

namespace Program

def setting (p : Program) (vectorCounts : Bool) (kind : BodyKind) (result : Ty) : Setting where
  uniforms := p.uniforms
  textures := p.textureCount
  funcs := fun i => (p.func? i).map Func.type
  kind
  result
  vectorCounts

/-- Every body with the type it returns. -/
def bodies (p : Program) : List (Body × Ty) :=
  p.vertex.toList.map (fun b => (.ofVertex p b, .none)) ++ p.fragment.toList.map (fun b => (.ofFragment p b, .vec4))
    ++ p.funcs.map fun f => (.ofFunc f, f.result)

/-- The types of all bodies fit, and a function with outputs returns nothing. -/
def Typed (p : Program) (vectorCounts : Bool) : Prop :=
  (∀ b ∈ p.bodies, b.1.top.Typed (p.setting vectorCounts b.1.kind b.2) false fun i => b.1.params[i]?) ∧
    ∀ f ∈ p.funcs, f.outs ≠ [] → f.result = .none

end Program

end GameMedia.Shader
