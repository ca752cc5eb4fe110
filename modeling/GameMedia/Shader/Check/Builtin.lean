import GameMedia.Shader.Check.Value

/-!
# Built-in functions

What a call of a built-in function gives for arguments whose pending shifts are settled. Constant arguments take the
scalar type that the function or the other arguments ask for.
-/

namespace GameMedia.Shader.Check

/-! ## Arguments -/

def convertConsts (scalar : Ty) : List Value → Except Complaint (List Value)
  | [] => .ok []
  | .const c :: vs =>
    match convert? c scalar with
    | none => .error (.constConversion c scalar)
    | some c => do return .typed (numberFor c scalar) scalar :: (← convertConsts scalar vs)
  | v :: vs => do return v :: (← convertConsts scalar vs)

def expectArity (f : Builtin) (want got : Nat) : Except Complaint Unit :=
  if got = want then .ok () else .error (.arity f want got)

def callBuiltin (f : Builtin) (args : List Value) (ty : Ty) : Value :=
  .typed (.call (.builtin f) (args.map Value.expr)) ty

/-! ## Constructors -/

def vectorShape? : Builtin → Option (Nat × Bool)
  | .vec2 => some (2, false)
  | .vec3 => some (3, false)
  | .vec4 => some (4, false)
  | .ivec2 => some (2, true)
  | .ivec3 => some (3, true)
  | .ivec4 => some (4, true)
  | _ => none

def matrixShape? : Builtin → Option (Nat × Ty)
  | .mat2 => some (2, .basic .mat2)
  | .mat3 => some (3, .basic .mat3)
  | .mat4 => some (4, .basic .mat4)
  | _ => none

/-- How many components an argument gives to a vector constructor. -/
def components? (isInt : Bool) (v : Value) : Option Nat :=
  match v with
  | .const (.int _) | .const (.float _) => some 1
  | v =>
    if v.ty.tag = (if isInt then .int else .float) then some 1
    else if (if isInt then v.ty.isIntVector else v.ty.isFloatVector) then some v.ty.dimension
    else none

def componentSum (f : Builtin) (isInt : Bool) : List Value → Except Complaint Nat
  | [] => .ok 0
  | v :: vs =>
    match components? isInt v with
    | none => .error (.builtinArgument f v.ty (.scalarOrVector isInt))
    | some n => do return n + (← componentSum f isInt vs)

/-- One argument is a scalar, which spreads, or a vector of the same size. More have the components together. -/
def checkVector (f : Builtin) (n : Nat) (isInt : Bool) (args : List Value) : Except Complaint Unit :=
  match args with
  | [] => .error (.fewArguments f.name)
  | [v] =>
    if components? isInt v = some 1 ∨ (v.ty.isVector ∧ v.ty.dimension = n) then .ok ()
    else .error (.vectorArgument f v.ty isInt n)
  | vs => do
    let total ← componentSum f isInt vs
    if n < total then throw (.manyArguments f.name)
    else if total < n then throw (.fewArguments f.name)
    else return ()

/-- Fails at the first argument of another type. -/
def allOf (f : Builtin) (ty : Ty) (wanted : Accepted) : List Value → Except Complaint Unit
  | [] => .ok ()
  | v :: vs => if v.ty = ty then allOf f ty wanted vs else .error (.builtinArgument f v.ty wanted)

/-- One argument is a scalar or a matrix of the same size, `n` are the columns, and `n * n` the elements. -/
def checkMatrix (f : Builtin) (n : Nat) (args : List Value) : Except Complaint Unit :=
  match args with
  | [] => .error (.fewArguments f.name)
  | [v] =>
    if v.ty = .float ∨ (v.ty.isMatrix ∧ v.ty.dimension = n) then .ok ()
    else .error (.builtinArgument f v.ty (.floatOrMatrix n))
  | vs =>
    let column := (Ty.floatVector? n).getD .none
    if vs.length = n then allOf f column (.column column) vs
    else if vs.length = n * n then allOf f .float .float vs
    else if n * n < vs.length then .error (.manyArguments f.name)
    else .error (.matrixArity f n vs.length)

def vectorValue (f : Builtin) (n : Nat) (isInt : Bool) (args : List Value) : Except Complaint Value := do
  checkVector f n isInt args
  let args ← convertConsts (if isInt then .int else .float) args
  return callBuiltin f args (((if isInt then Ty.intVector? n else Ty.floatVector? n)).getD .none)

def matrixValue (f : Builtin) (n : Nat) (ty : Ty) (args : List Value) : Except Complaint Value := do
  let args ← convertConsts .float args
  checkMatrix f n args
  return callBuiltin f args ty

/-! ## Scalar conversions -/

/-- A constant is converted exactly, so that one with a fraction is no integer. -/
def conversion (f : Builtin) (target : Ty) (v : Value) : Except Complaint Value :=
  match v.constant? with
  | some c =>
    match convert? c target with
    | some c => .ok (.typed (numberFor c target) target)
    | none => .error (.constConversion c target)
  | none =>
    if !(if target = .bool then v.ty = .bool else v.ty = .int ∨ v.ty = .float) then
      .error (.typeConversion v.ty target)
    else if v.ty = target then .ok v
    else .ok (callBuiltin f [v] target)

/-! ## Shader functions -/

/-- The scalar type that the constants among the arguments take: that of the others, which have to agree, or else
float if one of the constants is. -/
def commonScalar? (args : List Value) : Option Ty :=
  let scalars := args.filterMap fun v =>
    if v.ty.isIntegral then some Ty.int else if v.ty.isFloatLike then some Ty.float else none
  match scalars with
  | [] =>
    some (if args.any fun | .const (.float _) => true | _ => false then .float else .int)
  | t :: ts => if ts.all (· = t) then some t else none

def checkLater (f : Builtin) (first elem : Ty) : List Value → Except Complaint Unit
  | [] => .ok ()
  | v :: vs =>
    if v.ty = first ∨ v.ty = elem then checkLater f first elem vs
    else .error (.laterArgument f first elem v.ty)

def extremum (f : Builtin) (args : List Value) : Except Complaint Value := do
  match commonScalar? args with
  | none => throw (.builtinMismatch f (args.map Value.ty))
  | some scalar =>
    match ← convertConsts scalar args with
    | [] => throw (.fewArguments f.name)
    | v :: vs =>
      if !v.ty.isFloatLike ∧ !v.ty.isIntegral then throw (.builtinArgument f v.ty .floatOrInt)
      checkLater f v.ty (if v.ty.isIntVector ∨ v.ty = .int then .int else .float) vs
      return callBuiltin f (v :: vs) v.ty

def mathArity : Builtin → Nat
  | .atan2 | .pow | .mod | .step | .distance | .dot | .cross | .reflect => 2
  | .mix | .smoothstep | .faceforward | .refract => 3
  | _ => 1

/-- The type that a function of floats and float vectors gives. -/
def mathType? (f : Builtin) (tys : List Ty) : Option Ty :=
  match f, tys with
  | .length, _ => some .float
  | .atan2, [a, b] | .pow, [a, b] | .reflect, [a, b] => if a = b then some a else none
  | .mod, [a, b] => if a = b ∨ b = .float then some a else none
  | .step, [a, b] => if a = b ∨ a = .float then some b else none
  | .distance, [a, b] | .dot, [a, b] => if a = b then some .float else none
  | .cross, [a, b] => if a = .basic .vec3 ∧ b = .basic .vec3 then some (.basic .vec3) else none
  | .mix, [a, b, t] => if a = b ∧ (t = a ∨ t = .float) then some a else none
  | .smoothstep, [a, b, x] => if a = b ∧ (a = x ∨ a = .float) then some x else none
  | .faceforward, [a, b, c] => if a = b ∧ a = c then some a else none
  | .refract, [a, b, eta] => if a = b ∧ eta = .float then some a else none
  | _, a :: _ => some a
  | _, [] => none

/-- The type that a function gives for arguments of those types. -/
def mathResult (f : Builtin) (tys : List Ty) : Except Complaint Ty :=
  match f, tys with
  | .abs, [t] | .sign, [t] =>
    if t.isFloatLike ∨ t.isIntegral then .ok t else .error (.builtinArgument f t .floatOrInt)
  | .transpose, [t] => if t.isMatrix then .ok t else .error (.builtinArgument f t .matrix)
  | f, tys =>
    match tys.find? fun t => !t.isFloatLike with
    | some t => .error (.builtinArgument f t .floats)
    | none =>
      match mathType? f tys with
      | some t => .ok t
      | none => .error (.builtinMismatch f tys)

def math (f : Builtin) (args : List Value) : Except Complaint Value := do
  expectArity f (mathArity f) args.length
  let scalar := match args.find? fun v => !v.ty.isNone with
    | some v => if v.ty.isIntegral then Ty.int else .float
    | none => .float
  let args ← convertConsts scalar args
  let ty ← mathResult f (args.map Value.ty)
  return callBuiltin f args ty

/-! ## All of them -/

def arrayLength (f : Builtin) (args : List Value) : Except Complaint Value :=
  match args with
  | [v] =>
    if v.ty.tag = .array then .ok (.typed (numberFor (.int v.ty.length) .int) .int)
    else .error (.lenArgument f v.ty)
  | vs => .error (.arity f 1 vs.length)

def texel (f : Builtin) (args : List Value) : Except Complaint Value :=
  match args with
  | [t, p] =>
    if t.ty.tag ≠ .texture then .error (.builtinArgument f t.ty .texture)
    else if p.ty.tag ≠ .vec2 then .error (.builtinArgument f p.ty .vec2)
    else .ok (callBuiltin f args .vec4)
  | vs => .error (.arity f 2 vs.length)

def scalarConversion (f : Builtin) (target : Ty) (args : List Value) : Except Complaint Value :=
  match args with
  | [v] => conversion f target v
  | vs => .error (.arity f 1 vs.length)

def builtinValue (f : Builtin) (args : List Value) : Except Complaint Value :=
  match vectorShape? f, matrixShape? f with
  | some (n, isInt), _ => vectorValue f n isInt args
  | none, some (n, ty) => matrixValue f n ty args
  | none, none =>
    match f with
    | .len | .cap => arrayLength f args
    | .bool => scalarConversion f .bool args
    | .int => scalarConversion f .int args
    | .float => scalarConversion f .float args
    | .texelAt => texel f args
    | .clamp => do
      expectArity f 3 args.length
      extremum f args
    | .min | .max => if args.length < 2 then .error (.fewArguments f.name) else extremum f args
    | f => math f args

end GameMedia.Shader.Check
