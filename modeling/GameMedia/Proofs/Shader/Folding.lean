import GameMedia.Proofs.Shader.Soundness

/-!
# Folding of constants

An expression without variables has a value in exact arithmetic: integers without bounds, rational numbers and truth
values. The tables of this arithmetic stand here on their own, in terms of the operations of mathematics, and the checker
is compared with them. It computes that value and writes nothing, or it refuses the expression. It refuses what has no
value, and beyond that only shifts that go too far and one operator that it does not know.

What the checker keeps true of code says the rest: no operator is left whose operands are all numbers.
-/

namespace GameMedia.Shader

open List

/-! ## Exact arithmetic -/

namespace Exact

open Surface (BinaryOp UnaryOp)

/-- Operators on integers. Division rounds toward zero, and the remainder goes with it. Bits are those of two's
complement. -/
def integer? (op : BinaryOp) (a b : ℤ) : Option ℤ :=
  match op with
  | .add => some (a + b)
  | .sub => some (a - b)
  | .mul => some (a * b)
  | .quo => if b = 0 then none else some (a.tdiv b)
  | .rem => if b = 0 then none else some (a.tmod b)
  | .and => some (a.land b)
  | .or => some (a.lor b)
  | .xor => some (a.xor b)
  | .andNot => some (a.ldiff b)
  | _ => none

def rational? (op : BinaryOp) (a b : ℚ) : Option ℚ :=
  match op with
  | .add => some (a + b)
  | .sub => some (a - b)
  | .mul => some (a * b)
  | .quo => if b = 0 then none else some (a / b)
  | _ => none

/-- Shifts of an integer by a power of two. A shift to the right rounds down. -/
def shift? (op : BinaryOp) (n count : ℤ) : Option ℤ :=
  if count < 0 then none
  else
    match op with
    | .shl => some (n * 2 ^ count.toNat)
    | .shr => some ⌊(n : ℚ) / 2 ^ count.toNat⌋
    | _ => none

def comparison? (op : BinaryOp) (a b : ℚ) : Option Bool :=
  match op with
  | .eq => some (a = b)
  | .ne => some (a ≠ b)
  | .lt => some (a < b)
  | .le => some (a ≤ b)
  | .gt => some (a > b)
  | .ge => some (a ≥ b)
  | _ => none

def truth? (op : BinaryOp) (a b : Bool) : Option Bool :=
  match op with
  | .logicalAnd => some (a && b)
  | .logicalOr => some (a || b)
  | .eq => some (a = b)
  | .ne => some (a ≠ b)
  | _ => none

def unary? : UnaryOp → Constant → Option Constant
  | .plus, .int n => some (.int n)
  | .plus, .float q => some (.float q)
  | .neg, .int n => some (.int (-n))
  | .neg, .float q => some (.float (-q))
  | .not, .bool b => some (.bool !b)
  | _, _ => none

/-- The value of an operator other than a shift. Numbers are compared as rationals, and any other operator is rational if
an operand is. -/
def combine? (op : BinaryOp) : Constant → Constant → Option Constant
  | .bool a, .bool b => (truth? op a b).map .bool
  | .int a, .int b => ((comparison? op a b).map .bool).or ((integer? op a b).map .int)
  | a, b => do
    let x ← a.number?
    let y ← b.number?
    ((comparison? op x y).map .bool).or ((rational? op x y).map .float)

/-- The value of an operator. Shifts are those of integers, also where these are written as floats. -/
def binary? (op : BinaryOp) (a b : Constant) : Option Constant :=
  match op with
  | .shl | .shr => do
    let n ← a.integer?
    let count ← b.integer?
    (shift? op n count).map .int
  | op => combine? op a b

end Exact

namespace Surface

/-- The operator is folded if its right operand has that value. Shifts have a limit. -/
def BinaryOp.Folds (op : BinaryOp) (r : Constant) : Prop :=
  op ≠ .andNot ∧ (op = .shl ∨ op = .shr → ∀ n, r.integer? = some n → n ≤ Constant.maxShift)

namespace Expr

/-- An expression of literals, truth values, parentheses and operators. -/
def IsConstant : Expr → Prop
  | ident _ name => name = "true" ∨ name = "false"
  | literal _ kind _ => kind = .int ∨ kind = .float
  | paren _ e => e.IsConstant
  | unary _ op e => (op = .plus ∨ op = .neg ∨ op = .not) ∧ e.IsConstant
  | binary _ l r => l.IsConstant ∧ r.IsConstant
  | _ => False

def exactValue? : Expr → Option Constant
  | ident _ name => if name = "true" then some (.bool true) else if name = "false" then some (.bool false) else none
  | literal _ .int s => Constant.ofIntLiteral? s
  | literal _ .float s => Constant.ofFloatLiteral? s
  | paren _ e => e.exactValue?
  | unary _ op e => do Exact.unary? op (← e.exactValue?)
  | binary op l r => do Exact.binary? op (← l.exactValue?) (← r.exactValue?)
  | _ => none

def Folds : Expr → Prop
  | paren _ e | unary _ _ e => e.Folds
  | binary op l r => l.Folds ∧ r.Folds ∧ ∀ c, r.exactValue? = some c → op.Folds c
  | _ => True

end Expr

end Surface

namespace Check

open Surface (BinaryOp UnaryOp)

variable {a : Constant} {op : BinaryOp} {count : ℤ} {v : Value}

/-! ## Operators -/

/-- What a constant is while it is checked: a truth value has its type, a number has none yet. -/
def Value.folded : Constant → Value
  | .bool b => .ofBool b
  | c => .const c

theorem toOption_eq_some {ε α : Type} {x : Except ε α} {a : α} : x.toOption = some a ↔ x = .ok a := by
  cases x with
  | error e => exact ⟨nofun, nofun⟩
  | ok b => exact ⟨fun h => congrArg _ (Option.some.inj h), fun h => congrArg _ (Except.ok.inj h)⟩

theorem toOption_bind (x : Except ε α) (f : α → Except ε β) :
    (x >>= f).toOption = x.toOption.bind fun a => (f a).toOption := by
  cases x <;> rfl

/-- Bits of one number that are not bits of another, from the other side. -/
theorem bitwise_not_and (m n : ℕ) : Nat.bitwise (fun x y => !x && y) m n = n.ldiff m := by
  rw [show (fun x y => !x && y) = Function.swap fun x y => x && !y by funext x y; exact Bool.and_comm _ _,
    Nat.bitwise_swap]
  rfl

theorem bitwise_and (a b : ℤ) : bitwise (· && ·) a b = a.land b := by
  cases a <;> cases b <;> simp [bitwise, Int.land, bitwise_not_and] <;> rfl

theorem bitwise_or (a b : ℤ) : bitwise (· || ·) a b = a.lor b := by
  cases a <;> cases b <;> simp [bitwise, Int.lor, bitwise_not_and] <;> rfl

theorem bitwise_xor (a b : ℤ) : bitwise (· ^^ ·) a b = a.xor b := by
  cases a <;> cases b <;> simp [bitwise, Int.xor] <;> rfl

theorem floor_div_pow (n : ℤ) (k : ℕ) : ⌊(n : ℚ) / 2 ^ k⌋ = n.fdiv (Nat.pow 2 k) := by
  have hfloor := Rat.floor_intCast_div_natCast n (2 ^ k)
  rw [Int.fdiv_eq_ediv_of_nonneg _ (by positivity)]
  simpa using hfloor

@[simp] theorem isZero_int (n : ℤ) : (Constant.int n).isZero = decide (n = 0) := by
  simp [Constant.isZero, Constant.number?]

theorem foldConverted_quo (a b : Constant) :
    (foldConverted .quo .div a b .none).toOption =
      if b.isZero then none else (foldSame .quo .div a b .none).toOption := by
  simp only [foldConverted, Op.isComparison, Bool.false_eq_true, if_false, true_or, true_and, reduceCtorEq, or_self]
  split <;> rfl

theorem foldConverted_rem (a b : ℤ) :
    (foldConverted .rem .mod (.int a) (.int b) .none).toOption =
      if b = 0 then none else (foldSame .rem .mod (.int a) (.int b) .none).toOption := by
  simp only [foldConverted, Op.isComparison, Bool.false_eq_true, if_false, or_true, true_and, true_or, if_true,
    isZero_int, decide_eq_true_eq]
  split <;> rfl

/-- Operators other than shifts, on integers. -/
theorem combine_integers (hop : op ≠ .shl ∧ op ≠ .shr ∧ op ≠ .andNot) (a b : ℤ) :
    (combine op (.folded (.int a)) (.folded (.int b))).toOption =
      (Exact.combine? op (.int a) (.int b)).map .folded := by
  cases op with
  | shl => exact absurd rfl hop.1
  | shr => exact absurd rfl hop.2.1
  | andNot => exact absurd rfl hop.2.2
  | quo =>
    -- a divisor of zero is refused before the operator is looked at
    refine (foldConverted_quo (.int a) (.int b)).trans ?_
    by_cases hb : b = 0 <;>
      simp [hb, foldSame, Constant.binary?, Constant.intBinary?, Exact.combine?, Exact.comparison?, Exact.integer?]
    rfl
  | rem =>
    refine (foldConverted_rem a b).trans ?_
    by_cases hb : b = 0 <;>
      simp [hb, foldSame, Constant.binary?, Constant.intBinary?, Exact.combine?, Exact.comparison?, Exact.integer?]
    rfl
  | and => exact congrArg (fun n => some (Value.const (.int n))) (bitwise_and a b)
  | or => exact congrArg (fun n => some (Value.const (.int n))) (bitwise_or a b)
  | xor => exact congrArg (fun n => some (Value.const (.int n))) (bitwise_xor a b)
  | _ => rfl

/-- Operators on bits, and the remainder, are those of integers. -/
theorem foldConverted_bits (hcode : code = .mod ∨ code = .and ∨ code = .or ∨ code = .xor)
    (hk : ¬(a.kind = .int ∧ b.kind = .int)) : (foldConverted op code a b .none).toOption = none := by
  have hcmp : code.isComparison = false := by rcases hcode with rfl | rfl | rfl | rfl <;> rfl
  unfold foldConverted
  rw [hcmp, if_neg Bool.false_ne_true]
  split
  · rfl
  · split
    · exact absurd ⟨rfl, rfl⟩ hk
    · rfl

/-- Operators other than shifts on numbers that count as rational. -/
theorem foldConverted_rational (hop : op ≠ .shl ∧ op ≠ .shr ∧ op ≠ .andNot)
    (hk : ¬(a.kind = .int ∧ b.kind = .int)) (hb : b.number? = some y)
    (hbin : ∀ code, Constant.binary? code a b = Constant.floatBinary? code x y)
    (hcmp : ∀ code, Constant.compare? code a b = Constant.floatCompare? code x y) :
    (foldConverted op (opFor op .none .none) a b .none).toOption =
      (((Exact.comparison? op x y).map .bool).or ((Exact.rational? op x y).map .float)).map Value.folded := by
  cases op with
  | shl => exact absurd rfl hop.1
  | shr => exact absurd rfl hop.2.1
  | andNot => exact absurd rfl hop.2.2
  | quo =>
    refine (foldConverted_quo a b).trans ?_
    rw [foldSame, hbin, Constant.isZero, hb]
    by_cases hy : y = 0 <;> simp [hy, Constant.floatBinary?, Exact.comparison?, Exact.rational?]
    rfl
  | rem | and | or | xor => exact foldConverted_bits (by decide) hk
  | add | sub | mul | logicalAnd | logicalOr =>
    simp only [foldConverted, opFor, foldSame, hbin]
    rfl
  | eq | ne | lt | le | gt | ge =>
    simp only [foldConverted, opFor, hcmp]
    rfl

/-- **Operators other than shifts are exact.** -/
theorem combine_exact (hop : op ≠ .shl ∧ op ≠ .shr ∧ op ≠ .andNot) (a b : Constant) :
    (combine op (.folded a) (.folded b)).toOption = (Exact.combine? op a b).map .folded := by
  cases a with
  | bool a =>
    cases b with
    -- truth values are few enough to go through
    | bool b => cases op <;> cases a <;> cases b <;> rfl
    | int n | float q => cases op <;> rfl
  | int a =>
    cases b with
    | bool b => cases op <;> rfl
    | int b => exact combine_integers hop a b
    | float q => exact foldConverted_rational hop nofun rfl (fun _ => rfl) fun _ => rfl
  | float a =>
    cases b with
    | bool b => cases op <;> rfl
    | int n | float q => exact foldConverted_rational hop nofun rfl (fun _ => rfl) fun _ => rfl

/-- A count is an integer that is not negative. -/
theorem shiftCount_const (c : Constant) :
    (shiftCount (.const c)).toOption =
      c.integer?.bind fun n => if n < 0 then none else some (.typed (numberFor (.int n) .int) .int) := by
  have hstep : shiftCount (.const c) = c.toInt?.elim (.error (.shiftCount c)) fun n =>
      if n.sign < 0 then .error (.negativeShift n) else .ok (.typed (numberFor n .int) .int) := by
    simp only [shiftCount, settleShift, bind, Except.bind]
    cases c.toInt? with
    | none => rfl
    | some n =>
      by_cases hn : n.sign < 0
      · simp only [Option.elim_some, numberFor, Value.constant?, Code.Expr.constant?, if_pos hn]
        rfl
      · simp only [Option.elim_some, numberFor, Value.constant?, Code.Expr.constant?, if_neg hn]
        rfl
  rw [hstep, Constant.toInt?]
  cases c.integer? with
  | none => rfl
  | some n =>
    have hsign : (Constant.int n).sign < 0 ↔ n < 0 := Int.sign_neg_iff
    simp only [Option.map_some, Option.elim_some, Option.bind_some, hsign]
    split <;> rfl

/-- A shift of an integer multiplies by a power of two, or divides by it and rounds down. -/
theorem shift?_exact (hop : op = .shl ∨ op = .shr) (hn : a.integer? = some n) (hcount : ¬count < 0) :
    Constant.shift? (opFor op .none .none) a (.int count) =
      if count ≤ Constant.maxShift then (Exact.shift? op n count).map .int else none := by
  have hle : 0 ≤ count := not_lt.mp hcount
  have hpow : ((Nat.pow 2 count.toNat : ℕ) : ℤ) = 2 ^ count.toNat := rfl
  unfold Constant.shift?
  rw [hn]
  dsimp only [Constant.integer?]
  simp only [hle, true_and]
  split
  · rcases hop with rfl | rfl
    · simp only [opFor, Exact.shift?, if_neg hcount, hpow, Option.map_some]
    · simp only [opFor, Exact.shift?, if_neg hcount, floor_div_pow, Option.map_some]
  · rfl

theorem foldShift_exact (hop : op = .shl ∨ op = .shr) (a : Constant) (hcount : ¬count < 0) :
    (foldShift (opFor op .none .none) a (Value.folded a).ty (.int count)).toOption =
      a.integer?.bind fun n =>
        if count ≤ Constant.maxShift then (Exact.shift? op n count).map fun k => .folded (.int k) else none := by
  have hfold : ∀ (c : Constant) (n : ℤ), c.kind ≠ .bool → c.integer? = some n →
      (foldShift (opFor op .none .none) c .none (.int count)).toOption =
        if count ≤ Constant.maxShift then (Exact.shift? op n count).map fun k => .folded (.int k) else none := by
    intro c n hk hn
    have hguard : ¬(Ty.none.tag = .float ∨ c.kind = .bool ∨ (!c.isIntegral) = true) := by
      simp [hk, Constant.isIntegral, hn, show Ty.none.tag ≠ .float by decide]
    unfold foldShift
    rw [if_neg hguard, shift?_exact hop hn hcount]
    by_cases hmax : count ≤ Constant.maxShift
    · rw [if_pos hmax, if_pos hmax]
      cases Exact.shift? op n count <;> rfl
    · rw [if_neg hmax, if_neg hmax]
      rfl
  cases a with
  | bool b => rfl
  | int n => exact hfold (.int n) n nofun rfl
  | float q =>
    cases hn : (Constant.float q).integer? with
    | some n => exact hfold (.float q) n nofun hn
    | none =>
      unfold foldShift
      rw [if_pos (.inr (.inr (by simp [Constant.isIntegral, hn])))]
      rfl

/-- The count of a shift is looked at first. -/
theorem shift_folded (hop : op = .shl ∨ op = .shr) (a b : Constant) :
    (shift op (.folded a) (.folded b)).toOption =
      b.integer?.bind fun count =>
        if count < 0 then none
        else (foldShift (opFor op .none .none) a (Value.folded a).ty (.int count)).toOption := by
  have hconst : ∀ c : Constant, (shift op (.folded a) (.const c)).toOption =
      c.integer?.bind fun count =>
        if count < 0 then none
        else (foldShift (opFor op .none .none) a (Value.folded a).ty (.int count)).toOption := by
    intro c
    unfold shift
    rw [toOption_bind, shiftCount_const, Option.bind_assoc]
    refine congrArg c.integer?.bind (funext fun count => ?_)
    split
    · rfl
    · rcases hop with rfl | rfl <;> cases a <;> rfl
  cases b with
  -- a truth value is no count
  | bool b => rfl
  | int n => exact hconst (.int n)
  | float q => exact hconst (.float q)

/-- **Shifts are exact** up to their limit. -/
theorem shift_exact (hop : op = .shl ∨ op = .shr) :
    shift op (.folded a) (.folded b) = .ok v ↔ ∃ c, Exact.binary? op a b = some c ∧ op.Folds b ∧ v = .folded c := by
  have hexact : Exact.binary? op a b =
      a.integer?.bind fun n => b.integer?.bind fun count => (Exact.shift? op n count).map .int := by
    rcases hop with rfl | rfl <;> rfl
  have hne : op ≠ .andNot := by rcases hop with rfl | rfl <;> decide
  rw [← toOption_eq_some, shift_folded hop, hexact]
  cases hb : b.integer? with
  | none => simp
  | some count =>
    have hfolds : op.Folds b ↔ count ≤ Constant.maxShift := by
      simp [BinaryOp.Folds, hne, hop, hb]
    rw [hfolds]
    by_cases hneg : count < 0
    · simp [hneg, Exact.shift?]
    · simp only [Option.bind_some, if_neg hneg, foldShift_exact hop a hneg]
      cases a.integer? with
      | none => simp
      | some n =>
        by_cases hmax : count ≤ Constant.maxShift
        · simp [hmax, eq_comm]
        · simp [hmax]

/-- **Folding an operator is exact**: it is refused or has the value of exact arithmetic. -/
theorem binary_folded :
    binary op (.folded a) (.folded b) = .ok v ↔ ∃ c, Exact.binary? op a b = some c ∧ op.Folds b ∧ v = .folded c := by
  have hrest : ∀ {op : BinaryOp}, op ≠ .shl ∧ op ≠ .shr ∧ op ≠ .andNot → ∀ v,
      combine op (.folded a) (.folded b) = .ok v ↔ ∃ c, Exact.combine? op a b = some c ∧ op.Folds b ∧ v = .folded c := by
    intro op hop v
    have hfolds : op.Folds b := ⟨hop.2.2, fun h => absurd h (by simp [hop.1, hop.2.1])⟩
    rw [← toOption_eq_some, combine_exact hop, Option.map_eq_some_iff]
    simp only [hfolds, true_and, eq_comm]
  cases op with
  | andNot => exact ⟨nofun, fun ⟨_, _, h, _⟩ => absurd rfl h.1⟩
  | shl => exact shift_exact (.inl rfl)
  | shr => exact shift_exact (.inr rfl)
  | _ => exact hrest (by decide) v

theorem unary_folded {op : UnaryOp} (hop : op = .plus ∨ op = .neg ∨ op = .not) (hcode : unaryOpFor op = .ok code) :
    unary op code (.folded a) = .ok v ↔ ∃ c, Exact.unary? op a = some c ∧ v = .folded c := by
  have hexact : (unary op code (.folded a)).toOption = (Exact.unary? op a).map .folded := by
    rcases hop with rfl | rfl | rfl <;> obtain rfl := Except.ok.inj hcode <;> cases a <;> rfl
  rw [← toOption_eq_some, hexact, Option.map_eq_some_iff]
  simp only [eq_comm]

/-! ## Truth values -/

/-- The source gives the name no meaning of its own here. -/
def Predeclared (env : Env) (st : State) (name : String) : Prop :=
  st.declares name = false ∧ env.globals.declares name = false ∧ env.globals.declaresFunc name = false

instance (env : Env) (st : State) (name : String) : Decidable (Predeclared env st name) :=
  inferInstanceAs (Decidable (_ ∧ _))

section

variable {env : Env} {st : State} {name : String}

theorem Scope.findVar?_of_not_declares {s : Scope} (h : s.declares name = false) :
    s.findVar? name = none ∧ s.findConst? name = none := by
  simp only [Scope.declares, Bool.or_eq_false_iff, any_eq_false, beq_iff_eq] at h
  obtain ⟨⟨hvars, hconsts⟩, -⟩ := h
  refine ⟨?_, find?_eq_none.mpr fun c hc => by simpa using hconsts c hc⟩
  have hall : (s.vars.reverse.takeWhile fun v => v.name != name) = s.vars.reverse := by
    refine takeWhile_eq_self_iff.mpr fun v hv => ?_
    simpa using hvars v (mem_reverse.mp hv)
  simp [Scope.findVar?, hall]

theorem lookup_of_not_declares (h : ∀ s ∈ ss, s.declares name = false) :
    lookupVar? name ss = none ∧ lookupConst? name ss = none := by
  induction ss with
  | nil => exact ⟨rfl, rfl⟩
  | cons s ss ih =>
    rw [forall_mem_cons] at h
    obtain ⟨hvar, hconst⟩ := Scope.findVar?_of_not_declares h.1
    obtain ⟨hvars, hconsts⟩ := ih h.2
    exact ⟨by simp [lookupVar?, hvar, hconst, hvars], by simp [lookupConst?, hconst, hconsts]⟩

theorem findLocal?_of_none (h : lookupVar? name st.scopes = none) : findLocal? name env st = .ok (none, st) := by
  rw [findLocal?, bind_of_ok (show (get : Check State) env st = .ok (st, st) from rfl)]
  simp only [h]
  rfl

theorem globalValue_truth (hname : name ∈ ["true", "false"]) (hg : g.declares name = false)
    (hf : g.declaresFunc name = false) : globalValue g name = .ok (.ofBool (name = "true")) := by
  have huniform : g.uniforms.findIdx? (fun u => u.1 == name) = none := by
    simp only [Globals.declares, Bool.or_eq_false_iff, any_eq_false] at hg
    exact findIdx?_eq_none_iff.mpr fun u hu => Bool.eq_false_iff.mpr (hg.2 u hu)
  have hbuiltin : ∀ word ∈ ["true", "false"], Builtin.ofSource? word = none := by decide
  have htexture : ∀ word ∈ ["true", "false"], Literal.natural 10 (word.toList.drop 3) = none := by decide
  unfold globalValue
  rw [hf, huniform, if_neg Bool.false_ne_true]
  simp only [hbuiltin name hname, Globals.textureIndex?, htexture name hname]
  simp only [mem_cons, not_mem_nil, or_false] at hname
  rcases hname with rfl | rfl <;> rfl

theorem identValue_truth (hp : Predeclared env st name) (hname : name ∈ ["true", "false"]) (pos : Pos) :
    identValue pos name env st = .ok (.ofBool (name = "true"), st) := by
  obtain ⟨hst, hg, hf⟩ := hp
  have hscopes : ∀ s ∈ st.scopes, s.declares name = false := by
    simpa [State.declares, any_eq_false] using hst
  obtain ⟨hvar, hconst⟩ := lookup_of_not_declares hscopes
  -- the name is looked up inside out: variables, constants, then what the language has
  have hblank : name ≠ "_" := by
    rintro rfl
    exact absurd hname (by decide)
  have hglobal : env.globals.consts.find? (fun c => c.name == name) = none := by
    simp only [Globals.declares, Bool.or_eq_false_iff, any_eq_false] at hg
    exact find?_eq_none.mpr hg.1.1
  have hfind : findConst? name env st = .ok (none, st) := by
    show Except.ok ((lookupConst? name st.scopes).or (env.globals.consts.find? fun c => c.name == name), st) = _
    rw [hconst, hglobal]
    rfl
  rw [identValue, if_neg hblank, bind_of_ok (findLocal?_of_none hvar)]
  dsimp only
  rw [bind_of_ok hfind]
  dsimp only
  rw [bind_of_ok (show globals env st = .ok (env.globals, st) from rfl), globalValue_truth hname hg hf]
  rfl

/-! ## Expressions -/

theorem ofFloatLiteral?_float (h : Constant.ofFloatLiteral? s = some c) :
    ∃ q, c = .float q := by
  simp only [Constant.ofFloatLiteral?, Option.bind_eq_bind, Option.bind_eq_some_iff] at h
  obtain ⟨e, -, n, -, h⟩ := h
  split at h
  · cases h
  · exact ⟨_, (Option.some.inj h).symm⟩

theorem exactValue?_ident (hname : name ∈ ["true", "false"]) :
    (Surface.Expr.ident pos name).exactValue? = some (.bool (name = "true")) := by
  simp only [mem_cons, not_mem_nil, or_false] at hname
  rcases hname with rfl | rfl <;> rfl

/-- **What the checker computes is exact.** A constant expression that is not refused has its value in exact arithmetic,
and nothing else happens. -/
theorem values_exact (e : Surface.Expr) (hc : e.IsConstant) (hp : ∀ name ∈ e.idents, Predeclared env st name)
    (h : values e env st = .ok (vs, st')) :
    st = st' ∧ ∃ c, e.exactValue? = some c ∧ e.Folds ∧ vs = [.folded c] := by
  cases e with
  | ident pos name =>
    have hname : name ∈ ["true", "false"] := by simpa [Surface.Expr.IsConstant] using hc
    rw [values, bind_of_ok (identValue_truth (hp name (mem_singleton_self _)) hname pos)] at h
    obtain ⟨rfl, rfl⟩ := pure_ok h
    exact ⟨rfl, _, exactValue?_ident hname, trivial, rfl⟩
  | literal pos kind s =>
    rcases hc with rfl | rfl
    · rw [values] at h
      cases hlit : Constant.ofIntLiteral? s with
      | none =>
        rw [hlit] at h
        exact absurd h fail_ne_ok
      | some c =>
        rw [hlit] at h
        obtain ⟨rfl, rfl⟩ := pure_ok h
        obtain ⟨n, -, rfl⟩ := Option.map_eq_some_iff.mp hlit
        exact ⟨rfl, _, hlit, trivial, rfl⟩
    · rw [values] at h
      cases hlit : Constant.ofFloatLiteral? s with
      | none =>
        rw [hlit] at h
        exact absurd h fail_ne_ok
      | some c =>
        rw [hlit] at h
        obtain ⟨rfl, rfl⟩ := pure_ok h
        obtain ⟨q, rfl⟩ := ofFloatLiteral?_float hlit
        exact ⟨rfl, _, hlit, trivial, rfl⟩
  | paren pos e => exact values_exact e hc hp h
  | unary pos op e =>
    rw [values] at h
    obtain ⟨code, hcode, h⟩ := ruled_bind_ok h
    obtain ⟨w, st₁, hw, h⟩ := one_value_ok h
    obtain ⟨rfl, c, hexact, hfolds, heq⟩ := values_exact e hc.2 hp hw
    obtain rfl := singleton_injective heq
    obtain ⟨v, hv, rfl, rfl⟩ := ruled_pure_ok h
    obtain ⟨c', hc', rfl⟩ := (unary_folded hc.1 hcode).mp hv
    exact ⟨rfl, c', by rw [Surface.Expr.exactValue?, hexact]; exact hc', hfolds, rfl⟩
  | binary op l r =>
    obtain ⟨hpl, hpr⟩ := forall_mem_append.mp hp
    rw [values] at h
    obtain ⟨w, st₁, hl, h⟩ := one_value_ok h
    obtain ⟨rfl, a, ha, hfl, heq⟩ := values_exact l hc.1 hpl hl
    obtain rfl := singleton_injective heq
    obtain ⟨w, st₁, hr, h⟩ := one_value_ok h
    obtain ⟨rfl, b, hb, hfr, heq⟩ := values_exact r hc.2 hpr hr
    obtain rfl := singleton_injective heq
    obtain ⟨v, hv, rfl, rfl⟩ := ruled_pure_ok h
    obtain ⟨c, hexact, hfolds, rfl⟩ := binary_folded.mp hv
    refine ⟨rfl, c, by rw [Surface.Expr.exactValue?, ha, hb]; exact hexact, ⟨hfl, hfr, fun d hd => ?_⟩, rfl⟩
    rw [hb] at hd
    exact Option.some.inj hd ▸ hfolds
  | _ => exact absurd hc id

/-- **What has a value is computed**, if the operators in it are ones that are folded. -/
theorem values_complete (e : Surface.Expr) (hc : e.IsConstant) (hp : ∀ name ∈ e.idents, Predeclared env st name)
    (hexact : e.exactValue? = some c) (hf : e.Folds) : values e env st = .ok ([.folded c], st) := by
  cases e with
  | ident pos name =>
    have hname : name ∈ ["true", "false"] := by simpa [Surface.Expr.IsConstant] using hc
    rw [exactValue?_ident hname] at hexact
    cases hexact
    rw [values, bind_of_ok (identValue_truth (hp name (mem_singleton_self _)) hname pos)]
    rfl
  | literal pos kind s =>
    rcases hc with rfl | rfl
    · have hlit : Constant.ofIntLiteral? s = some c := hexact
      rw [values, hlit]
      obtain ⟨n, -, rfl⟩ := Option.map_eq_some_iff.mp hlit
      rfl
    · have hlit : Constant.ofFloatLiteral? s = some c := hexact
      rw [values, hlit]
      obtain ⟨q, rfl⟩ := ofFloatLiteral?_float hlit
      rfl
  | paren pos e => exact values_complete e hc hp hexact hf
  | unary pos op e =>
    obtain ⟨a, ha, hval⟩ := Option.bind_eq_some_iff.mp hexact
    obtain ⟨code, hcode⟩ : ∃ code, unaryOpFor op = .ok code := by
      rcases hc.1 with rfl | rfl | rfl <;> exact ⟨_, rfl⟩
    have hv := (unary_folded hc.1 hcode).mpr ⟨c, hval, rfl⟩
    rw [values, hcode, bind_of_ok (show ruled pos (.ok code) env st = .ok (code, st) from rfl),
      bind_of_ok (values_complete e hc.2 hp ha hf)]
    -- the one value is there, and what is left is the operator
    show (do return [← ruled pos (unary op code (.folded a))] : Check _) env st = _
    rw [hv]
    rfl
  | binary op l r =>
    obtain ⟨hpl, hpr⟩ := forall_mem_append.mp hp
    obtain ⟨a, ha, hval⟩ := Option.bind_eq_some_iff.mp hexact
    obtain ⟨b, hb, hval⟩ := Option.bind_eq_some_iff.mp hval
    have hv := binary_folded.mpr ⟨c, hval, hf.2.2 b hb, rfl⟩
    rw [values, bind_of_ok (values_complete l hc.1 hpl ha hf.1)]
    show (do
      let b ← expectOne r (← values r)
      return [← ruled l.pos (binary op (.folded a) b)] : Check _) env st = _
    rw [bind_of_ok (values_complete r hc.2 hpr hb hf.2.1)]
    show (do return [← ruled l.pos (binary op (.folded a) (.folded b))] : Check _) env st = _
    rw [hv]
    rfl
  | _ => exact absurd hc id

theorem value_constant (hc : e.IsConstant) (hp : ∀ name ∈ e.idents, Predeclared env st name) :
    value e env st = .ok (v, st') ↔ st' = st ∧ ∃ c, e.exactValue? = some c ∧ e.Folds ∧ v = .folded c := by
  constructor
  · intro h
    obtain ⟨vs, st₁, hvs, h⟩ := bind_ok h
    obtain ⟨rfl, c, hexact, hfolds, rfl⟩ := values_exact e hc hp hvs
    obtain ⟨heq, rfl⟩ := expectOne_ok h
    exact ⟨rfl, c, hexact, hfolds, (singleton_injective heq).symm⟩
  · rintro ⟨rfl, c, hexact, hfolds, rfl⟩
    rw [value, bind_of_ok (values_complete e hc hp hexact hfolds)]
    rfl

theorem expr_folded (c : Constant) : ∃ k, (Value.folded c).expr = .number c k := by cases c <;> exact ⟨_, rfl⟩

end

end Check

/-! ## Accepted sources -/

open Check

/-- **Folding of constants is complete and exact.** A constant expression is one number with its value in exact
arithmetic, and no statement is written for it. It is refused only if it has no value, shifts too far or clears bits by
`&^`. In the code of an accepted source no operator has only numbers to work on. -/
theorem constants_folded :
    (∀ (env : Env) (st : State) (e : Surface.Expr), e.IsConstant → (∀ name ∈ e.idents, Predeclared env st name) →
      (∀ v st', value e env st = .ok (v, st') → st' = st ∧ ∃ c k, v.expr = .number c k ∧ e.exactValue? = some c) ∧
      ((∃ r, value e env st = .ok r) ↔ e.exactValue?.isSome ∧ e.Folds)) ∧
    ∀ (options : CompileOptions) (source : String) (p : Program), compile options source = .ok p →
      ∀ b ∈ p.bodies, (∀ op e, .unary op e ∈ b.1.top.nodes → e.isNumber = false) ∧
        ∀ op l r, .binary op l r ∈ b.1.top.nodes → (l.isNumber && r.isNumber) = false := by
  constructor
  · intro env st e hc hp
    refine ⟨fun v st' h => ?_, ?_, ?_⟩
    · obtain ⟨rfl, c, hexact, -, rfl⟩ := (value_constant hc hp).mp h
      obtain ⟨k, hk⟩ := expr_folded c
      exact ⟨rfl, c, k, hk, hexact⟩
    · rintro ⟨⟨v, st'⟩, h⟩
      obtain ⟨-, c, hexact, hfolds, -⟩ := (value_constant hc hp).mp h
      exact ⟨Option.isSome_iff_exists.mpr ⟨c, hexact⟩, hfolds⟩
    · rintro ⟨hsome, hfolds⟩
      obtain ⟨c, hexact⟩ := Option.isSome_iff_exists.mp hsome
      exact ⟨_, (value_constant hc hp).mpr ⟨rfl, c, hexact, hfolds, rfl⟩⟩
  · intro options source p h b hb
    obtain ⟨file, g, -, hprod⟩ := compile_ok h
    have hfine := hprod.nodes_fine b hb
    exact ⟨fun op e hn => hfine _ hn, fun op l r hn => hfine _ hn⟩

/-- The expression `-7 >> 1 < -3 && true`, which holds because shifts round down. -/
def shiftedDown : Surface.Expr :=
  let minus (s : String) : Surface.Expr := .unary default .neg (.literal default .int s)
  .binary .logicalAnd (.binary .lt (.binary .shr (minus "7") (.literal default .int "1")) (minus "3"))
    (.ident default "true")

theorem shiftedDown_folded :
    (∃ v k, value shiftedDown { globals := {} } {} = .ok (v, {}) ∧ v.expr = .number (.bool true) k) ∧
      ∃ p, compile {} sample = .ok p ∧ ∀ b ∈ p.bodies, ∀ op e, .unary op e ∈ b.1.top.nodes → e.isNumber = false := by
  have hconst : shiftedDown.IsConstant := by simp [shiftedDown, Surface.Expr.IsConstant]
  have hpre : ∀ name ∈ shiftedDown.idents, Predeclared { globals := {} } {} name := by decide
  have hexact : shiftedDown.exactValue? = some (.bool true) := by decide +kernel
  have hone : Constant.ofIntLiteral? "1" = some (.int 1) := by decide +kernel
  have hfolds : shiftedDown.Folds := by
    refine ⟨⟨⟨trivial, trivial, fun c hc => ?_⟩, trivial, fun c _ => ⟨nofun, nofun⟩⟩, trivial, fun c _ => ⟨nofun, nofun⟩⟩
    obtain rfl := Option.some.inj (hone.symm.trans hc)
    exact ⟨nofun, fun _ n hn => Option.some.inj hn ▸ by decide⟩
  obtain ⟨hvalue, hiff⟩ := constants_folded.1 _ _ shiftedDown hconst hpre
  constructor
  · obtain ⟨⟨v, st⟩, hv⟩ := hiff.mpr ⟨by rw [hexact]; rfl, hfolds⟩
    obtain ⟨rfl, c, k, hk, hc⟩ := hvalue v st hv
    rw [hexact] at hc
    exact ⟨v, k, hv, Option.some.inj hc ▸ hk⟩
  · obtain ⟨p, hp, -⟩ := sample_accepted
    exact ⟨p, hp, fun b hb => (constants_folded.2 _ _ p hp b hb).1⟩

end GameMedia.Shader
