import GameMedia.Proofs.Shader.Hoisting

/-!
# What code means

Expressions are read as functions of the local variables, and nothing is said of what the operations on values are. A
statement sets variables, or parts of them. A call sets its outputs and nothing else. Two facts carry all that follows: a
statement leaves every variable alone that it does not write, and what it does depends on nothing but the variables
that it reads.
-/

namespace GameMedia.Shader.Code

open List

/-- The operations on values. -/
structure Meaning (V : Type) where
  number : Constant → Hint → V
  uniform : Nat → V
  texture : Nat → V
  member : Nat → V
  unary : Op → V → V
  binary : Op → V → V → V
  select : V → V → V → V
  builtin : Builtin → List V → V
  /-- The result of a function of the program. -/
  call : Nat → List V → V
  /-- What a function of the program gives through an output. -/
  output : Nat → List V → Nat → V
  index : V → V → V
  swizzle : V → String → V
  /-- A value with another at a position of it. -/
  setIndex : V → V → V → V
  /-- A value with other components. -/
  setSwizzle : V → String → V → V
  /-- What a variable is set to that starts as zero. -/
  zero : Nat → V
  /-- For what is no value, such as the name of a function. -/
  nothing : V

/-- The values of the local variables. -/
abbrev Vars (V : Type) : Type := Nat → V

variable {V : Type} {i : Nat}

namespace Meaning

mutual

def eval (M : Meaning V) (ρ : Vars V) : Expr → V
  | .number c k => M.number c k
  | .uniform i => M.uniform i
  | .texture i => M.texture i
  | .localVar i => ρ i
  | .member i => M.member i
  | .unary op e => M.unary op (eval M ρ e)
  | .binary op l r => M.binary op (eval M ρ l) (eval M ρ r)
  | .select c t f => M.select (eval M ρ c) (eval M ρ t) (eval M ρ f)
  | .call (.func i) args => M.call i (evalAll M ρ args)
  | .call (.builtin f) args => M.builtin f (evalAll M ρ args)
  | .field b (.swizzle letters) => M.swizzle (eval M ρ b) letters
  | .index b p => M.index (eval M ρ b) (eval M ρ p)
  | .blank | .builtin _ | .swizzle _ | .func _ | .call _ _ | .field _ _ => M.nothing

def evalAll (M : Meaning V) (ρ : Vars V) : List Expr → List V
  | [] => []
  | e :: es => eval M ρ e :: evalAll M ρ es

end

/-- The variables after a value was stored to one of them, or to a part of one. -/
def store (M : Meaning V) (ρ : Vars V) : Expr → V → Vars V
  | .localVar i, x => Function.update ρ i x
  | .index b p, x => store M ρ b (M.setIndex (M.eval ρ b) (M.eval ρ p) x)
  | .field b (.swizzle letters), x => store M ρ b (M.setSwizzle (M.eval ρ b) letters x)
  | _, _ => ρ

def setAll (ρ : Vars V) : List Nat → (Nat → V) → Vars V
  | [], _ => ρ
  | i :: is, f => setAll (Function.update ρ i (f 0)) is fun k => f (k + 1)

/-- What a statement does to the variables, if it is one behind which the next one runs. -/
def effect (S : Setting) (M : Meaning V) (ρ : Vars V) : Stmt → Vars V
  | .assign l r => M.store ρ l (M.eval ρ r)
  | .init i => Function.update ρ i (M.zero i)
  | .expr (.call (.func i) args) =>
    match S.funcs i with
    | some f =>
      setAll ρ ((args.drop f.ins.length).filterMap Expr.local?) (M.output i (M.evalAll ρ (args.take f.ins.length)))
    | none => ρ
  | _ => ρ

/-- The variables after all the statements have run. A jump ends that. Statements with blocks are not run. -/
def run (S : Setting) (M : Meaning V) : List Stmt → Vars V → Option (Vars V)
  | [], ρ => some ρ
  | c :: cs, ρ =>
    match c with
    | .block _ | .branch _ _ _ | .loop _ _ => none
    | .ret _ | .discard | .next | .leave => some ρ
    | c => run S M cs (M.effect S ρ c)

/-- What statements do one after another. -/
def effects (S : Setting) (M : Meaning V) (cs : List Stmt) (ρ : Vars V) : Vars V := cs.foldl (M.effect S) ρ

end Meaning

variable {S : Setting} {M : Meaning V} {ρ ρ' : Vars V} {D : Nat → Prop} {c : Stmt} {cs ds : List Stmt}

open Meaning

@[simp] theorem effects_nil : M.effects S [] ρ = ρ := rfl

@[simp] theorem effects_cons : M.effects S (c :: cs) ρ = M.effects S cs (M.effect S ρ c) := rfl

@[simp] theorem effects_append : M.effects S (cs ++ ds) ρ = M.effects S ds (M.effects S cs ρ) := foldl_append

theorem run_straight (h : ∀ c ∈ cs, c.IsStraight) : M.run S (cs ++ ds) ρ = M.run S ds (M.effects S cs ρ) := by
  induction cs generalizing ρ with
  | nil => rfl
  | cons c cs ih =>
    rw [forall_mem_cons] at h
    rw [effects_cons, ← ih h.2]
    cases c with
    | expr e | assign l r | init i => rfl
    | _ => exact absurd h.1 id

theorem run_eq_effects (h : ∀ c ∈ cs, c.IsStraight) : M.run S cs ρ = some (M.effects S cs ρ) := by
  rw [← append_nil cs, run_straight h, append_nil]
  rfl

/-! ## What is left alone -/

theorem store_of_ne (h : l.root? ≠ some i) : M.store ρ l x i = ρ i := by
  fun_induction Meaning.store M ρ l x with
  | case1 j x => exact Function.update_of_ne (fun hij => h (congrArg some hij.symm)) x ρ
  | case2 b p x ih | case3 b letters x ih => exact ih h
  | case4 => rfl

theorem setAll_of_notMem (h : i ∉ is) : setAll ρ is f i = ρ i := by
  induction is generalizing ρ f with
  | nil => rfl
  | cons j is ih =>
    rw [mem_cons, not_or] at h
    rw [setAll, ih h.2, Function.update_of_ne h.1]

/-- A statement changes nothing but what it writes. -/
theorem effect_of_notMem (h : i ∉ c.written S) : M.effect S ρ c i = ρ i := by
  unfold Meaning.effect
  split
  · next l r => exact store_of_ne fun hroot => h (by simp [Stmt.written, hroot])
  · next j => exact Function.update_of_ne (fun hij => h (by simp [Stmt.written, hij])) _ ρ
  · next j args =>
    cases hf : S.funcs j with
    | some f => exact setAll_of_notMem (by simpa only [Stmt.written, hf] using h)
    | none => rfl
  · rfl

theorem effects_of_notMem (h : ∀ c ∈ cs, i ∉ c.written S) : M.effects S cs ρ i = ρ i := by
  induction cs generalizing ρ with
  | nil => rfl
  | cons c cs ih =>
    rw [forall_mem_cons] at h
    rw [effects_cons, ih h.2, effect_of_notMem h.1]

/-! ## What is read -/

mutual

/-- The value of an expression depends on the variables in it. -/
theorem eval_congr : (e : Expr) → (∀ i, .localVar i ∈ e.nodes → ρ i = ρ' i) → M.eval ρ e = M.eval ρ' e
  | .number _ _, _ | .uniform _, _ | .texture _, _ | .member _, _ | .blank, _ | .builtin _, _ | .swizzle _, _
  | .func _, _ => by simp only [eval]
  | .localVar i, h => by
      simp only [eval]
      exact h i (by simp [Expr.nodes])
  | .unary op e, h => by
      simp only [eval]
      rw [eval_congr e fun i hi => h i (by simp [Expr.nodes, hi])]
  | .binary op l r, h => by
      simp only [eval]
      rw [eval_congr l fun i hi => h i (by simp [Expr.nodes, hi]), eval_congr r fun i hi => h i (by simp [Expr.nodes, hi])]
  | .select c t f, h => by
      simp only [eval]
      rw [eval_congr c fun i hi => h i (by simp [Expr.nodes, hi]), eval_congr t fun i hi => h i (by simp [Expr.nodes, hi]),
        eval_congr f fun i hi => h i (by simp [Expr.nodes, hi])]
  | .call f args, h => by
      have hargs := evalAll_congr args fun i hi => h i (by simp [Expr.nodes, hi])
      cases f <;> simp only [eval, hargs]
  | .field b n, h => by
      have hb := eval_congr b fun i hi => h i (by simp [Expr.nodes, hi])
      cases n <;> simp only [eval, hb]
  | .index b p, h => by
      simp only [eval]
      rw [eval_congr b fun i hi => h i (by simp [Expr.nodes, hi]), eval_congr p fun i hi => h i (by simp [Expr.nodes, hi])]

theorem evalAll_congr : (es : List Expr) → (∀ i, .localVar i ∈ Expr.nodesAll es → ρ i = ρ' i) →
    M.evalAll ρ es = M.evalAll ρ' es
  | [], _ => by simp only [evalAll]
  | e :: es, h => by
      simp only [evalAll]
      rw [eval_congr e fun i hi => h i (by simp [Expr.nodesAll, hi]),
        evalAll_congr es fun i hi => h i (by simp [Expr.nodesAll, hi])]

end

/-- The same values for some of the variables. -/
def Agree (D : Nat → Prop) (ρ ρ' : Vars V) : Prop := ∀ i, D i → ρ i = ρ' i

theorem Agree.update (h : Agree D ρ ρ') (i : Nat) (x : V) :
    Agree D (Function.update ρ i x) (Function.update ρ' i x) := by
  intro j hj
  by_cases hij : j = i
  · rw [hij, Function.update_self, Function.update_self]
  · rw [Function.update_of_ne hij, Function.update_of_ne hij, h j hj]

theorem Agree.setAll (h : Agree D ρ ρ') (is : List Nat) (f : Nat → V) :
    Agree D (setAll ρ is f) (setAll ρ' is f) := by
  induction is generalizing ρ ρ' f with
  | nil => exact h
  | cons i is ih => exact ih (h.update i (f 0)) _

theorem Agree.store (h : Agree D ρ ρ') (hl : ∀ i, .localVar i ∈ l.nodes → D i) (x : V) :
    Agree D (M.store ρ l x) (M.store ρ' l x) := by
  fun_induction Meaning.store M ρ l x with
  | case1 j x => exact h.update j x
  | case2 b p x ih =>
    have hb : ∀ i, .localVar i ∈ b.nodes → D i := fun i hi => hl i (by simp [Expr.nodes, hi])
    have hp : ∀ i, .localVar i ∈ p.nodes → D i := fun i hi => hl i (by simp [Expr.nodes, hi])
    rw [Meaning.store, ← eval_congr b fun i hi => h i (hb i hi), ← eval_congr p fun i hi => h i (hp i hi)]
    exact ih hb
  | case3 b letters x ih =>
    have hb : ∀ i, .localVar i ∈ b.nodes → D i := fun i hi => hl i (by simp [Expr.nodes, hi])
    rw [Meaning.store, ← eval_congr b fun i hi => h i (hb i hi)]
    exact ih hb
  | case4 l x hloc hi hf =>
    rw [Meaning.store] <;> first
      | exact h
      | assumption

theorem nodesAll_append (es ds : List Expr) : Expr.nodesAll (es ++ ds) = Expr.nodesAll es ++ Expr.nodesAll ds := by
  induction es with
  | nil => rfl
  | cons e es ih => rw [cons_append, Expr.nodesAll, Expr.nodesAll, ih, append_assoc]

/-- What a statement does depends on the variables that it reads. -/
theorem Agree.effect (h : Agree D ρ ρ') (hc : ∀ i, .localVar i ∈ c.reads → D i) :
    Agree D (M.effect S ρ c) (M.effect S ρ' c) := by
  unfold Meaning.effect
  split
  · next l r =>
    cases l with
    | localVar i =>
      rw [eval_congr r fun j hj => h j (hc j hj)]
      exact h.update i _
    | _ =>
      rw [eval_congr r fun j hj => h j (hc j (mem_append_right _ hj))]
      exact h.store (fun j hj => hc j (mem_append_left _ hj)) _
  · next i => exact h.update i _
  · next i args =>
    split
    · next f hf =>
      have hins : M.evalAll ρ (args.take f.ins.length) = M.evalAll ρ' (args.take f.ins.length) := by
        refine evalAll_congr _ fun j hj => h j (hc j ?_)
        have hmem : Expr.localVar j ∈ Expr.nodesAll args := by
          rw [← take_append_drop f.ins.length args, nodesAll_append]
          exact mem_append_left _ hj
        simp [Stmt.reads, Stmt.nodes, Expr.nodes, hmem]
      rw [hins]
      exact h.setAll _ _
    · exact h
  · exact h

theorem Agree.effects (h : Agree D ρ ρ') (hcs : ∀ c ∈ cs, ∀ i, .localVar i ∈ c.reads → D i) :
    Agree D (M.effects S cs ρ) (M.effects S cs ρ') := by
  induction cs generalizing ρ ρ' with
  | nil => exact h
  | cons c cs ih =>
    rw [forall_mem_cons] at hcs
    exact ih (h.effect hcs.1) hcs.2

end GameMedia.Shader.Code
