import GameMedia.Proofs.Shader.Emission
import GameMedia.Proofs.Shader.Shifts

/-!
# Matrices of one value

A constructor makes a matrix of a float, which it puts on the diagonal, or of a matrix of its own size. HLSL has a helper
for the first, a function of a float. The writer sees the text of an argument and not its type, and calls the helper for
both: the text is right where every argument is a float, and nowhere else.
-/

namespace GameMedia.Shader

open Option Code Target

variable {t : Ty}

/-- The type that a constructor of matrices makes. -/
def Builtin.matrix? : Builtin → Option Ty
  | .mat2 => some (.basic .mat2)
  | .mat3 => some (.basic .mat3)
  | .mat4 => some (.basic .mat4)
  | _ => none

/-- The constructor and its argument, if the node makes a matrix of one value. -/
def Code.Expr.matrixOf? : Expr → Option (Builtin × Expr)
  | .call (.builtin f) [a] => if f.matrix?.isSome then some (f, a) else none
  | _ => none

/-- What holds of every constructor of a matrix with one argument, of its argument and the type of that. -/
def Program.EachMatrix (p : Program) (Q : Body → Builtin → Expr → Option Ty → Prop) : Prop :=
  ∀ b ∈ p.bodies, ∀ x ∈ b.1.top.exprs fun i => b.1.params[i]?, ∀ m ∈ x.2.nodes.filterMap Expr.matrixOf?,
    Q b.1 m.1 m.2 (m.2.type? (p.setting true b.1.kind b.2) x.1)

instance (p : Program) (Q : Body → Builtin → Expr → Option Ty → Prop) [∀ b f a t, Decidable (Q b f a t)] :
    Decidable (p.EachMatrix Q) :=
  inferInstanceAs (Decidable (∀ b ∈ p.bodies, _))

namespace Target.Hlsl

/-- A call of the helper that puts a float on the diagonal. -/
def fromScalar (f : Builtin) (x : String) : String := builtinName f ++ "FromScalar(" ++ x ++ ")"

/-- The text of a constructor tells what its argument is. A float goes through the helper, and a matrix stands there by
itself, converted to its own type at most. -/
def MatrixFits (body : Body) (f : Builtin) (a : Expr) (t : Option Ty) : Prop :=
  ∃ x s, exprText dialect body a = .ok x ∧ exprText dialect body (.call (.builtin f) [a]) = .ok s ∧
    (s = fromScalar f x ↔ t = some .float) ∧ (t = f.matrix? →
      s ∈ [x, "(" ++ x ++ ")", "(" ++ builtinName f ++ ")(" ++ x ++ ")", builtinName f ++ "(" ++ x ++ ")"])

theorem exprText_matrix (hf : f.matrix?.isSome) (hx : exprText dialect body a = .ok x) :
    exprText dialect body (.call (.builtin f) [a]) = .ok (fromScalar f x) := by
  rw [exprText, exprTexts, hx]
  cases f with
  | mat2 | mat3 | mat4 => rfl
  | _ => cases hf

end Target.Hlsl

theorem Code.Expr.matrixOf?_eq_some {n : Expr} (h : n.matrixOf? = some m) :
    n = .call (.builtin m.1) [m.2] ∧ m.1.matrix?.isSome := by
  unfold matrixOf? at h
  split at h
  · obtain ⟨hf, h⟩ := ite_none_right_eq_some.mp h
    cases h
    exact ⟨rfl, hf⟩
  · cases h

theorem Ty.IsValue.eq_matrix (h : t.IsValue) (hm : t.isMatrix = true) :
    t = .basic .mat2 ∨ t = .basic .mat3 ∨ t = .basic .mat4 := by
  rcases h with h | rfl
  · unfold Ty.isMatrix at hm
    split at hm
    · next ht => exact .inl (h.eq_basic ht (by decide))
    · next ht => exact .inr (.inl (h.eq_basic ht (by decide)))
    · next ht => exact .inr (.inr (h.eq_basic ht (by decide)))
    · cases hm
  · cases hm

theorem Builtin.result?_matrix {f : Builtin} (hf : f.matrix?.isSome) (ht : t.IsValue)
    (h : f.result? [t] = some u) : t = .float ∨ some t = f.matrix? := by
  cases f with
  | mat2 | mat3 | mat4 =>
    have hmakes := (ite_none_right_eq_some.mp h).1
    simp only [makesMatrix, Bool.or_eq_true, Bool.and_eq_true, decide_eq_true_eq] at hmakes
    refine hmakes.imp_right fun hm => ?_
    rcases ht.eq_matrix hm.1 with rfl | rfl | rfl
    all_goals first
      | rfl
      | exact absurd hm.2 (by decide)
  | _ => cases hf

namespace Check

variable {options : CompileOptions} {file : Surface.File} {g : Globals} {p : Program}

/-- **A constructor is written as a call of the helper**, whether its argument is a float or a matrix. -/
theorem Produces.matrices (hp : Produces options file g p) : p.EachMatrix fun body f a t =>
    (t = some .float ∨ t = f.matrix?) ∧ ∃ x, exprText Hlsl.dialect body a = .ok x ∧
      exprText Hlsl.dialect body (.call (.builtin f) [a]) = .ok (Hlsl.fromScalar f x) := by
  intro b hb x hx m hm
  obtain ⟨n, hn, hnm⟩ := List.mem_filterMap.mp hm
  obtain ⟨rfl, hf⟩ := Expr.matrixOf?_eq_some hnm
  obtain ⟨hΓ, hplaced⟩ := hp.sited hb x hx
  have htyped : ((Expr.call (.builtin m.1) [m.2]).type? (p.setting true b.1.kind b.2) x.1).isSome := by
    rcases hplaced.part hn with h | h
    · exact h.elim id id
    · cases h
  obtain ⟨u, hu⟩ := isSome_iff_exists.mp htyped
  simp only [Expr.type?, types?, bind_eq_bind, bind_eq_some_iff, Option.pure_def, some.injEq,
    ite_none_left_eq_some] at hu
  obtain ⟨_, ⟨t, ht, _, rfl, rfl⟩, -, hresult⟩ := hu
  obtain ⟨s, hs⟩ : ∃ s, exprText Hlsl.dialect b.1 m.2 = .ok s := exprText_ok m.2 ht
  have hvalue := type?_isValue (hp.regular_setting _ _) hΓ m.2 ht
  rw [ht, some.injEq]
  exact ⟨Builtin.result?_matrix hf hvalue hresult, s, hs, Hlsl.exprText_matrix hf hs⟩

theorem Produces.matricesFit_iff (hp : Produces options file g p) :
    p.EachMatrix Hlsl.MatrixFits ↔ p.EachMatrix fun _ _ _ t => t = some .float := by
  constructor
  · intro hfit b hb x hx m hm
    obtain ⟨-, s, hs, hcall⟩ := hp.matrices b hb x hx m hm
    obtain ⟨s', c, hs', hcall', hiff, -⟩ := hfit b hb x hx m hm
    obtain rfl := Except.ok.inj (hs.symm.trans hs')
    exact hiff.mp (Except.ok.inj (hcall'.symm.trans hcall))
  · intro hfloat b hb x hx m hm
    obtain ⟨-, s, hs, hcall⟩ := hp.matrices b hb x hx m hm
    have ht := hfloat b hb x hx m hm
    refine ⟨s, _, hs, hcall, iff_of_true rfl ht, fun hmatrix => absurd (ht.symm.trans hmatrix) ?_⟩
    cases m.1 <;> decide

end Check

/-- **Matrices of one value in an accepted source.** The argument is a float or a matrix of the type that is made, and is
written, and the constructor is written as a call of the helper in both cases. So the texts tell what the arguments are
if and only if all of these are floats. -/
theorem matrices_of_compile {options : CompileOptions} {source : String} {p : Program}
    (h : compile options source = .ok p) :
    (p.EachMatrix fun body f a t => (t = some .float ∨ t = f.matrix?) ∧ ∃ x, exprText Hlsl.dialect body a = .ok x ∧
      exprText Hlsl.dialect body (.call (.builtin f) [a]) = .ok (Hlsl.fromScalar f x)) ∧
    (p.EachMatrix Hlsl.MatrixFits ↔ p.EachMatrix fun _ _ _ t => t = some .float) := by
  obtain ⟨file, g, -, hp⟩ := Check.compile_ok h
  exact ⟨hp.matrices, hp.matricesFit_iff⟩

/-- A matrix of what is given. -/
def matrixSample (ty : String) : String := "package main
func f(x " ++ ty ++ ") mat2 {
	return 2 * mat2(x)
}
"

theorem floatMatrix_fits : ∃ p, compile {} (matrixSample "float") = .ok p ∧ p.EachMatrix Hlsl.MatrixFits := by
  obtain ⟨p, hp, hfloat⟩ : ∃ p, compile {} (matrixSample "float") = .ok p ∧ p.EachMatrix fun _ _ _ t => t = some .float :=
    by decide +kernel
  exact ⟨p, hp, (matrices_of_compile hp).2.mpr hfloat⟩

/-- It is accepted, and the helper, which takes a float, gets a matrix. -/
theorem copiedMatrix_not_fits : ∃ p, compile {} (matrixSample "mat2") = .ok p ∧ ¬p.EachMatrix Hlsl.MatrixFits := by
  obtain ⟨p, hp, hnot⟩ : ∃ p, compile {} (matrixSample "mat2") = .ok p ∧ ¬p.EachMatrix fun _ _ _ t => t = some .float :=
    by decide +kernel
  obtain ⟨file, g, -, hprod⟩ := Check.compile_ok hp
  exact ⟨p, hp, fun hfit => hnot (hprod.matricesFit_iff.mp hfit)⟩

end GameMedia.Shader
