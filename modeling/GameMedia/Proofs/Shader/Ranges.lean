import GameMedia.Proofs.Shader.Values
import GameMedia.Shader.Check.Stmt

/-!
# Ranges of integers

Constants are unbounded while they have no type. Whatever rule computes a constant of the type `int`, or converts one to
it, looks whether a word of 32 bits holds it. There are two exceptions: a sign takes the constant after it as it is, and
the length of an array is not looked at.
-/

namespace GameMedia.Shader

open Except

/-- Whether the targets' `int` holds the number. -/
def FitsWord (n : Int) : Prop := -0x80000000 ≤ n ∧ n < 0x80000000

instance (n : Int) : Decidable (FitsWord n) := inferInstanceAs (Decidable (_ ∧ _))

def Constant.IsWord (c : Constant) : Prop := ∃ n, c = .int n ∧ FitsWord n

/-- The numbers of a loop that counts in integers. The ends are of a word, and so is the step or its negation. -/
def Code.Counter.IsWord (c : Counter) : Prop :=
  ∃ a z d, c.start = .int a ∧ c.stop = .int z ∧ c.step = .int d ∧ FitsWord a ∧ FitsWord z ∧ (FitsWord d ∨ FitsWord (-d))

namespace Check

open Surface (BinaryOp UnaryOp)

variable {v w : Value} {c c' : Constant}

theorem fitsInt_iff : fitsInt c = true ↔ ∃ n, c.integer? = some n ∧ FitsWord n := by
  simp [fitsInt, FitsWord, Option.any_eq_true]

theorem convert?_isWord (ht : t.tag = .int) (h : convert? c t = some c') : c'.IsWord := by
  unfold convert? at h
  rw [ht] at h
  simp only [Option.ite_none_right_eq_some] at h
  obtain ⟨⟨-, hfits⟩, h⟩ := h
  obtain ⟨n, hn, hword⟩ := fitsInt_iff.mp hfits
  rw [Constant.toInt?, hn] at h
  exact ⟨n, (Option.some.inj h).symm, hword⟩

/-- The step of a loop is a number as it is written, or its negation. -/
theorem loopDelta_int (down : Bool) (n : Int) : loopDelta .int down (.int n) = .int (if down then -n else n) := by
  have hconvert : (convert? (.int n) .int).getD (.int n) = .int n := by
    change (if (Constant.int n).kind ≠ .bool ∧ fitsInt (.int n) = true then some (Constant.int n) else none).getD _ = _
    split <;> rfl
  unfold loopDelta
  rw [hconvert]
  cases down <;> rfl

/-! ## Values -/

def Value.IsWord (v : Value) : Prop := v.ty.tag = .int → ∀ c, v.constant? = some c → c.IsWord

theorem Value.isWord_of_none (h : v.constant? = none) : v.IsWord := by
  intro _ c hc
  rw [h] at hc
  cases hc

theorem Value.isWord_of_tag (h : v.ty.tag ≠ .int) : v.IsWord := fun ht => absurd ht h

theorem isWord_numberFor (h : t.tag = .int → c.IsWord) : (Value.typed (numberFor c t) t).IsWord :=
  fun ht _ hc => Option.some.inj hc ▸ h ht

theorem isWord_ofConstant (h : t.tag = .int → c.IsWord) : (Value.ofConstant c t).IsWord := by
  unfold Value.ofConstant
  split
  · exact Value.isWord_of_tag (by decide : Ty.none.tag ≠ .int)
  · exact isWord_numberFor h

theorem isWord_ofBool (b : Bool) : (Value.ofBool b).IsWord := Value.isWord_of_tag (by decide : Ty.bool.tag ≠ .int)

/-- A constant without a type that takes one from its place. -/
theorem settle_isWord (hv : v.ty = .none) (h : settle v t place = .ok e) :
    (Value.typed e t).IsWord := by
  rcases settle_cases h with ⟨k, k', rfl, hk, rfl⟩ | hs
  · exact isWord_numberFor fun ht => convert?_isWord ht hk
  obtain ⟨-, rfl | ⟨op, n, count, rfl, -, hw⟩⟩ := settleShift_cases hs
  · obtain rfl : t = .none := hv
    exact Value.isWord_of_tag (by decide : Ty.none.tag ≠ .int)
  · exact hw ▸ Value.isWord_of_none rfl

/-! ## Operators -/

theorem isWord_of_fits (hc : c = .int n) (h : fitsInt c = true) : c.IsWord := by
  subst hc
  obtain ⟨m, hm, hword⟩ := fitsInt_iff.mp h
  exact ⟨m, congrArg Constant.int (Option.some.inj hm), hword⟩

theorem fold_isWord (h : fold op code a l b r = .ok v) : v.IsWord := by
  rcases fold_cases h with ⟨x, rfl⟩ | ⟨t, a', b', c, -, hconv, hc, rfl, hfits⟩
  · exact isWord_ofBool x
  refine isWord_ofConstant fun ht => ?_
  have hnone : t.isNone ≠ true := by
    rw [Ty.isNone, ht]
    decide
  obtain ⟨ha, hb⟩ := hconv.resolve_left hnone
  obtain ⟨m, rfl, -⟩ := convert?_isWord ht ha
  obtain ⟨n, rfl, -⟩ := convert?_isWord ht hb
  obtain ⟨i, hi⟩ : ∃ i, c = .int i := by
    simp only [Constant.binary?, Constant.intBinary?, Constant.shift?, Constant.integer?] at hc
    grind
  exact isWord_of_fits hi (hfits ht)

theorem shift_isWord (h : shift op l r = .ok v) : v.IsWord := by
  obtain ⟨n, -, ⟨a, b, c, -, -, -, hc, rfl, hfits⟩ | ⟨c, k, -, -, -, rfl⟩ | ⟨u, t, -, -, -, -, rfl⟩⟩ := shift_cases h
  · refine isWord_ofConstant fun ht => ?_
    obtain ⟨i, hi⟩ : ∃ i, c = .int i := by
      unfold Constant.shift? at hc
      grind
    exact isWord_of_fits hi (hfits ht)
  · exact Value.isWord_of_tag (by decide : Ty.none.tag ≠ .int)
  -- what is not a constant yet is computed at run time
  · exact Value.isWord_of_none rfl

/-- **What an operator computes is of a word**, whatever its operands are. -/
theorem binary_isWord (h : binary op l r = .ok v) : v.IsWord := by
  unfold binary at h
  split at h
  · cases h
  · exact shift_isWord h
  · exact shift_isWord h
  · obtain ⟨_, _, _, _, -, -, ⟨a, b, -, -, hv⟩ | ⟨l, r, t, -, -, -, -, rfl⟩⟩ := combine_cases h
    · exact fold_isWord hv
    · exact Value.isWord_of_none rfl

theorem unary_constant {op : UnaryOp} (h : unary op code v = .ok w) (hc : w.constant? = some c') :
    w.ty.tag = v.ty.tag ∧ ∃ c, v.constant? = some c ∧ c.unary? code = some c' := by
  rcases unary_cases h with ⟨k, k', hk, hk', rfl⟩ | ⟨u, -, -, -, rfl⟩
  · unfold Value.ofConstant at hc ⊢
    split at hc
    · next hnone =>
      rw [if_pos hnone]
      exact ⟨(of_decide_eq_true hnone).symm, k, hk, hk'.trans hc⟩
    · next hsome =>
      rw [if_neg hsome]
      exact ⟨rfl, k, hk, hk'.trans hc⟩
  · cases hc

/-! ## Built-in functions -/

/-- **A built-in function gives integers of a word**, the lengths of arrays apart. -/
theorem builtinValue_int (h : builtinValue f args = .ok v) :
    v.IsWord ∨ (f = .len ∨ f = .cap) ∧ ∃ a, args = [a] ∧ a.ty.tag = .array ∧ v.constant? = some (.int a.ty.length) := by
  rcases builtinValue_cases h with ⟨hf, a, ha, ht, rfl⟩ | ⟨t, a, rfl, hc⟩ | ⟨t, rfl⟩ | ⟨s, args', t, -, rfl⟩
  · exact .inr ⟨hf, a, ha, ht, rfl⟩
  · refine .inl ?_
    rcases conversion_cases hc with ⟨c, c', -, hc', rfl⟩ | ⟨hnone, -, rfl | ⟨-, rfl⟩⟩
    · exact isWord_numberFor fun ht => convert?_isWord ht hc'
    · exact Value.isWord_of_none hnone
    · exact Value.isWord_of_none rfl
  · exact .inl (Value.isWord_of_none rfl)
  · exact .inl (Value.isWord_of_none rfl)

end Check

end GameMedia.Shader
