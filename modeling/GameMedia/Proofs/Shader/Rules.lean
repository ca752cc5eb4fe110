import GameMedia.Proofs.Shader.Run
import GameMedia.Shader.Check.Builtin

/-!
# What the rules of values give

Each rule that turns values into values succeeds in a few ways only. The lemmas here say which, with what the rule has
found out by then, so that a property of the results is shown way by way and no rule is opened again.
-/

namespace GameMedia.Shader.Check

open Except

open Surface (BinaryOp UnaryOp)

/-! ## Types for what has none -/

def Value.Settled : Value → Prop
  | .shift _ _ _ => False
  | _ => True

/-- A pending shift becomes an integer, and all else stays. -/
theorem settleShift_cases (h : settleShift v t = .ok w) :
    w.Settled ∧ (v = w ∨
      ∃ op n count, v = .shift op n count ∧ t.tag = .int ∧ w = .typed (.binary op (.number n .int) count) .int) := by
  cases v with
  | const c | typed e t =>
    cases h
    exact ⟨trivial, .inl rfl⟩
  | shift op n count =>
    obtain ⟨ht, h⟩ := rule_ite_ok h
    cases h
    exact ⟨trivial, .inr ⟨op, n, count, rfl, ht, rfl⟩⟩

theorem settleShift_constant? (h : settleShift v t = .ok w) : w.constant? = v.constant? := by
  obtain ⟨-, rfl | ⟨op, n, count, rfl, -, rfl⟩⟩ := settleShift_cases h
  · rfl
  · rfl

theorem eq_of_settleShift_constant? (h : settleShift v t = .ok w) (hc : w.constant? = some c) :
    v = w := by
  obtain ⟨-, rfl | ⟨op, n, count, rfl, -, rfl⟩⟩ := settleShift_cases h
  · rfl
  · cases hc

theorem settle_cases (h : settle v t place = .ok e) :
    (∃ c c', v = .const c ∧ convert? c t = some c' ∧ e = numberFor c' t) ∨ settleShift v t = .ok (.typed e t) := by
  obtain ⟨w, hw, hm⟩ := rule_bind_ok h
  obtain ⟨hs, -⟩ := settleShift_cases hw
  cases w with
  | const c =>
    obtain rfl := eq_of_settleShift_constant? hw rfl
    dsimp only at hm
    split at hm
    · next c' hc => exact .inl ⟨c, c', rfl, hc, (ok.inj hm).symm⟩
    · cases hm
  | shift op n count => exact absurd hs id
  | typed e' t' =>
    obtain ⟨ht, hm⟩ := rule_ite_ok hm
    cases hm
    exact .inr (ht ▸ hw)

theorem settleDefault_cases (h : settleDefault v = .ok w) :
    (∃ c c', v = .const c ∧ convert? c (defaultType c) = some c' ∧
      w = .typed (numberFor c' (defaultType c)) (defaultType c)) ∨
    ∃ e t, w = .typed e t ∧ settleShift v .int = .ok w ∧ t.tag ≠ .texture := by
  obtain ⟨u, hu, hm⟩ := rule_bind_ok h
  obtain ⟨hs, -⟩ := settleShift_cases hu
  cases u with
  | const c =>
    obtain rfl := eq_of_settleShift_constant? hu rfl
    dsimp only at hm
    split at hm
    · next c' hc => exact .inl ⟨c, c', rfl, hc, (ok.inj hm).symm⟩
    · cases hm
  | shift op n count => exact absurd hs id
  | typed e t =>
    obtain ⟨ht, hm⟩ := rule_ite_error_ok hm
    cases hm
    exact .inr ⟨e, t, rfl, hu, ht⟩

/-- An operand that takes the scalar type of the other is a constant without a type. -/
theorem adopt_cases (h : adopt v t = .ok w) :
    (∃ c s c', v = .const c ∧ scalarOf? t = some s ∧ convert? c s = some c' ∧ w = .typed (numberFor c' s) s) ∨
      v = w ∧ ∀ c, v ≠ .const c := by
  cases v with
  | const c =>
    simp only [adopt] at h
    split at h
    · cases h
    · next s hs =>
      split at h
      · next c' hc => exact .inl ⟨c, s, c', rfl, hs, hc, (ok.inj h).symm⟩
      · cases h
  | shift op n count | typed e t => exact .inr ⟨ok.inj h, by simp⟩

/-! ## Operators -/

theorem unary_cases {op : UnaryOp} (h : unary op code v = .ok w) :
    (∃ c c', v.constant? = some c ∧ c.unary? code = some c' ∧ w = .ofConstant c' v.ty) ∨
    ∃ u, settleShift v .int = .ok u ∧ u.constant? = none ∧
      (if code = .not then u.ty = .bool else u.ty.isNumeric) ∧ w = .typed (.unary code u.expr) u.ty := by
  obtain ⟨u, hu, h⟩ := rule_bind_ok h
  split at h
  · next c hc =>
    obtain rfl := eq_of_settleShift_constant? hu hc
    split at h
    · next c' hc' => exact .inl ⟨c, c', hc, hc', (ok.inj h).symm⟩
    · cases h
  · next hc =>
    obtain ⟨ht, h⟩ := rule_ite_ok h
    exact .inr ⟨u, hu, hc, ht, (ok.inj h).symm⟩

theorem foldSame_cases (h : foldSame op code a b t = .ok v) :
    (∃ r, v = .ofBool r) ∨
      ∃ c, Constant.binary? code a b = some c ∧ v = .ofConstant c t ∧ (t.tag = .int → fitsInt c = true) := by
  unfold foldSame at h
  split at h
  · cases h
  · next r _ => exact .inl ⟨r, (ok.inj h).symm⟩
  · next c _ hc =>
    obtain ⟨hfits, h⟩ := rule_ite_error_ok h
    exact .inr ⟨c, hc, (ok.inj h).symm, fun ht => by simpa [ht] using hfits⟩

theorem foldConverted_cases (h : foldConverted op code a b t = .ok v) :
    (∃ r, v = .ofBool r) ∨
      ∃ c, Constant.binary? code a b = some c ∧ v = .ofConstant c t ∧ (t.tag = .int → fitsInt c = true) := by
  unfold foldConverted at h
  split at h
  · split at h
    · next r _ => exact .inl ⟨r, (ok.inj h).symm⟩
    · cases h
  obtain ⟨-, h⟩ := rule_ite_error_ok h
  split at h
  · split at h
    · exact foldSame_cases h
    · cases h
  · exact foldSame_cases h

/-- Two constants give a truth value, or a constant of the type that one of them has, if any. -/
theorem fold_cases (h : fold op code a l b r = .ok v) :
    (∃ x, v = .ofBool x) ∨ ∃ t a' b' c, t = (if l.isNone then r else l) ∧
      (t.isNone = true ∨ convert? a t = some a' ∧ convert? b t = some b') ∧
      Constant.binary? code a' b' = some c ∧ v = .ofConstant c t ∧ (t.tag = .int → fitsInt c = true) := by
  obtain ⟨-, h⟩ := rule_ite_error_ok h
  dsimp only at h
  generalize (if l.isNone then r else l) = t at h
  split at h
  · next ht =>
    refine (foldConverted_cases h).imp_right fun hc => ?_
    obtain ⟨c, hc⟩ := hc
    exact ⟨t, a, b, c, rfl, .inl ht, hc⟩
  · split at h
    · next a' b' ha hb =>
      refine (foldConverted_cases h).imp_right fun hc => ?_
      obtain ⟨c, hc⟩ := hc
      exact ⟨t, a', b', c, rfl, .inr ⟨ha, hb⟩, hc⟩
    · cases h
    · cases h

theorem shiftCount_cases (h : shiftCount v = .ok w) :
    ∃ e t, w = .typed e t ∧ t.isIntegral = true ∧
      ((∃ c n, v = .const c ∧ c.toInt? = some n ∧ e = numberFor n .int ∧ t = .int) ∨ settleShift v .int = .ok w) := by
  obtain ⟨u, hu, h⟩ := rule_bind_ok h
  obtain ⟨n, hn, h⟩ := rule_bind_ok h
  obtain ⟨hi, rfl⟩ : n.ty.isIntegral = true ∧ n = w := by
    cases hc : n.constant? with
    | none =>
      rw [hc] at h
      obtain ⟨hi, h⟩ := rule_ite_ok h
      exact ⟨hi, ok.inj h⟩
    | some c =>
      rw [hc] at h
      obtain ⟨-, h⟩ := rule_ite_error_ok h
      obtain ⟨hi, h⟩ := rule_ite_ok h
      exact ⟨hi, ok.inj h⟩
  cases u with
  | const c =>
    obtain rfl := eq_of_settleShift_constant? hu rfl
    dsimp only at hn
    split at hn
    · next k hk =>
      cases hn
      exact ⟨_, _, rfl, hi, .inl ⟨c, k, rfl, hk, rfl, rfl⟩⟩
    · cases hn
  | shift op k count => exact absurd (settleShift_cases hu).1 id
  | typed e t =>
    cases hn
    exact ⟨e, t, rfl, hi, .inr hu⟩

/-- A shift is computed, or waits for a type, or is left to run time. -/
theorem shift_cases (h : shift op a b = .ok v) :
    ∃ n, shiftCount b = .ok n ∧
      ((∃ x y c, a.constant? = some x ∧ n.constant? = some y ∧
          ¬(a.ty.tag = .float ∨ x.kind = .bool ∨ (!x.isIntegral) = true) ∧
          Constant.shift? (opFor op a.ty b.ty) x y = some c ∧ v = .ofConstant c a.ty ∧
          (a.ty.tag = .int → fitsInt c = true)) ∨
        (∃ c k, a = .const c ∧ n.constant? = none ∧ c.toInt? = some k ∧
          v = .shift (opFor op a.ty b.ty) k n.expr) ∨
        ∃ u t, (∀ c, a ≠ .const c) ∧ (a.constant? = none ∨ n.constant? = none) ∧ settleShift a .int = .ok u ∧
          binaryType? (opFor op a.ty b.ty) u.ty n.ty = some t ∧
          v = .typed (.binary (opFor op a.ty b.ty) u.expr n.expr) t) := by
  unfold shift at h
  generalize opFor op a.ty b.ty = code at h ⊢
  obtain ⟨n, hn, h⟩ := rule_bind_ok h
  refine ⟨n, hn, ?_⟩
  split at h
  · next x y hx hy =>
    obtain ⟨hguard, h⟩ := rule_ite_error_ok h
    split at h
    · cases h
    · next c hc =>
      obtain ⟨hfits, h⟩ := rule_ite_error_ok h
      exact .inl ⟨x, y, c, hx, hy, hguard, hc, (ok.inj h).symm, fun ht => by simpa [ht] using hfits⟩
  · next hnot =>
    have hnone : a.constant? = none ∨ n.constant? = none := by
      cases hx : a.constant? with
      | none => exact .inl rfl
      | some x => exact .inr (Option.eq_none_iff_forall_ne_some.mpr fun y => hnot x y hx)
    cases a with
    | const c =>
      dsimp only at h
      split at h
      · next k hk => exact .inr (.inl ⟨c, k, rfl, hnone.resolve_left (by simp [Value.constant?]), hk, (ok.inj h).symm⟩)
      · cases h
    | shift _ _ _ | typed _ _ =>
      obtain ⟨u, hu, h⟩ := rule_bind_ok h
      split at h
      · next t ht => exact .inr (.inr ⟨u, t, by simp, hnone, hu, ht, (ok.inj h).symm⟩)
      · cases h

/-- An operator that is no shift is computed or left to run time. -/
theorem combine_cases (h : combine op a b = .ok v) :
    ∃ a' b' s s', settleShift a s = .ok a' ∧ settleShift b s' = .ok b' ∧
      ((∃ x y, a'.constant? = some x ∧ b'.constant? = some y ∧
          fold op (opFor op a'.ty b'.ty) x a'.ty y b'.ty = .ok v) ∨
        ∃ l r t, (a'.constant? = none ∨ b'.constant? = none) ∧ adopt a' b'.ty = .ok l ∧ adopt b' l.ty = .ok r ∧
          binaryType? (opFor op a'.ty b'.ty) l.ty r.ty = some t ∧
          v = .typed (.binary (opFor op a'.ty b'.ty) l.expr r.expr) t) := by
  obtain ⟨a', ha, h⟩ := rule_bind_ok h
  obtain ⟨b', hb, h⟩ := rule_bind_ok h
  refine ⟨a', b', _, _, ha, hb, ?_⟩
  dsimp only at h
  split at h
  · next x y hx hy => exact .inl ⟨x, y, hx, hy, h⟩
  · next hnot =>
    have hnone : a'.constant? = none ∨ b'.constant? = none := by
      cases hx : a'.constant? with
      | none => exact .inl rfl
      | some x => exact .inr (Option.eq_none_iff_forall_ne_some.mpr fun y => hnot x y hx)
    obtain ⟨l, hl, h⟩ := rule_bind_ok h
    obtain ⟨r, hr, h⟩ := rule_bind_ok h
    split at h
    · next t ht => exact .inr ⟨l, r, t, hnone, hl, hr, ht, (ok.inj h).symm⟩
    · cases h

/-! ## Parts of values -/

theorem swizzle_cases (h : swizzle v letters written = .ok w) :
    ∃ t, swizzleType? v.ty letters = some t ∧ w = .typed (.field v.expr (.swizzle letters)) t := by
  unfold swizzle at h
  split at h
  · cases h
  · next t ht => exact ⟨t, ht, (ok.inj (rule_ite_error_ok h).2).symm⟩

/-- A position is an integer, whatever its range is. -/
theorem position_settle (h : position v n = .ok e) : settle v .int .index = .ok e := by
  obtain ⟨i, hi, h⟩ := rule_bind_ok h
  split at h
  · exact ok.inj h ▸ hi
  · split at h
    · exact ok.inj (rule_ite_ok h).2 ▸ hi
    · cases h

/-! ## Built-in functions -/

theorem conversion_cases (h : conversion f t v = .ok w) :
    (∃ c c', v.constant? = some c ∧ convert? c t = some c' ∧ w = .typed (numberFor c' t) t) ∨
      v.constant? = none ∧ (if t = .bool then v.ty = .bool else v.ty = .int ∨ v.ty = .float) ∧
        (v = w ∨ v.ty ≠ t ∧ w = callBuiltin f [v] t) := by
  unfold conversion at h
  split at h
  · next c hc =>
    split at h
    · next c' hc' => exact .inl ⟨c, c', hc, hc', (ok.inj h).symm⟩
    · cases h
  · next hc =>
    obtain ⟨ht, h⟩ := rule_ite_error_ok h
    refine .inr ⟨hc, ?_, ?_⟩
    · split
      · next hb => simpa [hb] using ht
      · next hb => exact or_iff_not_imp_left.mpr (by simpa [hb] using ht)
    split at h
    · exact .inl (ok.inj h)
    · next hne => exact .inr ⟨hne, (ok.inj h).symm⟩

theorem arrayLength_cases (h : arrayLength f args = .ok v) :
    ∃ a, args = [a] ∧ a.ty.tag = .array ∧ v = .typed (numberFor (.int a.ty.length) .int) .int := by
  unfold arrayLength at h
  split at h
  · next a =>
    obtain ⟨ht, h⟩ := rule_ite_ok h
    exact ⟨a, rfl, ht, (ok.inj h).symm⟩
  · cases h

theorem scalarConversion_cases (h : scalarConversion f t args = .ok v) :
    ∃ a, args = [a] ∧ conversion f t a = .ok v := by
  unfold scalarConversion at h
  split at h
  · next a => exact ⟨a, rfl, h⟩
  · cases h

theorem extremum_cases (h : extremum f args = .ok v) :
    ∃ s args' t, convertConsts s args = .ok args' ∧ v = callBuiltin f args' t := by
  unfold extremum at h
  split at h
  · cases h
  · obtain ⟨args', hargs, h⟩ := rule_bind_ok h
    cases args' with
    | nil => cases h
    | cons w ws =>
      obtain ⟨-, h⟩ := rule_ite_error_ok h
      obtain ⟨-, -, h⟩ := rule_bind_ok h
      exact ⟨_, _, _, hargs, (ok.inj h).symm⟩

/-- A built-in function gives the length of an array, a conversion, or a call with its arguments or with what its
constant arguments are converted to. -/
theorem builtinValue_cases (h : builtinValue f args = .ok v) :
    ((f = .len ∨ f = .cap) ∧ ∃ a, args = [a] ∧ a.ty.tag = .array ∧
      v = .typed (numberFor (.int a.ty.length) .int) .int) ∨
    (∃ t a, args = [a] ∧ conversion f t a = .ok v) ∨ (∃ t, v = callBuiltin f args t) ∨
    ∃ s args' t, convertConsts s args = .ok args' ∧ v = callBuiltin f args' t := by
  unfold builtinValue at h
  split at h
  · obtain ⟨-, -, h⟩ := rule_bind_ok h
    obtain ⟨args', hargs, h⟩ := rule_bind_ok h
    exact .inr (.inr (.inr ⟨_, args', _, hargs, (ok.inj h).symm⟩))
  · obtain ⟨args', hargs, h⟩ := rule_bind_ok h
    obtain ⟨-, -, h⟩ := rule_bind_ok h
    exact .inr (.inr (.inr ⟨_, args', _, hargs, (ok.inj h).symm⟩))
  · split at h
    · exact .inl ⟨.inl rfl, arrayLength_cases h⟩
    · exact .inl ⟨.inr rfl, arrayLength_cases h⟩
    · exact .inr (.inl ⟨_, scalarConversion_cases h⟩)
    · exact .inr (.inl ⟨_, scalarConversion_cases h⟩)
    · exact .inr (.inl ⟨_, scalarConversion_cases h⟩)
    · unfold texel at h
      split at h
      · obtain ⟨-, h⟩ := rule_ite_error_ok h
        obtain ⟨-, h⟩ := rule_ite_error_ok h
        exact .inr (.inr (.inl ⟨_, (ok.inj h).symm⟩))
      · cases h
    · obtain ⟨-, -, h⟩ := rule_bind_ok h
      exact .inr (.inr (.inr (extremum_cases h)))
    · exact .inr (.inr (.inr (extremum_cases (rule_ite_error_ok h).2)))
    · exact .inr (.inr (.inr (extremum_cases (rule_ite_error_ok h).2)))
    · obtain ⟨-, -, h⟩ := rule_bind_ok h
      dsimp only at h
      obtain ⟨args', hargs, h⟩ := rule_bind_ok h
      obtain ⟨_, -, h⟩ := rule_bind_ok h
      exact .inr (.inr (.inr ⟨_, args', _, hargs, (ok.inj h).symm⟩))

end GameMedia.Shader.Check
