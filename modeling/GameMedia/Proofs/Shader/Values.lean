import GameMedia.Proofs.Shader.Judgement
import GameMedia.Proofs.Shader.Rules

/-!
# Rules of values

Each rule that turns values into values keeps them in order: what has a type is a good expression of that type, and
what has none is a constant, or an integer constant shifted by a good expression that is not constant. A rule that
gives a value its type therefore gives a good expression.
-/

namespace GameMedia.Shader.Check

open Option Except

open Surface (BinaryOp UnaryOp)
open Code (Judge Hint)

variable {c : Constant} {op : Op}

/-- What the checker keeps true of a value. -/
def Value.Ok (J : Judge) : Value → Prop
  | .const _ => True
  | .shift op n count => Code.Op.isShift op = true ∧ n.kind = .int ∧ count.isNumber = false ∧
      ∃ t, J.Good count t ∧ t.Storable ∧ t.isIntegral = true
  | .typed e t => J.Good e t ∧ (t.Storable ∨ t = .texture)

theorem Value.Ok.mono {J J' : Judge} (hJ : J.Le J') {v : Value} (h : v.Ok J) : v.Ok J' := by
  cases v with
  | const c => trivial
  | shift op n count =>
    obtain ⟨hop, hn, hc, t, ht, hs⟩ := h
    exact ⟨hop, hn, hc, t, ht.mono hJ, hs⟩
  | typed e t => exact ⟨h.1.mono hJ, h.2⟩

/-! ## Constants -/

theorem convert?_defaultType (ht : t.Storable) (h : convert? c t = some c') : t = defaultType c' := by
  unfold convert? at h
  split at h
  · next hk =>
    obtain rfl := ht.eq_basic hk (by decide)
    split at h
    · next hb =>
      cases h
      simp [defaultType, hb, Ty.bool]
    · cases h
  · next hk =>
    obtain rfl := ht.eq_basic hk (by decide)
    split at h
    · obtain ⟨n, -, rfl⟩ := map_eq_some_iff.mp h
      rfl
    · cases h
  · next hk =>
    obtain rfl := ht.eq_basic hk (by decide)
    split at h
    · obtain ⟨n, -, rfl⟩ := map_eq_some_iff.mp h
      rfl
    · cases h
  · cases h

theorem toInt?_defaultType (h : c.toInt? = some c') : c'.kind = .int := by
  obtain ⟨n, -, rfl⟩ := map_eq_some_iff.mp h
  rfl

theorem defaultType_eq_int : defaultType c = .int ↔ c.kind = .int := by
  unfold defaultType
  cases c.kind <;> decide

theorem defaultType_eq_iff : defaultType a = defaultType b ↔ a.kind = b.kind := by
  unfold defaultType
  cases a.kind <;> cases b.kind <;> decide

theorem unary?_kind (h : c.unary? op = some c') : c'.kind = c.kind := by
  cases c <;> cases op <;> simp_all [Constant.unary?] <;> subst h <;> rfl

/-- An operator on constants of one kind gives that kind, unless it gives a truth value. -/
theorem binary?_kind (h : Constant.binary? op a b = some c) (hk : a.kind = b.kind) :
    c.kind = a.kind := by
  cases a with
  | bool x =>
    cases b <;> simp only [Constant.kind, reduceCtorEq] at hk
    cases op <;> simp [Constant.binary?, Constant.boolBinary?] at h <;> subst h <;> rfl
  | int m =>
    cases b <;> simp only [Constant.kind, reduceCtorEq] at hk
    simp only [Constant.binary?, Constant.intBinary?, Constant.shift?, Constant.integer?] at h
    grind [Constant.kind]
  | float x =>
    cases b <;> simp only [Constant.kind, reduceCtorEq] at hk
    simp only [Constant.binary?, Constant.floatBinary?, Constant.number?] at h
    grind [Constant.kind]

section

variable {J : Judge} {c : Constant} {t : Ty} {v v' : Value} {e : Code.Expr} {op : BinaryOp} {code : Op}

theorem good_numberFor (h : t = defaultType c) : J.Good (numberFor c t) t := by
  subst h
  have hn : numberFor c (defaultType c) = .number c (.ofKind c.kind) := by
    unfold numberFor defaultType
    cases c.kind <;> rfl
  exact hn ▸ Judge.good_number c

theorem ofConstant_ok (h : t = .none ∨ t = defaultType c) : (Value.ofConstant c t).Ok J := by
  unfold Value.ofConstant
  split
  · trivial
  · next hn =>
    rcases h with rfl | h
    · exact absurd rfl hn
    · exact ⟨good_numberFor h, .inl (h ▸ (defaultType_plain c).storable)⟩

theorem ofBool_ok (b : Bool) : (Value.ofBool b).Ok J :=
  ⟨Judge.good_number (.bool b), .inl (by decide)⟩

/-- A constant has no type, or the type of its kind. -/
theorem Value.Ok.constant (h : v.Ok J) (hc : v.constant? = some c) :
    v.Settled ∧ (v.ty = .none ∨ v.ty = defaultType c) := by
  cases v with
  | const c' => exact ⟨trivial, .inl rfl⟩
  | shift op n count => cases hc
  | typed e t =>
    refine ⟨trivial, .inr ?_⟩
    cases e with
    | number c' k =>
      cases hc
      exact h.1.of_number.2
    | _ => cases hc

theorem Value.Ok.of_not_constant (h : v.Ok J) (hs : v.Settled) (hc : v.constant? = none) :
    J.Good v.expr v.ty ∧ (v.ty.Storable ∨ v.ty = .texture) ∧ v.expr.isNumber = false := by
  cases v with
  | const c => cases hc
  | shift op n count => exact absurd hs id
  | typed e t =>
    refine ⟨h.1, h.2, ?_⟩
    cases e with
    | number c k => cases hc
    | _ => rfl

/-! ## Types for what has none -/

variable (hJ : J.setting.vectorCounts = true)

include hJ

theorem settleShift_ok (hv : v.Ok J) (h : settleShift v t = .ok v') : v'.Ok J ∧ v'.Settled := by
  obtain ⟨hs, rfl | ⟨op, n, count, rfl, -, rfl⟩⟩ := settleShift_cases h
  · exact ⟨hv, hs⟩
  · obtain ⟨hop, hn, hc, tc, hg, -, hi⟩ := hv
    -- the count may be a vector here, which only the rule for constants allows
    have hnum : J.Good (.number n .int) .int := by
      have hnum := Judge.good_number (J := J) n
      rwa [hn, defaultType_eq_int.mpr hn] at hnum
    refine ⟨⟨hnum.binary hg ?_ ?_, .inl (by decide)⟩, hs⟩
    · rw [hc, Bool.and_false]
    · simp [Code.Setting.binaryType?, hJ, hop, hi, Code.Expr.isNumber]

theorem settle_good (hv : v.Ok J) (ht : t.Storable) (h : settle v t place = .ok e) : J.Good e t := by
  rcases settle_cases h with ⟨c, c', rfl, hc, rfl⟩ | hs
  · exact good_numberFor (convert?_defaultType ht hc)
  · exact (settleShift_ok hJ hv hs).1.1

/-- A value with the type it has by itself can be stored. -/
theorem settleDefault_ok (hv : v.Ok J) (h : settleDefault v = .ok v') : J.Good v'.expr v'.ty ∧ v'.ty.Storable := by
  rcases settleDefault_cases h with ⟨c, c', rfl, hc, rfl⟩ | ⟨e, t, rfl, hs, htex⟩
  · have hp := (defaultType_plain c).storable
    exact ⟨good_numberFor (convert?_defaultType hp hc), hp⟩
  · obtain ⟨hw, -⟩ := settleShift_ok hJ hv hs
    refine ⟨hw.1, hw.2.resolve_right ?_⟩
    rintro rfl
    exact htex rfl

/-! ## Unary operators -/

theorem unary_ok {op : UnaryOp} (hop : unaryOpFor op = .ok code) (hv : v.Ok J) (h : unary op code v = .ok v') :
    v'.Ok J := by
  rcases unary_cases h with ⟨c, c', hc, hu, rfl⟩ | ⟨w, hs, hc, ht, rfl⟩
  · refine ofConstant_ok ((hv.constant hc).2.imp_right fun ht => ?_)
    rw [ht, defaultType_eq_iff]
    exact (unary?_kind hu).symm
  · obtain ⟨hw, hsettled⟩ := settleShift_ok hJ hv hs
    obtain ⟨hg, hst, hnum⟩ := hw.of_not_constant hsettled hc
    refine ⟨hg.unary hnum ?_, hst⟩
    cases op <;> simp only [unaryOpFor, ok.injEq, reduceCtorEq] at hop <;> subst hop
    · simpa [Code.unaryType?] using ht
    · simpa [Code.unaryType?] using ht
    · simpa [Code.unaryType?, eq_comm] using ht

omit hJ in
/-- The rules for operators on types hold for good expressions. -/
theorem binaryType?_setting {S : Code.Setting} {op : Op}
    (h : binaryType? op tl tr = some t) : S.binaryType? op l tl tr = some t := by
  unfold Code.Setting.binaryType?
  split
  · next hc =>
    simp only [Bool.and_eq_true, decide_eq_true_eq, Code.Op.isShift, Bool.or_eq_true] at hc
    obtain ⟨⟨⟨⟨-, hop⟩, -⟩, rfl⟩, -⟩ := hc
    -- an integer is shifted by an integer only, and the result is one
    have hs : shiftType? .int tr = some t := by
      rcases hop with rfl | rfl
      · exact h
      · exact h
    unfold shiftType? at hs
    split at hs
    · exact hs
    · rw [if_neg (by simp [Ty.isIntVector, Ty.int, Ty.basic, Ty.tag])] at hs
      cases hs
  · exact h

omit hJ in
/-- An operator that the rules allow gives a good expression, unless it could be computed. -/
theorem good_operator {op : Op} {l r : Value} (hl : J.Good l.expr l.ty) (hr : J.Good r.expr r.ty)
    (hl' : l.ty.Storable ∨ l.ty = .texture) (hr' : r.ty.Storable ∨ r.ty = .texture)
    (hn : (l.expr.isNumber && r.expr.isNumber) = false) (h : binaryType? op l.ty r.ty = some t) :
    (Value.typed (.binary op l.expr r.expr) t).Ok J := by
  refine ⟨hl.binary hr hn (binaryType?_setting h), ?_⟩
  rcases binaryType?_mem h with rfl | rfl | rfl | rfl
  · exact .inl (by decide)
  · exact .inl (by decide)
  · exact hl'
  · exact hr'

omit hJ in
/-- A constant operand takes a type that fits the other, and all else stays. -/
theorem adopt_ok (hv : v.Ok J) (hs : v.Settled) (h : adopt v other = .ok v') :
    J.Good v'.expr v'.ty ∧ (v'.ty.Storable ∨ v'.ty = .texture) ∧ (v.constant? = none → v'.expr.isNumber = false) := by
  rcases adopt_cases h with ⟨c, s, c', rfl, ht, hc, rfl⟩ | ⟨rfl, hconst⟩
  · have hst : s.Storable := by
      unfold scalarOf? at ht
      split at ht
      · exact some.inj ht ▸ by decide
      split at ht
      · exact some.inj ht ▸ by decide
      split at ht
      · exact some.inj ht ▸ by decide
      · cases ht
    exact ⟨good_numberFor (convert?_defaultType hst hc), .inl hst, fun hnone => by cases hnone⟩
  · cases v with
    | const c => exact absurd rfl (hconst c)
    | shift op n count => exact absurd hs id
    | typed e t => exact ⟨hv.1, hv.2, fun hc => (hv.of_not_constant hs hc).2.2⟩

omit hJ in
theorem fold_ok (hl : l = .none ∨ l = defaultType a) (hr : r = .none ∨ r = defaultType b)
    (h : fold op code a l b r = .ok v) : v.Ok J := by
  rcases fold_cases h with ⟨x, rfl⟩ | ⟨t, a', b', c, ht, hconv, hc, rfl, -⟩
  · exact ofBool_ok x
  -- the type is that of an operand, and both operands were converted to it
  have hty : t = .none ∨ t.Storable := by
    subst ht
    split
    · exact hr.imp_right fun (hr : r = _) => hr ▸ (defaultType_plain b).storable
    · exact hl.imp_right fun (hl : l = _) => hl ▸ (defaultType_plain a).storable
  refine ofConstant_ok (hty.imp_right fun hst => ?_)
  obtain ⟨ha, hb⟩ := hconv.resolve_left (by simp [hst.not_isNone])
  have hta := convert?_defaultType hst ha
  have hk := binary?_kind hc (defaultType_eq_iff.mp (hta.symm.trans (convert?_defaultType hst hb)))
  rw [hta, defaultType_eq_iff]
  exact hk.symm

theorem shiftCount_ok (hv : v.Ok J) (h : shiftCount v = .ok v') :
    v'.Ok J ∧ v'.Settled ∧ J.Good v'.expr v'.ty ∧ v'.ty.Storable ∧ v'.ty.isIntegral = true := by
  obtain ⟨e, t, rfl, hi, hcount⟩ := shiftCount_cases h
  have hok : J.Good e t ∧ (t.Storable ∨ t = .texture) := by
    rcases hcount with ⟨c, n, -, hn, rfl, rfl⟩ | hs
    · exact ⟨good_numberFor (defaultType_eq_int.mpr (toInt?_defaultType hn)).symm, .inl (by decide)⟩
    · exact (settleShift_ok hJ hv hs).1
  refine ⟨hok, trivial, hok.1, hok.2.resolve_right ?_, hi⟩
  rintro rfl
  cases hi

theorem shift_ok {l r : Value} (hop : op = .shl ∨ op = .shr) (hl : l.Ok J) (hr : r.Ok J) (h : shift op l r = .ok v) :
    v.Ok J := by
  have hcode : Code.Op.isShift (opFor op l.ty r.ty) = true := by
    rcases hop with rfl | rfl
    · rfl
    · rfl
  obtain ⟨n, hn, hways⟩ := shift_cases h
  obtain ⟨hok, hsettled, hg, hst, hi⟩ := shiftCount_ok hJ hr hn
  rcases hways with ⟨a, b, c, ha, -, hguard, hc, rfl, -⟩ | ⟨c, k, rfl, hnone, hk, rfl⟩ |
      ⟨u, t, hconst, hnone, hu, ht, rfl⟩
  · refine ofConstant_ok ((hl.constant ha).2.imp_right fun hty => ?_)
    -- the shifted constant is an integer, and so is the result
    have hck : c.kind = .int := by
      unfold Constant.shift? at hc
      grind [Constant.kind]
    have hak : a.kind = .int := by
      rw [hty] at hguard
      cases hk : a.kind <;> simp_all [defaultType, Ty.float, Ty.basic, Ty.tag]
    rw [hty, defaultType_eq_iff, hak, hck]
  -- a constant shifted by what is not constant is the one value that waits for its type
  · exact ⟨hcode, toInt?_defaultType hk, (hok.of_not_constant hsettled hnone).2.2, n.ty, hg, hst, hi⟩
  · obtain ⟨huok, hus⟩ := settleShift_ok hJ hl hu
    have huc := settleShift_constant? hu
    cases u with
    | const c => exact absurd (eq_of_settleShift_constant? hu rfl) (hconst c)
    | shift op m count => exact absurd hus id
    | typed e s =>
      refine good_operator huok.1 hg huok.2 (.inl hst) ?_ ht
      rcases hnone with hnone | hnone
      · rw [(huok.of_not_constant hus (huc.trans hnone)).2.2, Bool.false_and]
      · rw [(hok.of_not_constant hsettled hnone).2.2, Bool.and_false]

theorem combine_ok {l r : Value} (hl : l.Ok J) (hr : r.Ok J) (h : combine op l r = .ok v) : v.Ok J := by
  obtain ⟨l', r', _, _, hls, hrs, hways⟩ := combine_cases h
  obtain ⟨hlok, hlset⟩ := settleShift_ok hJ hl hls
  obtain ⟨hrok, hrset⟩ := settleShift_ok hJ hr hrs
  rcases hways with ⟨a, b, ha, hb, hv⟩ | ⟨l₁, r₁, t, hnone, hla, hra, ht, rfl⟩
  · exact fold_ok (hlok.constant ha).2 (hrok.constant hb).2 hv
  · obtain ⟨hlg, hlst, hln⟩ := adopt_ok hlok hlset hla
    obtain ⟨hrg, hrst, hrn⟩ := adopt_ok hrok hrset hra
    refine good_operator hlg hrg hlst hrst ?_ ht
    rcases hnone with hnone | hnone
    · rw [hln hnone, Bool.false_and]
    · rw [hrn hnone, Bool.and_false]

/-- An operator on values in order gives a value in order. -/
theorem binary_ok (hl : l.Ok J) (hr : r.Ok J) (h : binary op l r = .ok v) : v.Ok J := by
  unfold binary at h
  split at h
  · cases h
  · exact shift_ok hJ (.inl rfl) hl hr h
  · exact shift_ok hJ (.inr rfl) hl hr h
  · exact combine_ok hJ hl hr h

/-! ## Parts of values -/

omit hJ in
theorem swizzle_ok (hb : base.Ok J)
    (h : swizzle base letters written = .ok v) :
    ∃ t, v = .typed (.field base.expr (.swizzle letters)) t ∧ v.Ok J ∧ t.Storable := by
  obtain ⟨t, ht, rfl⟩ := swizzle_cases h
  have hst := (swizzleType?_plain ht).storable
  refine ⟨t, rfl, ⟨?_, .inl hst⟩, hst⟩
  cases base with
  | const _ | shift _ _ _ => exact absurd ht (by simp [swizzleType?, Value.ty, Ty.isVector, Ty.isFloatVector,
      Ty.isIntVector, Ty.none, Ty.basic, Ty.tag])
  | typed e te => exact hb.1.field ht

theorem position_good (hv : v.Ok J) (h : position v n = .ok e) : J.Good e .int :=
  settle_good hJ hv (by decide) (position_settle h)

end

end GameMedia.Shader.Check
