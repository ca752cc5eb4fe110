import GameMedia.Proofs.Shader.Values
import GameMedia.Shader.Check.Builtin

/-!
# Calls of built-in functions

The checker's rules for built-in functions give calls that the signatures allow. The rules look at values, some of
which are constants without a type, and the signatures at types. What relates them is the type that each argument has
once constants are converted.
-/

namespace GameMedia.Shader.Check

open List Option

open Code (Judge)

variable {J : Judge} {v : Value} {vs args : List Value} {f : Builtin} {t target : Ty} {isInt : Bool} {n : Nat}

/-! ## Arguments -/

/-- The type of an argument after constants have taken a scalar type. -/
def convertedTy (scalar : Ty) : Value → Ty
  | .const _ => scalar
  | v => v.ty

def Value.Good (J : Judge) (v : Value) : Prop := J.Good v.expr v.ty ∧ (v.ty.Storable ∨ v.ty = .texture)

theorem Value.Good.ok (h : v.Good J) : v.Ok J := by
  cases v with
  | const c => trivial
  | shift op n count =>
    rcases h.2 with hst | htex
    · exact absurd rfl hst.ne_none
    · exact absurd htex (show Ty.none ≠ .texture by decide)
  | typed e t => exact h

theorem goodAll_of_good (h : ∀ v ∈ vs, v.Good J) : J.GoodAll (vs.map Value.expr) (vs.map Value.ty) := by
  induction vs with
  | nil => exact Judge.goodAll_nil
  | cons v vs ih =>
    have hv := h v mem_cons_self
    exact .cons hv.1 (ih fun w hw => h w (mem_cons_of_mem v hw))

theorem callBuiltin_ok (hf : f ≠ .frontFacing) (h : ∀ v ∈ args, v.Good J) (hr : f.result? (args.map Value.ty) = some t)
    (ht : t.Storable) : (callBuiltin f args t).Ok J :=
  ⟨(goodAll_of_good h).builtin (fun he => absurd he hf) hr, .inl ht⟩

/-- Arguments whose pending shifts are settled. -/
def SettledArgs (J : Judge) (args : List Value) : Prop := ∀ v ∈ args, v.Ok J ∧ v.Settled

theorem Value.Ok.good_of_ty (hv : v.Ok J) (ht : v.ty.isNone = false) : v.Good J := by
  cases v with
  | const c | shift op n count => cases ht
  | typed e t => exact hv

theorem convertConsts_ok (hs : scalar.Storable) (ha : SettledArgs J args)
    (h : convertConsts scalar args = .ok args') :
    (∀ v ∈ args', v.Good J) ∧ args'.map Value.ty = args.map (convertedTy scalar) := by
  induction args generalizing args' with
  | nil =>
    cases h
    exact ⟨by simp, rfl⟩
  | cons v vs ih =>
    have hv := ha v mem_cons_self
    have hvs : SettledArgs J vs := fun w hw => ha w (mem_cons_of_mem v hw)
    cases v with
    | const c =>
      simp only [convertConsts] at h
      split at h
      · cases h
      · next c' hc =>
        obtain ⟨rest, hrest, h⟩ := rule_bind_ok h
        cases h
        obtain ⟨hg, htys⟩ := ih hvs hrest
        refine ⟨forall_mem_cons.mpr ⟨⟨good_numberFor (convert?_defaultType hs hc), .inl hs⟩, hg⟩, ?_⟩
        rw [map_cons, map_cons, htys]
        rfl
    | shift op n count => exact absurd hv.2 id
    | typed e t =>
      obtain ⟨rest, hrest, h⟩ := rule_bind_ok h
      cases h
      obtain ⟨hg, htys⟩ := ih hvs hrest
      refine ⟨forall_mem_cons.mpr ⟨hv.1, hg⟩, ?_⟩
      rw [map_cons, map_cons, htys]
      rfl

/-! ## Constructors -/

/-- One component is a scalar, because no vector has a single one. -/
theorem eq_scalar_of_components? (h : Builtin.components? isInt t = some 1) : t = if isInt then .int else .float := by
  unfold Builtin.components? at h
  by_cases hs : t = if isInt then .int else .float
  · exact hs
  · rw [if_neg hs] at h
    obtain ⟨-, hd⟩ := ite_none_right_eq_some.mp h
    unfold Ty.dimension at hd
    split at hd <;> exact absurd hd (by decide)

theorem tag_eq_scalar (ht : t.Storable ∨ t = .texture) :
    t.tag = (if isInt then .int else .float) ↔ t = if isInt then .int else .float := by
  refine ⟨fun hk => ?_, fun h => by cases isInt <;> exact h ▸ rfl⟩
  rcases ht with hst | rfl
  · cases isInt with
    | false | true => exact hst.eq_basic hk (by decide)
  · cases isInt <;> exact absurd hk (by decide)

/-- An argument brings as many components as its type says. -/
theorem components?_convertedTy (hv : v.Ok J) (hs : v.Settled) (h : components? isInt v = some n) :
    Builtin.components? isInt (convertedTy (if isInt then .int else .float) v) = some n := by
  cases v with
  | const c =>
    cases c with
    | bool b => cases isInt <;> cases h
    | int m =>
      cases h
      simp [Builtin.components?, convertedTy]
    | float r =>
      cases h
      simp [Builtin.components?, convertedTy]
  | shift op m count => exact absurd hs id
  | typed e t =>
    simp only [components?, Value.ty, tag_eq_scalar hv.2] at h
    exact h

theorem componentSum_convertedTy (ha : SettledArgs J args) (h : componentSum f isInt args = .ok n) :
    let tys := args.map (convertedTy (if isInt then .int else .float))
    (∀ t ∈ tys, (Builtin.components? isInt t).isSome) ∧ (tys.filterMap (Builtin.components? isInt)).sum = n := by
  induction args generalizing n with
  | nil =>
    cases h
    exact ⟨by simp, rfl⟩
  | cons v vs ih =>
    have hv := ha v mem_cons_self
    simp only [componentSum] at h
    split at h
    · cases h
    · next k hk =>
      obtain ⟨m, hm, h⟩ := rule_bind_ok h
      cases h
      have hc := components?_convertedTy hv.1 hv.2 hk
      obtain ⟨hall, hsum⟩ := ih (fun w hw => ha w (mem_cons_of_mem v hw)) hm
      refine ⟨forall_mem_cons.mpr ⟨by rw [hc]; rfl, hall⟩, ?_⟩
      rw [map_cons, filterMap_cons, hc, sum_cons, hsum]

theorem checkVector_makesVector (ha : SettledArgs J args) (h : checkVector f n isInt args = .ok ()) :
    Builtin.makesVector n isInt (args.map (convertedTy (if isInt then .int else .float))) = true := by
  match args, ha, h with
  | [], _, h => cases h
  | [v], ha, h =>
    obtain ⟨hc, -⟩ := rule_ite_ok h
    have hv := ha v mem_cons_self
    simp only [map_cons, map_nil, Builtin.makesVector, Bool.or_eq_true, decide_eq_true_eq, Bool.and_eq_true]
    rcases hc with hc | ⟨hvec, hdim⟩
    · exact .inl (eq_scalar_of_components? (components?_convertedTy hv.1 hv.2 hc))
    · refine .inr ?_
      cases v with
      | const c => cases hvec
      | shift op m count => exact absurd hv.2 id
      | typed e t => exact ⟨hvec, hdim⟩
  | v :: w :: vs, ha, h =>
    obtain ⟨total, htotal, h⟩ := rule_bind_ok h
    obtain ⟨hle, h⟩ := rule_ite_error_ok h
    obtain ⟨hge, -⟩ := rule_ite_error_ok h
    -- neither too many components nor too few
    obtain rfl : total = n := by omega
    obtain ⟨hall, hsum⟩ := componentSum_convertedTy ha htotal
    simp only [map_cons, Builtin.makesVector, Bool.and_eq_true, List.all_eq_true, decide_eq_true_eq]
    exact ⟨hall, hsum⟩

theorem vectorValue_ok (hf : vectorShape? f = some (n, isInt)) (ha : SettledArgs J args)
    (h : vectorValue f n isInt args = .ok v) : v.Ok J := by
  obtain ⟨⟨⟩, hcheck, h⟩ := rule_bind_ok h
  obtain ⟨args', hargs, h⟩ := rule_bind_ok h
  cases h
  have hmakes := checkVector_makesVector ha hcheck
  obtain ⟨hg, htys⟩ := convertConsts_ok (by cases isInt <;> decide) ha hargs
  rw [← htys] at hmakes
  cases f <;> simp only [vectorShape?, reduceCtorEq, some.injEq, Prod.mk.injEq] at hf
  all_goals
    obtain ⟨rfl, rfl⟩ := hf
    exact callBuiltin_ok (by decide) hg (if_pos hmakes) (by decide)

theorem allOf_ok (h : allOf f t wanted vs = .ok ()) : ∀ u ∈ vs.map Value.ty, u = t := by
  induction vs with
  | nil => simp
  | cons v vs ih =>
    obtain ⟨hv, h⟩ := rule_ite_ok h
    exact forall_mem_cons.mpr ⟨hv, ih h⟩

theorem checkMatrix_makesMatrix (hn : Ty.floatVector? n = some column) (h : checkMatrix f n args = .ok ()) :
    Builtin.makesMatrix n (args.map Value.ty) = true := by
  match args, h with
  | [], h => cases h
  | [v], h =>
    obtain ⟨hc, -⟩ := rule_ite_ok h
    simpa [Builtin.makesMatrix] using hc
  | v :: w :: vs, h =>
    simp only [checkMatrix, hn, getD_some] at h
    simp only [map_cons, Builtin.makesMatrix, hn, Bool.or_eq_true, Bool.and_eq_true, decide_eq_true_eq,
      List.all_eq_true, some.injEq]
    by_cases hlen : (v :: w :: vs).length = n
    · rw [if_pos hlen] at h
      exact .inl ⟨by simpa using hlen, allOf_ok h⟩
    · rw [if_neg hlen] at h
      split at h
      · next hsq => exact .inr ⟨by simpa using hsq, allOf_ok h⟩
      · split at h <;> cases h

theorem matrixValue_ok (hf : matrixShape? f = some (n, t)) (ha : SettledArgs J args)
    (h : matrixValue f n t args = .ok v) : v.Ok J := by
  obtain ⟨args', hargs, h⟩ := rule_bind_ok h
  obtain ⟨⟨⟩, hcheck, h⟩ := rule_bind_ok h
  cases h
  obtain ⟨hg, -⟩ := convertConsts_ok (by decide) ha hargs
  cases f <;> simp only [matrixShape?, reduceCtorEq, some.injEq, Prod.mk.injEq] at hf
  all_goals
    obtain ⟨rfl, rfl⟩ := hf
    have hmakes := checkMatrix_makesMatrix rfl hcheck
    exact callBuiltin_ok (by decide) hg (if_pos hmakes) (by decide)

/-! ## Conversions, lengths and textures -/

theorem conversion_ok
    (hf : f = .bool ∧ target = .bool ∨ f = .int ∧ target = .int ∨ f = .float ∧ target = .float) (hv : v.Ok J)
    (hs : v.Settled) (h : conversion f target v = .ok v') : v'.Ok J := by
  have hst : target.Storable := by rcases hf with ⟨-, rfl⟩ | ⟨-, rfl⟩ | ⟨-, rfl⟩ <;> decide
  rcases conversion_cases h with ⟨c, c', -, hconv, rfl⟩ | ⟨hc, hok, rfl | ⟨hne, rfl⟩⟩
  · exact ⟨good_numberFor (convert?_defaultType hst hconv), .inl hst⟩
  · exact hv
  · obtain ⟨hg, hvst, -⟩ := hv.of_not_constant hs hc
    refine callBuiltin_ok (by rcases hf with ⟨rfl, -⟩ | ⟨rfl, -⟩ | ⟨rfl, -⟩ <;> decide)
      (forall_mem_singleton.mpr ⟨hg, hvst⟩) ?_ hst
    -- a truth value is only made of one, which was returned as it is
    rcases hf with ⟨rfl, rfl⟩ | ⟨rfl, rfl⟩ | ⟨rfl, rfl⟩
    · exact absurd hok hne
    · rcases hok with hok | hok <;> exact if_pos (by simp [hok])
    · rcases hok with hok | hok <;> exact if_pos (by simp [hok])

theorem scalarConversion_ok (hf : f = .bool ∧ target = .bool ∨ f = .int ∧ target = .int ∨ f = .float ∧ target = .float)
    (ha : SettledArgs J args) (h : scalarConversion f target args = .ok v) : v.Ok J := by
  obtain ⟨w, rfl, hw⟩ := scalarConversion_cases h
  obtain ⟨hok, hs⟩ := ha w mem_cons_self
  exact conversion_ok hf hok hs hw

theorem arrayLength_ok (h : arrayLength f args = .ok v) : v.Ok J := by
  obtain ⟨a, -, -, rfl⟩ := arrayLength_cases h
  exact ⟨good_numberFor rfl, .inl (by decide)⟩

theorem texel_ok (ha : SettledArgs J args) (h : texel .texelAt args = .ok v) : v.Ok J := by
  unfold texel at h
  split at h
  · next t p =>
    obtain ⟨ht, h⟩ := rule_ite_error_ok h
    obtain ⟨hp, h⟩ := rule_ite_error_ok h
    rw [not_not] at ht hp
    cases h
    have htg : t.Good J := (ha t (by simp)).1.good_of_ty (by simp [Ty.isNone, ht])
    have hpg : p.Good J := (ha p (by simp)).1.good_of_ty (by simp [Ty.isNone, hp])
    have hty : t.ty = .texture := htg.2.resolve_left fun hst => hst.tag_ne.2.1 ht
    have hpty : p.ty = .basic .vec2 := by
      rcases hpg.2 with hst | htex
      · exact hst.eq_basic hp (by decide)
      · exact absurd hp (by rw [htex]; decide)
    exact callBuiltin_ok (by decide) (by simpa using ⟨htg, hpg⟩) (if_pos (by simp [hty, hpty])) (by decide)
  · cases h

/-! ## Shader functions -/

theorem commonScalar?_storable (h : commonScalar? args = some t) : t.Storable := by
  unfold commonScalar? at h
  dsimp only at h
  split at h
  · split at h <;> exact some.inj h ▸ by decide
  · next u us hus =>
    obtain ⟨-, h⟩ := ite_none_right_eq_some.mp h
    obtain rfl := some.inj h
    have hmem : u ∈ args.filterMap fun v =>
        if v.ty.isIntegral then some Ty.int else if v.ty.isFloatLike then some Ty.float else none := by
      rw [hus]
      exact mem_cons_self
    obtain ⟨v, -, hv⟩ := mem_filterMap.mp hmem
    split at hv
    · exact some.inj hv ▸ by decide
    split at hv
    · exact some.inj hv ▸ by decide
    · cases hv

theorem checkLater_ok {first elem : Ty} (h : checkLater f first elem vs = .ok ()) :
    ∀ u ∈ vs.map Value.ty, u = first ∨ u = elem := by
  induction vs with
  | nil => simp
  | cons v vs ih =>
    obtain ⟨hv, h⟩ := rule_ite_ok h
    exact forall_mem_cons.mpr ⟨hv, ih h⟩

/-- The scalar that may stand beside a value of that type is the one the rules give to its constants. -/
theorem scalarOf?_extremum (hst : t.Storable) (ht : t.isFloatLike = true ∨ t.isIntegral = true) :
    scalarOf? t = some (if t.isIntVector ∨ t = .int then .int else .float) := by
  rcases hst.cases with hp | ⟨e, n, rfl, -⟩
  · revert ht
    exact hp.of_all (by decide)
  · rcases ht with ht | ht <;> cases ht

theorem extremum_ok (hf : f = .clamp ∧ args.length = 3 ∨ (f = .min ∨ f = .max) ∧ 2 ≤ args.length)
    (ha : SettledArgs J args) (h : extremum f args = .ok v) : v.Ok J := by
  unfold extremum at h
  split at h
  · cases h
  · next scalar hscalar =>
    obtain ⟨args', hargs, h⟩ := rule_bind_ok h
    obtain ⟨hg, htys⟩ := convertConsts_ok (commonScalar?_storable hscalar) ha hargs
    have hlen : args'.length = args.length := by simpa using congrArg length htys
    match args', hg, hlen, h with
    | [], _, _, h => cases h
    | w :: ws, hg, hlen, h =>
      obtain ⟨hnum, h⟩ := rule_ite_error_ok h
      obtain ⟨⟨⟩, hlater, h⟩ := rule_bind_ok h
      cases h
      have hnum : w.ty.isFloatLike = true ∨ w.ty.isIntegral = true := by
        simpa [Classical.or_iff_not_imp_left] using hnum
      have hst : w.ty.Storable := (hg w mem_cons_self).2.resolve_right fun htex => by
        rw [htex] at hnum
        exact absurd hnum (by decide)
      -- the first argument decides what the later ones may be
      have hall : (ws.map Value.ty).all (fun u => u = w.ty || some u = scalarOf? w.ty) = true := by
        refine List.all_eq_true.mpr fun u hu => ?_
        rw [scalarOf?_extremum hst hnum]
        rcases checkLater_ok hlater u hu with rfl | rfl <;> simp
      refine callBuiltin_ok (by rcases hf with ⟨rfl, -⟩ | ⟨rfl | rfl, -⟩ <;> decide) hg ?_ hst
      have hcond := Bool.and_eq_true_iff.mpr ⟨Bool.or_eq_true_iff.mpr hnum, hall⟩
      rcases hf with ⟨rfl, hthree⟩ | ⟨hf, htwo⟩
      · match ws, hlen, hcond with
        | [a, b], _, hcond => exact if_pos hcond
        | [], hlen, _ | [_], hlen, _ | _ :: _ :: _ :: _, hlen, _ =>
          simp only [length_cons, length_nil] at hlen
          omega
      · match ws, hlen, hcond with
        | [], hlen, _ =>
          simp only [length_cons, length_nil] at hlen
          omega
        | a :: as, _, hcond => rcases hf with rfl | rfl <;> exact if_pos hcond

/-- Three functions take other types than floats as well. -/
theorem mathResult_floats (hf : f ∉ [.abs, .sign, .transpose]) (h : mathResult f tys = .ok t) :
    (∀ u ∈ tys, u.isFloatLike = true) ∧ mathType? f tys = some t := by
  unfold mathResult at h
  split at h
  · exact absurd (by decide) hf
  · exact absurd (by decide) hf
  · exact absurd (by decide) hf
  · split at h
    · cases h
    · next hfind =>
      refine ⟨fun u hu => by simpa using find?_eq_none.mp hfind u hu, ?_⟩
      split at h
      · next t' ht' => exact Except.ok.inj h ▸ ht'
      · cases h

theorem mathType?_pointwise (hf : f.isPointwise = true) (t : Ty) :
    mathType? f [t] = some t ∧ f.result? [t] = if t.isFloatLike then some t else none := by
  cases f <;> first
    | exact ⟨rfl, rfl⟩
    | exact absurd hf (by decide)

theorem mem_of_mathArity_eq_two :
    mathArity f = 2 → f ∈ [.atan2, .pow, .mod, .step, .distance, .dot, .cross, .reflect] := by
  cases f <;> decide

theorem mem_of_mathArity_eq_three : mathArity f = 3 → f ∈ [.mix, .smoothstep, .faceforward, .refract] := by
  cases f <;> decide

/-- The functions that are left when all others have a rule of their own. -/
def isMath (f : Builtin) : Prop :=
  f.isPointwise = true ∨ f ∈ [.abs, .sign, .transpose, .length] ∨ 2 ≤ mathArity f

/-- The rules for functions of floats agree with their signatures. -/
theorem result?_of_mathResult (hf : isMath f) (hlen : tys.length = mathArity f) (h : mathResult f tys = .ok t) :
    f.result? tys = some t := by
  by_cases hother : f ∈ [.abs, .sign, .transpose]
  · have hcases : f = .abs ∨ f = .sign ∨ f = .transpose := by simpa using hother
    have hone : ∃ a, tys = [a] := by
      refine length_eq_one_iff.mp (hlen.trans ?_)
      rcases hcases with rfl | rfl | rfl <;> rfl
    obtain ⟨a, rfl⟩ := hone
    rcases hcases with rfl | rfl | rfl
    all_goals
      obtain ⟨hc, h⟩ := rule_ite_ok h
      cases h
      simp [Builtin.result?, hc]
  -- the rest takes floats only, and its rule goes by the number of arguments
  obtain ⟨hfloat, ht⟩ := mathResult_floats hother h
  rcases hf with hp | hl | hmany
  · have hone : mathArity f = 1 := by cases f <;> first | rfl | exact absurd hp (by decide)
    obtain ⟨a, rfl⟩ := length_eq_one_iff.mp (hlen.trans hone)
    obtain ⟨hm, hr⟩ := mathType?_pointwise hp a
    rw [hr, if_pos (hfloat a mem_cons_self), ← hm, ht]
  · obtain rfl : f = .length := by
      simp only [mem_cons, not_mem_nil, or_false] at hl hother
      tauto
    obtain ⟨a, rfl⟩ := length_eq_one_iff.mp hlen
    simpa [mathType?, Builtin.result?, hfloat a mem_cons_self] using ht
  · match tys, hlen, ht, hfloat with
    | [], hlen, _, _ | [_], hlen, _, _ =>
      simp only [length_cons, length_nil] at hlen
      omega
    | [a, b], hlen, ht, hfloat =>
      have ha := hfloat a (by simp)
      have hb := hfloat b (by simp)
      have hf := mem_of_mathArity_eq_two hlen.symm
      fin_cases hf <;> simpa [mathType?, Builtin.result?, ha, hb] using ht
    | [a, b, c], hlen, ht, hfloat =>
      have ha := hfloat a (by simp)
      have hc := hfloat c (by simp)
      have hf := mem_of_mathArity_eq_three hlen.symm
      fin_cases hf <;> simpa [mathType?, Builtin.result?, ha, hc, and_assoc] using ht
    | _ :: _ :: _ :: _ :: _, hlen, _, _ => cases f <;> simp [mathArity] at hlen

theorem mathType?_mem (h : mathType? f tys = some t) : t = .float ∨ t = .basic .vec3 ∨ t ∈ tys := by
  unfold mathType? at h
  grind

/-- What a function of floats gives can be stored, because no texture is taken for an argument. -/
theorem mathResult_storable (htys : ∀ u ∈ tys, u.Storable ∨ u = .texture) (hlen : tys.length = mathArity f)
    (h : mathResult f tys = .ok t) : t.Storable := by
  by_cases hother : f ∈ [.abs, .sign, .transpose]
  · have hcases : f = .abs ∨ f = .sign ∨ f = .transpose := by simpa using hother
    have hone : ∃ a, tys = [a] := by
      refine length_eq_one_iff.mp (hlen.trans ?_)
      rcases hcases with rfl | rfl | rfl <;> rfl
    obtain ⟨a, rfl⟩ := hone
    rcases htys a mem_cons_self with hst | rfl
    · rcases hcases with rfl | rfl | rfl
      all_goals
        obtain ⟨-, h⟩ := rule_ite_ok h
        exact Except.ok.inj h ▸ hst
    · rcases hcases with rfl | rfl | rfl <;> cases h
  · obtain ⟨hfloat, ht⟩ := mathResult_floats hother h
    rcases mathType?_mem ht with rfl | rfl | hmem
    · decide
    · decide
    -- a texture is not like a float
    · refine (htys t hmem).resolve_right ?_
      rintro rfl
      exact absurd (hfloat _ hmem) (by decide)

theorem math_ok (hf : isMath f) (ha : SettledArgs J args) (h : math f args = .ok v) : v.Ok J := by
  obtain ⟨⟨⟩, harity, h⟩ := rule_bind_ok h
  obtain ⟨hlen, -⟩ := rule_ite_ok harity
  dsimp only at h
  obtain ⟨args', hargs, h⟩ := rule_bind_ok h
  obtain ⟨t, ht, h⟩ := rule_bind_ok h
  cases h
  obtain ⟨hg, htys⟩ := convertConsts_ok (by
    split
    · split <;> decide
    · decide) ha hargs
  have hlen' : (args'.map Value.ty).length = mathArity f := by rw [htys, length_map, hlen]
  have hfront : f ≠ .frontFacing := by
    rintro rfl
    exact absurd hf (by unfold isMath; decide)
  refine callBuiltin_ok hfront hg (result?_of_mathResult hf hlen' ht) (mathResult_storable ?_ hlen' ht)
  intro u hu
  obtain ⟨w, hw, rfl⟩ := List.mem_map.mp hu
  exact (hg w hw).2

/-! ## All of them -/

/-- A call of a built-in function gives a value in order. The two functions without arguments are no values. -/
theorem builtinValue_ok (hd : f ≠ .discard) (hff : f ≠ .frontFacing) (ha : SettledArgs J args)
    (h : builtinValue f args = .ok v) : v.Ok J := by
  unfold builtinValue at h
  split at h
  · next n isInt _ hf => exact vectorValue_ok hf ha h
  · next n t _ hf => exact matrixValue_ok hf ha h
  · next hv hm =>
    split at h
    · exact arrayLength_ok h
    · exact arrayLength_ok h
    · exact scalarConversion_ok (.inl ⟨rfl, rfl⟩) ha h
    · exact scalarConversion_ok (.inr (.inl ⟨rfl, rfl⟩)) ha h
    · exact scalarConversion_ok (.inr (.inr ⟨rfl, rfl⟩)) ha h
    · exact texel_ok ha h
    · obtain ⟨⟨⟩, harity, h⟩ := rule_bind_ok h
      exact extremum_ok (.inl ⟨rfl, (rule_ite_ok harity).1⟩) ha h
    · obtain ⟨hlen, h⟩ := rule_ite_error_ok h
      exact extremum_ok (.inr ⟨.inl rfl, not_lt.mp hlen⟩) ha h
    · obtain ⟨hlen, h⟩ := rule_ite_error_ok h
      exact extremum_ok (.inr ⟨.inr rfl, not_lt.mp hlen⟩) ha h
    · refine math_ok ?_ ha h
      cases f <;> first
        | contradiction
        | simp [isMath, Builtin.isPointwise, mathArity]

end GameMedia.Shader.Check
