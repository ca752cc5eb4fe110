import GameMedia.Proofs.Shader.Builtins
import GameMedia.Proofs.Shader.Sites
import GameMedia.Shader.Check.Expr

/-!
# Expressions

Checking an expression gives values in order and lets the innermost scope grow by unnamed variables only. The proof
follows the three functions that call each other: values of an expression, values of a list of expressions, and the
type that an expression means. Names keep their meaning throughout, so the names that stand in an expression are looked
up in the scopes that its statement begins with.
-/

namespace GameMedia.Shader

open List Option

namespace Surface

mutual

/-- The names that stand in an expression, types apart. -/
def Expr.idents : Expr → List String
  | .ident _ name => [name]
  | .composite _ elems => identsAll elems
  | .paren _ e => e.idents
  | .selector base _ => base.idents
  | .index base i => base.idents ++ i.idents
  | .call callee args _ => callee.idents ++ identsAll args
  | .unary _ _ e => e.idents
  | .binary _ l r => l.idents ++ r.idents
  | _ => []

def identsAll : List Expr → List String
  | [] => []
  | e :: es => e.idents ++ identsAll es

end

theorem Expr.mem_idents_of_name? {e : Expr} (h : e.name? = some name) : name ∈ e.idents := by
  fun_induction Expr.name? e with
  | case1 pos n =>
    cases h
    simp [Expr.idents]
  | case2 pos e ih =>
    rw [Expr.idents]
    exact ih h
  | case3 => cases h

end Surface

namespace Check

open Code (Judge)
open Surface (identsAll)

variable {K : Site} {st st' : State} {pos : Pos} {name : String} {i n : Nat} {t elem : Ty} {sig : Signature} {v : Value}
  {e : Surface.Expr} {vs : List Value} {env : Env} {ins : List Param}

/-! ## Names -/

theorem lookupConst?_map_unmarked (name : String) (ss : List Scope) :
    lookupConst? name (ss.map Scope.unmarked) = lookupConst? name ss := by
  induction ss with
  | nil => rfl
  | cons s ss ih => rw [map_cons, lookupConst?, lookupConst?, ih, Scope.unmarked_findConst?]

theorem lookupType?_map_unmarked (name : String) (ss : List Scope) :
    lookupType? name (ss.map Scope.unmarked) = lookupType? name ss := by
  induction ss with
  | nil => rfl
  | cons s ss ih =>
    rw [map_cons, lookupType?, lookupType?, ih]
    rfl

/-- The first entry with a key and its place belong together. -/
theorem getElem?_of_lookup {us : List (String × Ty)} (hi : us.findIdx? (fun u => u.1 == name) = some i)
    (ht : us.lookup name = some t) : (us.map Prod.snd)[i]? = some t := by
  induction us generalizing i with
  | nil => cases hi
  | cons u us ih =>
    obtain ⟨n, tn⟩ := u
    rw [findIdx?_cons] at hi
    rw [lookup_cons] at ht
    by_cases hn : name = n
    · subst hn
      simp only [beq_self_eq_true, if_true, some.injEq] at hi ht
      subst hi ht
      rfl
    · simp only [beq_eq_false_iff_ne.mpr (Ne.symm hn), beq_eq_false_iff_ne.mpr hn, Bool.false_eq_true, if_false] at hi ht
      obtain ⟨j, hj, rfl⟩ := map_eq_some_iff.mp hi
      exact ih hj ht

theorem getElem?_of_find? {fs : List Signature} (hi : fs.findIdx? (fun f => f.name == name) = some i)
    (hs : fs.find? (fun f => f.name == name) = some sig) : fs[i]? = some sig := by
  induction fs generalizing i with
  | nil => cases hi
  | cons f fs ih =>
    rw [findIdx?_cons] at hi
    rw [find?_cons] at hs
    cases hf : f.name == name with
    | true =>
      rw [hf] at hi hs
      cases hi
      exact hs
    | false =>
      rw [hf] at hi hs
      obtain ⟨j, hj, rfl⟩ := map_eq_some_iff.mp hi
      exact ih hj hs

theorem textureIndex?_lt {g : Globals} (h : g.textureIndex? name = some i) : i < g.options.textureCount := by
  obtain ⟨j, -, h⟩ := bind_eq_some_iff.mp h
  obtain ⟨hc, h⟩ := ite_none_right_eq_some.mp h
  cases h
  exact of_decide_eq_true (Bool.and_eq_true_iff.mp hc).2

theorem globalValue_ok (hg : K.env.globals.Sound) (h : globalValue K.env.globals name = .ok v) :
    v.Ok (K.judge ss) := by
  unfold globalValue at h
  obtain ⟨-, h⟩ := rule_ite_error_ok h
  split at h
  · next i t hi ht =>
    cases h
    exact ⟨Judge.good_uniform (getElem?_of_lookup hi ht), .inl (hg.uniforms (name, t) (mem_of_lookup ht))⟩
  · obtain ⟨-, h⟩ := rule_ite_error_ok h
    split at h
    · next i hi =>
      cases h
      exact ⟨Judge.good_texture (textureIndex?_lt hi), .inr rfl⟩
    · split at h
      · exact Except.ok.inj h ▸ ofBool_ok true
      split at h
      · exact Except.ok.inj h ▸ ofBool_ok false
      · cases h

theorem finds_local : K.Finds st (findLocal? name) fun r st' =>
    lookupVar? name st.view = r.map (fun p => (p.1, p.2.unmarked)) ∧ st'.view = st.view := by
  intro r st' h
  obtain ⟨hlook, hout, hview⟩ := findLocal?_view h
  exact ⟨Site.moves_of_eq Added.temps_empty hview hout.symm, hlook, hview⟩

theorem identValue_ok (hr : K.Ready st) (hn : name ∈ K.names) :
    K.Finds st (identValue pos name) fun v st' => v.Ok (K.judge st'.view) := by
  refine goes_ite_fail fun _ => finds_local.bind fun found st₁ hm hfound => ?_
  obtain ⟨hlook, hview⟩ := hfound
  cases found with
  | some p =>
    obtain ⟨hgood, hst, -⟩ := hr.lookup hn hlook
    rw [Variable.unmarked_ty] at hgood hst
    exact goes_pure ⟨hview ▸ hgood, .inl hst⟩
  | none =>
    refine Goes.then (fun _ _ h => (findConst?_ok h).symm) fun c hc => ?_
    cases c with
    | some c =>
      refine goes_pure (ofConstant_ok ?_)
      rcases or_eq_some_iff.mp hc with hc | ⟨-, hc⟩
      · exact (hr.moves hm).scopes.lookupConst? (by rw [State.view, lookupConst?_map_unmarked]; exact hc)
      · exact hr.globals.consts c (List.mem_of_find?_eq_some hc)
    | none => exact goes_globals_bind (goes_ruled.still fun v hv => globalValue_ok hr.globals hv)

/-! ## Calls -/

theorem expectOne_ok (h : expectOne e vs env st = .ok (v, st')) : vs = [v] ∧ st = st' := by
  unfold expectOne at h
  split at h
  · obtain ⟨rfl, rfl⟩ := pure_ok h
    exact ⟨rfl, rfl⟩
  · exact absurd h fail_ne_ok
  · exact absurd h fail_ne_ok

/-- Where an expression has to have one value, what follows goes on with it. -/
theorem one_value_ok {α : Type} {f : Value → Check α} {r : α × State}
    (h : (do f (← expectOne e (← values e)) : Check α) env st = .ok r) :
    ∃ v st₁, values e env st = .ok ([v], st₁) ∧ f v env st₁ = .ok r := by
  obtain ⟨vs, st₁, hvs, h⟩ := bind_ok h
  obtain ⟨v, st₂, hone, h⟩ := bind_ok h
  obtain ⟨rfl, rfl⟩ := expectOne_ok hone
  exact ⟨v, st₁, hvs, h⟩

theorem Goes.one {α : Type} {f : Value → Check α} {R : State → State → Prop} [IsTrans State R]
    {Q : Value → State → Prop} {S : α → State → Prop} (h : Goes env R st (values e) fun vs st' => ∀ v ∈ vs, Q v st')
    (hf : ∀ v st₁, R st st₁ → Q v st₁ → Goes env R st₁ (f v) S) :
    Goes env R st (do f (← expectOne e (← values e))) S := by
  intro a st' hrun
  obtain ⟨v, st₁, hv, hrun⟩ := one_value_ok hrun
  obtain ⟨hfirst, hvs⟩ := h.ok hv
  exact ((hf v st₁ hfirst (hvs v mem_cons_self)).ok hrun).imp_left (IsTrans.trans _ _ _ hfirst)

/-- The results of a call go to new variables with consecutive numbers. -/
theorem outputs_ok (hs : K.Sane st) (hps : ∀ p ∈ ps, p.ty.Storable) :
    K.Finds st (outputs ps) fun vs st' =>
      (∀ v ∈ vs, v.Good (K.judge st'.view)) ∧ vs.map Value.ty = ps.map Param.ty ∧
      vs.map Value.expr = (range' (stop st.view) ps.length).map .localVar ∧
      ∀ i ∈ range' (stop st.view) ps.length, Writable st'.view i := by
  induction ps generalizing st with
  | nil => exact goes_pure ⟨by simp, rfl, rfl, by simp⟩
  | cons p ps ih =>
    rw [forall_mem_cons] at hps
    refine (hs.temporary hps.1).bind fun i st₁ hm hi => (ih (hs.moves hm) hps.2).bind fun ws st₂ hm' hws => goes_pure ?_
    obtain ⟨hgood, hw, rfl, hstop⟩ := hi
    obtain ⟨hws, htys, hexprs, hwr⟩ := hws
    refine ⟨forall_mem_cons.mpr ⟨⟨hgood.mono hm'.judge_le, .inl hps.1⟩, hws⟩, ?_, ?_, ?_⟩
    · rw [map_cons, map_cons, htys]
      rfl
    · rw [map_cons, hexprs, hstop]
      rfl
    · rw [length_cons, range'_succ]
      exact forall_mem_cons.mpr ⟨hm'.writable hw, hstop ▸ hwr⟩

/-- A call of a helper function. Its results are values of its result type, or the new variables it writes. -/
theorem callFunc_ok (hs : K.Sane st) (hsig : K.env.globals.funcs[i]? = some sig) (hc : K.Called i)
    (hargs : ∀ v ∈ args, v.Good (K.judge st.view)) (htys : args.map Value.ty = sig.ins.map Param.ty) :
    K.Finds st (callFunc pos i sig args) fun vs st' => ∀ v ∈ vs, v.Ok (K.judge st'.view) := by
  have hsound := hs.globals.funcs sig (mem_of_getElem? hsig)
  have hfunc : K.env.setting.funcs i = some sig.type := map_eq_some_iff.mpr ⟨sig, hsig, rfl⟩
  refine goes_ite (fun hsome => goes_ite_fail fun houts => goes_pure ?_) fun _ => ?_
  -- with a result, the call is an expression and nothing is written
  · have hne : sig.result ≠ .none := fun he => by rw [he] at hsome; exact absurd hsome (by decide)
    have hall := goodAll_of_good hargs
    rw [htys] at hall
    rw [forall_mem_singleton]
    refine ⟨Judge.GoodAll.func (f := sig.type) hall hfunc hc ?_ hne, .inl (hsound.result.resolve_left hne)⟩
    simpa [Signature.type] using houts
  -- without a result, the call is a statement that writes new variables
  · refine (outputs_ok hs hsound.outs).bind fun results st₁ hm hres => ?_
    obtain ⟨hgood, hrtys, hexprs, hw⟩ := hres
    have hargs' : ∀ v ∈ args, v.Good (K.judge st₁.view) := fun v hv => ⟨(hargs v hv).1.mono hm.judge_le, (hargs v hv).2⟩
    have hall := goodAll_of_good (forall_mem_append.mpr ⟨hargs', hgood⟩)
    rw [map_append, map_append, htys, hrtys] at hall
    have hwrites : K.Writes st₁.view (.expr (.call (.func i) ((args ++ results).map Value.expr))) := by
      rw [map_append]
      refine Site.writes_call hfunc hc hall ?_ ?_ ?_
      · simpa [Signature.type] using congrArg length htys
      · rw [hexprs]
        exact Code.distinctLocals_map nodup_range'
      · rw [hexprs, Code.filterMap_local?_map]
        exact hw
    exact (Site.finds_emit hwrites).bind fun _ _ _ hview => goes_pure fun v hv => hview ▸ (hgood v hv).ok

theorem discard_ok : K.Finds st (discard pos n) fun vs _ => vs = [] := by
  refine goes_ruled.then fun _ _ => goes_frame_bind (goes_ite (fun hk => ?_) fun _ => goes_bind_fail)
  exact (Site.finds_emit (Site.writes_jump (.inr (.inl rfl)) hk)).bind fun _ _ _ _ => goes_pure rfl

theorem frontFacing_ok : K.Finds st (frontFacing pos n) fun vs st' => ∀ v ∈ vs, v.Ok (K.judge st'.view) := by
  refine goes_ruled.then fun _ _ => goes_frame_bind (goes_ite (fun hk => goes_pure ?_) fun _ => goes_bind_fail)
  rw [forall_mem_singleton]
  exact ⟨Judge.goodAll_nil.builtin (fun _ => hk) rfl, .inl (by decide)⟩

/-- What a called name means is a function of the file by its place, or a built-in function. -/
theorem calleeNamed_ok : Goes env Eq st (calleeNamed pos name) fun c _ => ∀ i sig, c = .helper i sig →
    env.globals.funcIndex? name = some i ∧ env.globals.funcs[i]? = some sig := by
  refine goes_globals_bind (goes_get_bind ?_)
  dsimp only
  split
  · next i sig hi hsig _ =>
    refine goes_pure fun j s hj => ?_
    obtain ⟨rfl, rfl⟩ := Callee.helper.inj hj
    exact ⟨hi, getElem?_of_find? hi hsig⟩
  · refine goes_ite_fail fun _ => Goes.then (fun _ _ h => ⟨builtinNamed?_ok h, trivial⟩) fun b (_ : True) => ?_
    cases b with
    | some f => exact goes_pure nofun
    | none => exact goes_bind_fail

/-! ## Arrays -/

/-- The type of an array literal is an array of plain values. -/
theorem literalType_ok (hty : ty.Storable) :
    Goes env Eq st (literalType pos ty inferred elems) fun t _ => ∃ e n, t = .array e n ∧ e.Plain := by
  refine goes_ite_fail fun htag => ?_
  rw [not_not] at htag
  obtain ⟨e, n, rfl, he⟩ := hty.cases.resolve_left fun hp => hp.tag_ne_array htag
  cases elems.find? isKeyed with
  | some k => exact goes_fail
  | none =>
    refine goes_ite_fail fun _ => goes_pure ?_
    cases inferred with
    | true => exact ⟨e, _, rfl, he⟩
    | false => exact ⟨e, n, rfl, he⟩

theorem storeElements_ok (harray : (K.judge st.view).Good (.localVar array) (.array elem n))
    (hw : Writable st.view array) (hvs : ∀ v ∈ vs, v.Good (K.judge st.view) ∧ v.ty = elem) :
    K.Finds st (storeElements array k vs) fun _ st' => st'.view = st.view := by
  induction vs generalizing st k with
  | nil => exact goes_pure rfl
  | cons v vs ih =>
    obtain ⟨⟨hv, hty⟩, hvs⟩ := forall_mem_cons.mp hvs
    have hindex : (K.judge st.view).Good (.index (.localVar array) (numberFor (.int k) .int)) elem :=
      harray.index (good_numberFor rfl) rfl
    refine (Site.finds_emit (Site.writes_assign hindex rfl hw (hty ▸ hv.1))).bind fun _ st₁ _ hview => ?_
    rw [← hview] at harray hw hvs ⊢
    exact ih harray hw hvs

/-! ## The rules -/

theorem predeclared?_storable (h : predeclared? name = some t) : t.Storable := by
  unfold predeclared? at h
  split at h
  all_goals first
    | exact some.inj h ▸ by decide
    | cases h

theorem Goes.value (h : Goes env R st (values e) fun vs st' => ∀ v ∈ vs, Q v st') : Goes env R st (value e) Q := by
  intro v st' hrun
  obtain ⟨vs, st₁, hvs, hone⟩ := bind_ok hrun
  obtain ⟨rfl, rfl⟩ := expectOne_ok hone
  exact (h.ok hvs).imp_right fun hall => hall v mem_cons_self

/-- What is left where statements are dropped. Names other than those of the statement may stand there. -/
theorem finds_withoutStmts (h : Site.Finds { K with names } { st with out := [] } p Q) :
    K.Finds st (withoutStmts p) fun r st' => (∃ st₁, Q r.1 st₁) ∧ st'.out = st.out := by
  rintro ⟨a, wrote⟩ st' hrun
  obtain ⟨st₁, hp, -, rfl⟩ := withoutStmts_ok hrun
  obtain ⟨hm, ha⟩ := h.ok hp
  exact ⟨hm.of_aside, ⟨st₁, ha⟩, rfl⟩

theorem elements?_good (hv : v.Ok J) (h : elements? v.ty = some (elem, n)) : J.Good v.expr v.ty ∧ elem.Storable := by
  cases v with
  | const c | shift op m count => cases h
  | typed e t =>
    rcases hv.2 with hst | rfl
    · exact ⟨hv.1, (elements?_plain hst h).storable⟩
    · cases h

/-- Arguments that have the types of the parameters at their places. -/
theorem map_ty_eq (hlen : vs.length = ins.length)
    (h : ∀ (j : Nat) (v : Value), vs[j]? = some v → ∀ p, ins[j]? = some p → v.ty = p.ty) :
    vs.map Value.ty = ins.map Param.ty := by
  refine ext_getElem (by simpa using hlen) fun j h₁ h₂ => ?_
  rw [getElem_map, getElem_map]
  have hj : j < vs.length := by simpa using h₁
  exact h j vs[j] (List.getElem?_eq_getElem hj) _ (List.getElem?_eq_getElem (hlen ▸ hj))

/-- A rule that puts values into their places changes nothing else. -/
def Places (K : Site) (place : Nat → Pos → Value → Check Value) (R : Nat → Value → Prop) : Prop :=
  ∀ j pos v w s s', v.Ok (K.judge s.view) → place j pos v K.env s = .ok (w, s') →
    s = s' ∧ w.Ok (K.judge s.view) ∧ R j w

theorem places_element (helem : elem.Storable) :
    Places K (fun _ pos v => do return .typed (← ruled pos (settle v elem .arrayLiteral)) elem) fun _ w => w.ty = elem
    := by
  intro j pos v w s s' hv h
  obtain ⟨e, he, rfl, rfl⟩ := ruled_pure_ok h
  exact ⟨rfl, ⟨settle_good rfl hv helem he, .inl helem⟩, rfl⟩

theorem places_argument (hins : ∀ p ∈ ins, p.ty.Storable) :
    Places K (argumentFor ins) fun j w => ∀ p, ins[j]? = some p → w.ty = p.ty := by
  intro j pos v w s s' hv h
  unfold argumentFor at h
  cases hp : ins[j]? with
  | some p =>
    rw [hp] at h
    obtain ⟨e, he, rfl, rfl⟩ := ruled_pure_ok h
    have hst := hins p (mem_of_getElem? hp)
    exact ⟨rfl, ⟨settle_good rfl hv hst he, .inl hst⟩, fun q hq => congrArg Param.ty (some.inj (hp.symm.trans hq))⟩
  | none =>
    rw [hp] at h
    obtain ⟨rfl, rfl⟩ := pure_ok h
    exact ⟨rfl, hv, by simp [hp]⟩

theorem places_settled : Places K (fun _ pos v => ruled pos (settleShift v .int)) fun _ w => w.Settled := by
  intro j pos v w s s' hv h
  obtain ⟨hs, rfl⟩ := ruled_ok h
  obtain ⟨hok, hsettled⟩ := settleShift_ok rfl hv hs
  exact ⟨rfl, hok, hsettled⟩

mutual

/-- **Values are in order.** The statements written for them are too, and only unnamed variables come into scope. -/
theorem values_ok (e : Surface.Expr) {K : Site} {st : State} (hn : e.idents ⊆ K.names) (hr : K.Ready st) :
    K.Finds st (values e) fun vs st' => ∀ v ∈ vs, v.Ok (K.judge st'.view) := by
  cases e with
  | ident pos name =>
    rw [values]
    exact (identValue_ok hr (hn (by simp [Surface.Expr.idents]))).bind fun v _ _ hv =>
      goes_pure (forall_mem_singleton.mpr hv)
  | literal pos kind s =>
    cases kind with
    | int | float =>
      rw [values]
      split
      · exact goes_pure (by simp [Value.Ok])
      · exact goes_fail
    | imag | char | string => exact goes_fail
  | composite ty elems =>
    rw [values]
    refine (resolve_ok ty hr).bind fun found st₁ hm₁ hst => ?_
    have hr₁ := hr.moves hm₁
    refine (literalType_ok hst).then fun t ht => ?_
    obtain ⟨elem, n, rfl, helem⟩ := ht
    refine (eachValue_ok elems hn hr₁ (places_element helem.storable)).bind fun ws st₂ hm₂ hws => ?_
    obtain ⟨hok, -, htys⟩ := hws
    -- the array is a new variable, and its elements are stored one by one
    refine ((hr₁.moves hm₂).temporary (helem.storable_array n)).bind fun array st₃ hm₃ harray => ?_
    obtain ⟨hgood, hw, -, -⟩ := harray
    have helems : ∀ v ∈ ws, v.Good (K.judge st₃.view) ∧ v.ty = elem := by
      intro v hv
      obtain ⟨j, hj⟩ := mem_iff_getElem?.mp hv
      have hvt := htys j v hj
      exact ⟨((hok v hv).mono hm₃.judge_le).good_of_ty (by rw [hvt]; exact helem.storable.not_isNone), hvt⟩
    refine (storeElements_ok hgood hw helems).bind fun _ st₄ _ hview => goes_pure ?_
    rw [forall_mem_singleton, hview]
    exact ⟨hgood, .inl (helem.storable_array n)⟩
  | paren pos e =>
    rw [values]
    exact values_ok e hn hr
  | selector base name =>
    rw [values]
    refine (values_ok base hn hr).one fun b st₁ _ hb => goes_ruled.then fun v hv => goes_pure ?_
    obtain ⟨t, -, hvok, -⟩ := swizzle_ok hb hv
    exact forall_mem_singleton.mpr hvok
  | index base i =>
    rw [values]
    obtain ⟨hbase, hi⟩ := append_subset.mp hn
    refine (values_ok base hbase hr).one fun b st₁ hm₁ hb => ?_
    split
    · exact goes_fail
    · next elem n helems =>
      refine (values_ok i hi (hr.moves hm₁)).one fun v st₂ hm₂ hv => goes_ruled.then fun p hp => goes_pure ?_
      obtain ⟨hbg, hbst⟩ := elements?_good (hb.mono hm₂.judge_le) helems
      rw [forall_mem_singleton]
      exact ⟨hbg.index (position_good rfl hv hp) helems, .inl hbst⟩
  | call callee args spread =>
    rw [values]
    obtain ⟨hcallee, hargs⟩ := append_subset.mp hn
    refine goes_ite_fail fun _ => ?_
    cases hname : callee.name? with
    | none => exact goes_fail
    | some name =>
      refine calleeNamed_ok.then fun c hc => ?_
      cases c with
      | helper i sig =>
        obtain ⟨hi, hsig⟩ := hc i sig rfl
        have hsound := hr.globals.funcs sig (mem_of_getElem? hsig)
        refine goes_ite_fail fun hle => goes_ite_fail fun hge =>
          (eachValue_ok args hargs hr (places_argument hsound.ins)).bind fun ws st₁ hm hws => ?_
        obtain ⟨hok, hlen, htys⟩ := hws
        have hmap : ws.map Value.ty = sig.ins.map Param.ty := map_ty_eq (by omega) (by simpa using htys)
        have hgood : ∀ v ∈ ws, v.Good (K.judge st₁.view) := by
          intro v hv
          refine (hok v hv).good_of_ty ?_
          obtain ⟨p, hp, hpt⟩ := List.mem_map.mp (hmap ▸ List.mem_map_of_mem hv)
          rw [← hpt]
          exact (hsound.ins p hp).not_isNone
        have hmem : name ∈ K.names := hcallee (Surface.Expr.mem_idents_of_name? hname)
        exact callFunc_ok (hr.moves hm).toSane hsig ⟨name, hmem, hi⟩ hgood hmap
      | builtin f =>
        by_cases hd : f = .discard
        · subst hd
          exact discard_ok.weaken fun vs _ _ hvs => by simp [hvs]
        by_cases hff : f = .frontFacing
        · subst hff
          exact frontFacing_ok
        -- all other built-in functions take the same way through the match
        have hrest : K.Finds st (do
            let ws ← eachValue (fun _ pos v => ruled pos (settleShift v .int)) 0 args
            return [← ruled callee.pos (builtinValue f ws)]) fun vs st' => ∀ v ∈ vs, v.Ok (K.judge st'.view) := by
          refine (eachValue_ok args hargs hr places_settled).bind fun ws st₁ _ hws => goes_ruled.then fun v hv =>
            goes_pure (forall_mem_singleton.mpr (builtinValue_ok hd hff (fun w hw => ?_) hv))
          obtain ⟨hok, -, hset⟩ := hws
          obtain ⟨j, hj⟩ := mem_iff_getElem?.mp hw
          exact ⟨hok w hw, hset j w hj⟩
        cases f <;> first
          | exact hrest
          | contradiction
  | unary pos op e =>
    rw [values]
    exact goes_ruled.then fun code hcode => (values_ok e hn hr).one fun w _ _ hw => goes_ruled.then fun v hv =>
      goes_pure (forall_mem_singleton.mpr (unary_ok rfl hcode hw hv))
  | binary op l r =>
    rw [values]
    obtain ⟨hl, hr'⟩ := append_subset.mp hn
    exact (values_ok l hl hr).one fun a _ hm₁ ha => (values_ok r hr' (hr.moves hm₁)).one fun b _ hm₂ hb =>
      goes_ruled.then fun v hv => goes_pure (forall_mem_singleton.mpr (binary_ok rfl (ha.mono hm₂.judge_le) hb hv))
  | slice base | typeAssert base | keyValue key value | arrayType pos length elem | sliceType pos elem
  | structType pos fields | funcType pos | funcLit pos | mapType pos | chanType pos | interfaceType pos =>
    exact goes_fail

/-- Values of a list of expressions, each put into its place by a rule that changes nothing else. -/
theorem eachValue_ok (es : List Surface.Expr) {K : Site} {st : State} {i : Nat}
    {R : Nat → Value → Prop} (hn : identsAll es ⊆ K.names) (hr : K.Ready st)
    (hplace : Places K place R) : K.Finds st (eachValue place i es) fun vs st' =>
      (∀ v ∈ vs, v.Ok (K.judge st'.view)) ∧ vs.length = es.length ∧ ∀ j v, vs[j]? = some v → R (i + j) v := by
  cases es with
  | nil =>
    rw [eachValue]
    exact goes_pure ⟨by simp, rfl, by simp⟩
  | cons e es =>
    rw [eachValue]
    obtain ⟨he, hes⟩ := append_subset.mp hn
    refine (values_ok e he hr).one fun w st₁ hm₁ hw => Goes.then (fun _ _ h => hplace _ _ _ _ _ _ hw h) fun v hv =>
      (eachValue_ok es hes (hr.moves hm₁) hplace).bind fun rest st₂ hm₂ hrest => goes_pure ?_
    obtain ⟨hok, hR⟩ := hv
    obtain ⟨hoks, hlen, hRs⟩ := hrest
    refine ⟨forall_mem_cons.mpr ⟨hok.mono hm₂.judge_le, hoks⟩, by simp [hlen], fun j u hu => ?_⟩
    cases j with
    | zero => exact some.inj hu ▸ hR
    | succ j =>
      have hj := hRs j u hu
      rwa [Nat.add_right_comm] at hj

/-- A type that the source gives can be stored. -/
theorem resolve_ok (e : Surface.Expr) {K : Site} {st : State} (hr : K.Ready st) :
    K.Finds st (resolve infer e) fun r _ => r.1.Storable := by
  cases e with
  | ident pos name =>
    rw [resolve]
    refine Goes.then (fun _ _ h => (findType?_ok h).symm) fun found hf => ?_
    cases found with
    | some u =>
      refine goes_pure ?_
      rcases or_eq_some_iff.mp hf with hf | ⟨-, hf⟩
      · rcases or_eq_some_iff.mp hf with hf | ⟨-, hf⟩
        · exact hr.scopes.lookupType? (by rw [State.view, lookupType?_map_unmarked]; exact hf)
        · exact hr.globals.types (name, u) (mem_of_lookup hf)
      · exact predeclared?_storable hf
    | none => exact goes_ite_fail fun _ => goes_fail
  | paren pos e =>
    rw [resolve]
    exact resolve_ok e hr
  | arrayType pos length elem =>
    rw [resolve]
    refine (resolve_ok elem hr).bind fun u st₁ hm₁ hst => goes_ite_fail fun htag => ?_
    have hplain := hst.plain htag
    cases length with
    | none => exact goes_ite_else_fail fun _ => goes_pure (hplain.storable_array 0)
    | some e =>
      -- the statements of a length are dropped, its variables stay in the scope
      have hlength := (values_ok e (List.Subset.refl _) ((hr.moves hm₁).aside e.idents)).value
      refine (finds_withoutStmts hlength).bind fun r _ _ _ => ?_
      obtain ⟨v, wrote⟩ := r
      dsimp only
      split
      · exact goes_pure (hplain.storable_array _)
      · exact goes_fail
  | unary pos op e => cases op <;> exact goes_fail
  | _ => exact goes_fail

end

end Check

end GameMedia.Shader
