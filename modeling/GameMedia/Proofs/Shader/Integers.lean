import GameMedia.Proofs.Shader.Hoisting
import GameMedia.Proofs.Shader.Loops

/-!
# Integers in accepted sources

How a constant expression gets a value of the type `int`. Operators and conversions give integers of a word and so do
declarations with a type, and a constant without a type that becomes an `int` in its place has to be one. What is not
looked at again is the sign of a typed constant and the length of an array, so the negation of the least word is an
`int` that the targets do not have. The numbers of loops are converted one by one before the sign of the step is taken.
-/

namespace GameMedia.Shader

open List Except

namespace Check

open Surface (Ident ValueSpec)

variable {env : Env} {st st' : State} {v w : Value} {c c' : Constant} {e : Surface.Expr} {pos : Pos} {vs : List Value}
  {spec : ValueSpec} {cs : List NamedConst}

/-! ## Names of constants -/

def constNamed? (env : Env) (st : State) (name : String) : Option NamedConst :=
  (lookupConst? name st.scopes).or (env.globals.consts.find? fun c => c.name == name)

theorem Looks.constNamed? (h : Looks st.scopes st'.scopes) (name : String) :
    constNamed? env st' name = constNamed? env st name := by
  obtain ⟨ts, hts⟩ := h.view
  have htemps : ∀ ss, lookupConst? name (grow (temps ts) ss) = lookupConst? name ss := by
    intro ss
    cases ss with
    | nil => rfl
    | cons s ss => simp [grow, lookupConst?, Scope.add, Scope.findConst?, temps]
  unfold Check.constNamed?
  rw [← lookupConst?_map_unmarked name st'.scopes, hts, htemps, lookupConst?_map_unmarked]

/-! ## Where integers come from -/

/-- **How an expression has a constant of the type `int`.** -/
inductive Makes (env : Env) (st : State) : Surface.Expr → Constant → Prop
  | word {e : Surface.Expr} {c : Constant} : c.IsWord → Makes env st e c
  | paren {pos : Pos} {e : Surface.Expr} {c : Constant} : Makes env st e c → Makes env st (.paren pos e) c
  | sign {pos : Pos} {op : Surface.UnaryOp} {code : Op} {e : Surface.Expr} {c c' : Constant} :
      unaryOpFor op = .ok code → Makes env st e c → c.unary? code = some c' → Makes env st (.unary pos op e) c'
  | named {pos : Pos} {name : String} {c : NamedConst} :
      constNamed? env st name = some c → c.ty.tag = .int → Makes env st (.ident pos name) c.value
  | length {callee arg : Surface.Expr} {spread : Bool} {name : String} {f : Builtin} {st₁ st₂ st₃ : State} {v : Value} :
      callee.name? = some name → calleeNamed callee.pos name env st₁ = .ok (.builtin f, st₂) → f = .len ∨ f = .cap →
      Looks st.scopes st₁.scopes → value arg env st₂ = .ok (v, st₃) → v.ty.tag = .array →
      Makes env st (.call callee [arg] spread) (.int v.ty.length)

theorem Makes.of_looks (hlooks : Looks st.scopes st'.scopes) (h : Makes env st' e c) : Makes env st e c := by
  induction h with
  | word hc => exact .word hc
  | paren _ ih => exact .paren ih
  | sign hop _ hc ih => exact .sign hop ih hc
  | named hname ht => exact .named (hlooks.constNamed? _ ▸ hname) ht
  | length hname hcallee hf hl hv ht => exact .length hname hcallee hf (hlooks.trans hl) hv ht

def MadeBy (env : Env) (st : State) (e : Surface.Expr) (v : Value) : Prop :=
  v.ty.tag = .int → ∀ c, v.constant? = some c → Makes env st e c

theorem Value.IsWord.madeBy (h : v.IsWord) : MadeBy env st e v := fun ht c hc => .word (h ht c hc)

theorem madeBy_of_none (h : v.constant? = none) : MadeBy env st e v := (Value.isWord_of_none h).madeBy

theorem identValue_makes :
    Returns env st (identValue pos name) fun v _ => MadeBy env st (.ident pos name) v := by
  refine goes_ite_fail fun _ => findLocal?_glances.returns fun r st₁ hr _ => ?_
  cases r with
  | some r => exact goes_pure (madeBy_of_none rfl)
  | none =>
    refine Goes.then (fun _ _ h => (findConst?_ok h).symm) fun o hnamed => ?_
    cases o with
    | some k =>
      refine goes_pure fun ht c hc => ?_
      unfold Value.ofConstant at ht hc
      split at hc
      · next hnone =>
        rw [if_pos hnone] at ht
        exact absurd ht (by decide : Ty.none.tag ≠ .int)
      · next hsome =>
        rw [if_neg hsome] at ht
        exact Option.some.inj hc ▸ .named ((hr.looks.constNamed? name).symm.trans hnamed) ht
    | none =>
      refine goes_globals_bind (goes_ruled.still fun v h => ?_)
      obtain ⟨-, h⟩ := rule_ite_error_ok h
      split at h
      · exact ok.inj h ▸ madeBy_of_none rfl
      obtain ⟨-, h⟩ := rule_ite_error_ok h
      split at h
      · exact ok.inj h ▸ madeBy_of_none rfl
      split at h
      · exact ok.inj h ▸ (isWord_ofBool _).madeBy
      split at h
      · exact ok.inj h ▸ (isWord_ofBool _).madeBy
      · cases h

theorem eachValue_array (ht : v.ty.tag = .array)
    (h : eachValue (fun _ pos v => ruled pos (settleShift v .int)) 0 args env st = .ok ([v], st')) :
    ∃ arg st₁, args = [arg] ∧ value arg env st = .ok (v, st₁) := by
  cases args with
  | nil =>
    rw [eachValue] at h
    cases (pure_ok h).1
  | cons arg args =>
    rw [eachValue] at h
    obtain ⟨vs, st₁, hvs, h⟩ := bind_ok h
    obtain ⟨u, st₂, hu, h⟩ := bind_ok h
    obtain ⟨w, st₃, hw, h⟩ := bind_ok h
    obtain ⟨ws, st₄, hws, h⟩ := bind_ok h
    obtain ⟨hlist, -⟩ := pure_ok h
    obtain ⟨rfl, rfl⟩ := cons.inj hlist
    obtain ⟨hw, -⟩ := ruled_ok hw
    have huw : u = w := by
      obtain ⟨-, huw | ⟨op, k, count, -, -, rfl⟩⟩ := settleShift_cases hw
      · exact huw
      · cases ht
    cases args with
    | nil => exact ⟨arg, st₂, rfl, huw ▸ (bind_of_ok hvs).trans hu⟩
    | cons arg' args =>
      rw [eachValue] at hws
      obtain ⟨_, _, _, hws⟩ := bind_ok hws
      obtain ⟨_, _, _, hws⟩ := bind_ok hws
      obtain ⟨_, _, _, hws⟩ := bind_ok hws
      obtain ⟨_, _, _, hws⟩ := bind_ok hws
      cases (pure_ok hws).1

theorem callFunc_isWord {args : List Value} :
    Returns env st (callFunc pos i sig args) fun vs _ => ∀ v ∈ vs, v.IsWord := by
  refine goes_ite (fun _ => goes_ite_fail fun _ => goes_pure (forall_mem_singleton.mpr (Value.isWord_of_none rfl)))
    fun _ => outputs_hoists.returns fun results _ _ hres => returns_bind fun _ _ _ => goes_pure fun v hv => ?_
  obtain ⟨j, hj, -⟩ := hres v hv
  refine Value.isWord_of_none ?_
  cases v with
  | typed e t => exact congrArg Code.Expr.constant? hj
  | _ => cases hj

theorem frontFacing_isWord : Returns env st (frontFacing pos n) fun vs _ => ∀ v ∈ vs, v.IsWord :=
  returns_bind fun _ _ _ => goes_frame_bind (goes_ite
    (fun _ => goes_pure (forall_mem_singleton.mpr (Value.isWord_of_none rfl))) fun _ => goes_bind_fail)

/-- Of the functions, only the lengths of arrays make integers that may be too large. -/
theorem call_makes :
    Returns env st (values (.call callee args spread)) fun vs _ => ∀ v ∈ vs, MadeBy env st (.call callee args spread) v
    := by
  rw [values]
  refine goes_ite_fail fun _ => ?_
  split
  · exact goes_fail
  · next name hname =>
    refine returns_bind fun k st₁ hk => ?_
    cases k with
    | helper i sig =>
      refine goes_ite_fail fun _ => goes_ite_fail fun _ => returns_bind fun _ _ _ => ?_
      exact callFunc_isWord.weaken fun vs _ _ h v hv => (h v hv).madeBy
    | builtin f =>
      by_cases hd : f = .discard
      · subst hd
        exact discard_looks.imp (fun _ => trivial) fun vs _ _ h => h ▸ forall_mem_nil _
      by_cases hff : f = .frontFacing
      · subst hff
        exact frontFacing_isWord.weaken fun vs _ _ h v hv => (h v hv).madeBy
      -- all other built-in functions take the same way through the match
      suffices h : Returns env st₁ (do
          let ws ← eachValue (fun _ pos v => ruled pos (settleShift v .int)) 0 args
          return [← ruled callee.pos (builtinValue f ws)] : Check (List Value)) fun vs _ =>
            ∀ v ∈ vs, MadeBy env st (.call callee args spread) v by
        cases f <;> first
          | exact h
          | contradiction
      refine returns_bind fun ws st₂ hws => goes_ruled.then fun w hw => goes_pure ?_
      refine forall_mem_singleton.mpr fun ht c hc => ?_
      rcases builtinValue_int hw with hw | ⟨hf, a, rfl, ha, hlength⟩
      · exact .word (hw ht c hc)
      · obtain ⟨arg, st₄, rfl, harg⟩ := eachValue_array ha hws
        rw [hlength] at hc
        exact Option.some.inj hc ▸ .length hname hk hf .refl harg ha

/-- **Every constant of the type `int` is one of those.** Only signs and parentheses are looked through: all else is
computed by a rule that gives words. -/
theorem values_makes (e : Surface.Expr) : Returns env st (values e) fun vs _ => ∀ v ∈ vs, MadeBy env st e v := by
  have hnone : ∀ {v : Value}, v.constant? = none → ∀ w ∈ [v], MadeBy env st e w := fun h =>
    forall_mem_singleton.mpr (madeBy_of_none h)
  have hconst : ∀ k : Constant, ∀ w ∈ [Value.const k], MadeBy env st e w := fun k =>
    forall_mem_singleton.mpr fun ht => absurd ht (by decide : Ty.none.tag ≠ .int)
  cases e with
  | ident pos name =>
    rw [values]
    exact identValue_makes.returns fun _ _ _ hv => goes_pure (forall_mem_singleton.mpr hv)
  | literal pos kind s =>
    cases kind with
    | int | float =>
      rw [values]
      split
      · exact goes_pure (hconst _)
      · exact goes_fail
    | imag | char | string => exact goes_fail
  | paren pos e =>
    rw [values]
    exact (values_makes e).weaken fun vs _ _ h v hv ht c hc => .paren (h v hv ht c hc)
  | composite ty elems =>
    rw [values]
    exact returns_bind fun _ _ _ => returns_bind fun _ _ _ => returns_bind fun _ _ _ => returns_bind fun _ _ _ => returns_bind fun _ _ _ =>
      goes_pure (hnone rfl)
  | selector base name =>
    rw [values]
    refine returns_bind fun _ _ _ => returns_bind fun b _ _ => goes_ruled.then fun w hw => goes_pure (hnone ?_)
    obtain ⟨t, -, rfl⟩ := swizzle_cases hw
    rfl
  | index base i =>
    rw [values]
    refine returns_bind fun _ _ _ => returns_bind fun b _ _ => ?_
    split
    · exact goes_fail
    · exact returns_bind fun _ _ _ => returns_bind fun _ _ _ => returns_bind fun _ _ _ => goes_pure (hnone rfl)
  | call callee args spread => exact call_makes
  | unary pos op e =>
    rw [values]
    refine goes_ruled.then fun code hcode => (values_makes e).returns fun vs _ _ hvs => ?_
    refine Goes.then (fun _ _ h => (expectOne_ok h).symm) fun u hu => goes_ruled.then fun w hw =>
      goes_pure (forall_mem_singleton.mpr fun ht c hc => ?_)
    obtain ⟨htag, k, hk, hkc⟩ := unary_constant hw hc
    exact .sign hcode (hvs u (hu ▸ mem_cons_self) (htag.symm.trans ht) k hk) hkc
  | binary op l r =>
    rw [values]
    exact returns_bind fun _ _ _ => returns_bind fun _ _ _ => returns_bind fun _ _ _ => returns_bind fun _ _ _ =>
      goes_ruled.then fun w hw => goes_pure (forall_mem_singleton.mpr (binary_isWord hw).madeBy)
  | _ => exact goes_fail

/-! ## Declared constants -/

theorem declaredConst_isWord (h : declaredConst spec e t v c env st = .ok (c', st')) (ht : t.tag = .int) :
    c'.IsWord := by
  obtain ⟨-, h⟩ := ite_fail_ok h
  obtain ⟨hfits, h⟩ := ite_fail_ok h
  rw [ht] at h
  dsimp only at h
  cases hk : c.toInt? with
  | none =>
    rw [hk] at h
    exact absurd h fail_ne_ok
  | some k =>
    rw [hk] at h
    obtain ⟨rfl, -⟩ := pure_ok h
    obtain ⟨n, hn, rfl⟩ := Option.map_eq_some_iff.mp hk
    have hint : c.isIntegral = true := by rw [Constant.isIntegral, hn]; rfl
    obtain ⟨m, hm, hword⟩ := fitsInt_iff.mp (by simpa [ht, hint] using hfits)
    obtain rfl := Option.some.inj (hn.symm.trans hm)
    exact ⟨n, rfl, hword⟩

theorem constValue_makes (h : constValue e env st = .ok ((v, c), st')) :
    v.constant? = some c ∧ Looks st.scopes st'.scopes ∧ (v.ty.tag = .int → Makes env st e c) := by
  obtain ⟨⟨w, wrote⟩, st₁, hrun, h⟩ := bind_ok h
  obtain ⟨st₂, hw, -, rfl⟩ := withoutStmts_ok hrun
  have hlooks := (value_hoists.ok hw).1.looks
  dsimp only at h
  cases hk : w.constant? with
  | none =>
    rw [hk] at h
    exact absurd h fail_ne_ok
  | some k =>
    rw [hk] at h
    cases wrote with
    | true => exact absurd h fail_ne_ok
    | false =>
      obtain ⟨heq, rfl⟩ := pure_ok h
      obtain ⟨rfl, rfl⟩ := Prod.mk.inj heq
      obtain ⟨vs, st₃, hvs, hone⟩ := bind_ok hw
      obtain ⟨rfl, rfl⟩ := expectOne_ok hone
      refine ⟨hk, hlooks, fun ht => ?_⟩
      have hmakes : Makes env { st with out := [] } e k := ((values_makes e).ok hvs).2 _ mem_cons_self ht k hk
      exact hmakes.of_looks (show Looks st.scopes (State.scopes { st with out := [] }) from .refl)

def DeclaresInt (env : Env) (st : State) (es : List Surface.Expr) (ty : Option Ty) (c : NamedConst) : Prop :=
  c.ty.tag = .int → c.value.IsWord ∨ ty = none ∧ ∃ e ∈ es, Makes env st e c.value

theorem namedConsts_ints (h : namedConsts spec ty ns env st = .ok (cs, st')) :
    ∀ c ∈ cs, DeclaresInt env st (ns.map Prod.snd) ty c := by
  induction ns generalizing st st' cs with
  | nil =>
    obtain ⟨rfl, -⟩ := pure_ok h
    exact forall_mem_nil _
  | cons n ns ih =>
    obtain ⟨⟨v, k⟩, st₁, hk, h⟩ := bind_ok h
    obtain ⟨hconst, hlooks, hmakes⟩ := constValue_makes hk
    have hfirst : ∃ c st₂, (ty = none → Looks st.scopes st₂.scopes) ∧
        DeclaresInt env st (n.2 :: ns.map Prod.snd) ty c ∧ (do
          let more ← namedConsts spec ty ns
          return if n.1.name = "_" then more else c :: more) env st₂ = .ok (cs, st') := by
      cases ty with
      | some t =>
        obtain ⟨c, st₂, hc, h⟩ := bind_ok h
        exact ⟨⟨n.1.name, t, c⟩, st₂, (nomatch ·), fun ht => .inl (declaredConst_isWord hc ht), h⟩
      | none =>
        obtain ⟨c, st₂, hc, h⟩ := bind_ok h
        obtain ⟨rfl, rfl⟩ := pure_ok hc
        exact ⟨_, st₁, fun _ => hlooks, fun ht => .inr ⟨rfl, n.2, mem_cons_self, hmakes ht⟩, h⟩
    obtain ⟨c, st₂, hlooks₂, hc, h⟩ := hfirst
    obtain ⟨more, st₃, hmore, h⟩ := bind_ok h
    obtain ⟨rfl, -⟩ := pure_ok h
    have hrest : ∀ c ∈ more, DeclaresInt env st (n.2 :: ns.map Prod.snd) ty c := by
      intro c hc ht
      rcases ih hmore c hc ht with hw | ⟨hty, e, he, hm⟩
      · exact .inl hw
      · exact .inr ⟨hty, e, mem_cons_of_mem _ he, hm.of_looks (hlooks₂ hty)⟩
    split
    · exact hrest
    · exact forall_mem_cons.mpr ⟨hc, hrest⟩

/-- **A declared integer is of a word where the declaration has a type**, and else what an expression makes. -/
theorem constSpec_ints (h : constSpec spec env st = .ok (cs, st')) :
    ∀ c ∈ cs, c.ty.tag = .int → c.value.IsWord ∨ spec.ty = none ∧ ∃ e ∈ spec.values, Makes env st e c.value := by
  intro c hc ht
  obtain ⟨-, h⟩ := ite_fail_ok h
  obtain ⟨ty, st₁, hty, h⟩ := bind_ok h
  rcases namedConsts_ints h c hc ht with hw | ⟨rfl, e, he, hmakes⟩
  · exact .inl hw
  obtain ⟨n, hn, rfl⟩ := List.mem_map.mp he
  have hmem : n.2 ∈ spec.values := (of_mem_zip hn).2
  cases hspec : spec.ty with
  | none =>
    rw [hspec] at hty
    obtain ⟨-, rfl⟩ := pure_ok hty
    exact .inr ⟨rfl, n.2, hmem, hmakes⟩
  | some e =>
    rw [hspec] at hty
    obtain ⟨t, -, ht⟩ := map_ok hty
    cases ht

end Check

/-! ## Accepted sources -/

instance (c : Constant) : Decidable c.IsWord :=
  match c with
  | .int n => decidable_of_iff (FitsWord n)
      ⟨fun h => ⟨n, rfl, h⟩, fun h => by obtain ⟨m, hm, h⟩ := h; exact Constant.int.inj hm ▸ h⟩
  | .bool _ => isFalse fun h => by obtain ⟨m, hm, -⟩ := h; cases hm
  | .float _ => isFalse fun h => by obtain ⟨m, hm, -⟩ := h; cases hm

/-- Whether a number that is written for an `int` is of a word. -/
def Code.Expr.IntFits : Expr → Prop
  | .number c h => h = .int → c.IsWord
  | _ => True

instance (n : Code.Expr) : Decidable n.IntFits :=
  match n with
  | .number c h => inferInstanceAs (Decidable (h = .int → c.IsWord))
  | .blank | .uniform _ | .texture _ | .localVar _ | .member _ | .builtin _ | .swizzle _ | .func _ | .unary _ _
  | .binary _ _ _ | .select _ _ _ | .call _ _ | .field _ _ | .index _ _ => isTrue trivial

/-- All integers in the code of a program are of a word. -/
def Program.IntsFit (p : Program) : Prop := ∀ b ∈ p.bodies, ∀ n ∈ b.1.top.nodes, n.IntFits

instance (p : Program) : Decidable p.IntsFit := inferInstanceAs (Decidable (∀ b ∈ p.bodies, _))

def Program.anyLoop (p : Program) (q : Code.Counter → Bool) : Bool :=
  p.bodies.any fun b => (b.1.top.places []).any fun x =>
    match x.2 with
    | .loop c _ => q c
    | _ => false

theorem Program.exists_loop {p : Program} (h : p.anyLoop q = true) :
    ∃ b ∈ p.bodies, ∃ x ∈ b.1.top.places [], ∃ c body, x.2 = .loop c body ∧ q c = true := by
  obtain ⟨b, hb, h⟩ := List.any_eq_true.mp h
  obtain ⟨x, hx, h⟩ := List.any_eq_true.mp h
  split at h
  · next c body heq => exact ⟨b, hb, x, hx, c, body, heq, h⟩
  · cases h

open Check

/-- A constant that is declared as the least word, and a loop down to it. -/
def leastSample : String := "package main
const m int = -2147483648
func f() int {
	x := 1
	for i := 0; i > m; i -= 1 << 30 {
		x += i
	}
	return x + m
}
"

/-- The name of the least word after a minus sign. -/
def negatedLeast : Surface.Expr := .unary default .neg (.ident default "m")

/-- A function that returns the negation of the least word. -/
def negatedLeastSample : String := "package main
const m int = -2147483648
func f() int {
	return -m
}
"

end GameMedia.Shader
