import GameMedia.Proofs.Shader.Lowering

/-!
# What expressions leave behind

Before an expression has its value, statements may have to run, and the innermost scope gets variables for what they
compute. Such statements stand before the one that the expression belongs to. They write nothing but those variables, so
they are out of sight of the source: no name means one of them, as they have no name. A mark of use is the other thing
that looking at an expression leaves, and it is always at the last variable of a name.
-/

namespace GameMedia.Shader

open List

namespace Code

/-- A statement behind which the next one runs, whatever it computes. -/
def Stmt.IsStraight : Stmt → Prop
  | .expr _ | .assign _ _ | .init _ => True
  | _ => False

/-- A statement that writes no variable below a number. -/
def Stmt.Hoisted (S : Setting) (n : Nat) (c : Stmt) : Prop := c.IsStraight ∧ ∀ i ∈ c.written S, n ≤ i

theorem Stmt.Hoisted.mono {m n : Nat} {c : Stmt} (h : c.Hoisted S n) (hmn : m ≤ n) : c.Hoisted S m :=
  ⟨h.1, fun i hi => hmn.trans (h.2 i hi)⟩

end Code

namespace Check

open Surface (identsAll)

variable {env : Env} {st st₁ st' : State} {pos : Pos} {name : String} {t : Ty} {i n : Nat} {v : Value} {vs : List Value}

/-! ## Looking at scopes -/

/-- New variables that the source has no names for. -/
def temps (ts : List Ty) : Added := { vars := ts.map fun t => ⟨"", t, default, .temporary⟩ }

/-- The scopes after something was looked at: variables that names mean are marked, and unnamed ones come in. -/
inductive Looks (ss : List Scope) : List Scope → Prop
  | refl : Looks ss ss
  | use {ss' : List Scope} (name : String) : Looks ss ss' → Looks ss (useVar name ss')
  | temp {ss' : List Scope} (t : Ty) : Looks ss ss' → Looks ss (grow (temps [t]) ss')

theorem Looks.trans (h : Looks ss ss₁) (h' : Looks ss₁ ss') : Looks ss ss' := by
  induction h' with
  | refl => exact h
  | use name _ ih => exact ih.use name
  | temp t _ ih => exact ih.temp t

theorem temps_append (ts us : List Ty) : (temps ts).append (temps us) = temps (ts ++ us) := by
  simp [temps, Added.append]

theorem map_unmarked_grow_temps (ts : List Ty) (ss : List Scope) :
    (grow (temps ts) ss).map Scope.unmarked = grow (temps ts) (ss.map Scope.unmarked) := by
  cases ss with
  | nil => rfl
  | cons s ss => simp [grow, Scope.add, Scope.unmarked, temps, Variable.unmarked, Function.comp_def]

/-- Marks apart, looking lets the innermost scope grow. -/
theorem Looks.view (h : Looks ss ss') : ∃ ts, ss'.map Scope.unmarked = grow (temps ts) (ss.map Scope.unmarked) := by
  induction h with
  | refl => exact ⟨[], (grow_empty _).symm⟩
  | use name _ ih => rwa [map_unmarked_useVar]
  | temp t _ ih =>
    obtain ⟨ts, hts⟩ := ih
    exact ⟨ts ++ [t], by rw [map_unmarked_grow_temps, hts, grow_grow, temps_append]⟩

theorem Looks.stop_le (h : Looks st.scopes st'.scopes) : stop st.view ≤ stop st'.view := by
  obtain ⟨ts, hts⟩ := h.view
  rw [State.view, State.view, hts]
  exact stop_le_grow _ _

/-- Names of the source mean what they meant. -/
theorem lookupVar?_temps (ts : List Ty) (ss : List Scope) (hn : name ≠ "") :
    lookupVar? name (grow (temps ts) ss) = lookupVar? name ss := by
  refine lookupVar?_grow_of_ne rfl (fun v hv => ?_) ss
  obtain ⟨t, -, rfl⟩ := List.mem_map.mp hv
  exact Ne.symm hn

/-! ## Steps -/

/-- A step that looks at the scopes and writes statements out of sight of what was there. -/
structure Hoists (env : Env) (st st' : State) : Prop where
  looks : Looks st.scopes st'.scopes
  writes : ∃ cs, st'.out = st.out ++ cs ∧ ∀ c ∈ cs, c.Hoisted env.setting (stop st.view)

theorem hoists_of_looks (h : Looks st.scopes st'.scopes) (hout : st'.out = st.out) : Hoists env st st' :=
  ⟨h, [], by rw [hout, append_nil], forall_mem_nil _⟩

theorem hoists_refl (st : State) : Hoists env st st := hoists_of_looks .refl rfl

theorem Hoists.trans (h : Hoists env st st₁) (h' : Hoists env st₁ st') : Hoists env st st' := by
  obtain ⟨hl, cs, hout, hcs⟩ := h
  obtain ⟨hl', ds, hout', hds⟩ := h'
  refine ⟨hl.trans hl', cs ++ ds, by rw [hout', hout, append_assoc], ?_⟩
  exact forall_mem_append.mpr ⟨hcs, fun c hc => (hds c hc).mono hl.stop_le⟩

instance : Std.Refl (Hoists env) := ⟨hoists_refl⟩

instance : IsTrans State (Hoists env) := ⟨fun _ _ _ => .trans⟩

/-- A step that looks at the scopes and writes nothing. -/
structure Glances (st st' : State) : Prop where
  looks : Looks st.scopes st'.scopes
  out : st'.out = st.out

instance : Std.Refl Glances := ⟨fun _ => ⟨.refl, rfl⟩⟩

instance : IsTrans State Glances := ⟨fun _ _ _ h h' => ⟨h.looks.trans h'.looks, h'.out.trans h.out⟩⟩

theorem Glances.hoists (h : Glances st st') : Hoists env st st' := hoists_of_looks h.looks h.out

theorem temporary_hoists : Goes env (Hoists env) st (temporary t) fun i _ => i = stop st.view := by
  intro i st' h
  obtain ⟨rfl, hst⟩ := declare_ok h
  have hscopes : st'.scopes = grow (temps [t]) st.scopes := by
    rw [hst]
    simp [State.scopes, grow, Scope.add, temps]
  refine ⟨hoists_of_looks ?_ (by rw [hst]), (State.stop_view st).symm⟩
  rw [hscopes]
  exact .temp t .refl

theorem findLocal?_glances : Goes env Glances st (findLocal? name) fun _ _ => True := by
  intro r st' h
  obtain ⟨-, hout, hs | hs⟩ := findLocal?_ok h
  · exact ⟨⟨hs ▸ .refl, hout.symm⟩, trivial⟩
  · exact ⟨⟨hs ▸ .use name .refl, hout.symm⟩, trivial⟩

/-- What is looked at with its statements dropped leaves only what it does to the scopes. -/
theorem withoutStmts_glances (hp : ∀ s, Goes env (Hoists env) s p Q) :
    Goes env Glances st (withoutStmts p) fun _ _ => True := by
  rintro ⟨a, wrote⟩ st' h
  obtain ⟨st₁, hrun, -, rfl⟩ := withoutStmts_ok h
  have hlooks : Looks st.scopes st₁.scopes := ((hp _).ok hrun).1.looks
  exact ⟨⟨hlooks, rfl⟩, trivial⟩

theorem identValue_glances : Goes env Glances st (identValue pos name) fun _ _ => True := by
  refine goes_ite_fail fun _ => findLocal?_glances.bind fun found _ _ _ => ?_
  cases found with
  | some p => exact goes_pure trivial
  | none =>
    refine Goes.then (fun _ _ h => (findConst?_ok h).symm) fun c _ => ?_
    cases c with
    | some c => exact goes_pure trivial
    | none => exact goes_globals_bind (goes_ruled.still fun _ _ => trivial)

theorem outputs_hoists : Goes env (Hoists env) st (outputs ps) fun vs _ =>
    ∀ v ∈ vs, ∃ i, v.expr = .localVar i ∧ stop st.view ≤ i := by
  induction ps generalizing st with
  | nil => exact goes_pure (forall_mem_nil _)
  | cons p ps ih =>
    refine temporary_hoists.bind fun i st₁ h₁ hi => ih.bind fun vs _ _ hvs => goes_pure ?_
    refine forall_mem_cons.mpr ⟨⟨i, rfl, hi.ge⟩, fun v hv => ?_⟩
    obtain ⟨j, hj, hle⟩ := hvs v hv
    exact ⟨j, hj, h₁.looks.stop_le.trans hle⟩

/-- A call with several results writes them to new variables. -/
theorem callFunc_hoists (hsig : env.globals.funcs[i]? = some sig) (hlen : args.length = sig.ins.length) :
    Goes env (Hoists env) st (callFunc pos i sig args) fun _ _ => True := by
  refine goes_ite (fun _ => goes_ite_fail fun _ => goes_pure trivial) fun _ => ?_
  intro vs st' h
  obtain ⟨results, st₁, ho, h⟩ := bind_ok h
  obtain ⟨⟨hl, cs, hout, hcs⟩, hresults⟩ := outputs_hoists.ok ho
  obtain ⟨u, he, -⟩ := bind_pure_ok h
  have hfunc : env.setting.funcs i = some sig.type := Option.map_eq_some_iff.mpr ⟨sig, hsig, rfl⟩
  have hdrop : ((args ++ results).map Value.expr).drop sig.type.ins.length = results.map Value.expr := by
    rw [map_append, drop_left' (by simp [Signature.type, hlen])]
  -- it is written where the variables are there already
  obtain rfl := emit_ok he
  refine ⟨⟨hl, cs ++ [_], by rw [hout, append_assoc], forall_mem_append.mpr ⟨hcs, ?_⟩⟩, trivial⟩
  rw [forall_mem_singleton]
  refine ⟨trivial, fun j hj => ?_⟩
  simp only [Code.Stmt.written, hfunc, hdrop] at hj
  obtain ⟨e, he, hej⟩ := mem_filterMap.mp hj
  obtain ⟨v, hv, rfl⟩ := List.mem_map.mp he
  obtain ⟨k, hk, hle⟩ := hresults v hv
  rw [hk] at hej
  cases hej
  exact hle

theorem storeElements_hoists (hn : n ≤ array)
    (h : storeElements array k vs env st = .ok (u, st')) :
    st'.scopes = st.scopes ∧ ∃ cs, st'.out = st.out ++ cs ∧ ∀ c ∈ cs, c.Hoisted env.setting n := by
  induction vs generalizing st k with
  | nil =>
    obtain ⟨-, rfl⟩ := pure_ok h
    exact ⟨rfl, [], (append_nil _).symm, forall_mem_nil _⟩
  | cons v vs ih =>
    obtain ⟨u, st₁, he, h⟩ := bind_ok h
    obtain rfl := emit_ok he
    obtain ⟨hscopes, cs, hout, hcs⟩ := ih h
    refine ⟨hscopes, _ :: cs, by rw [hout, append_assoc]; rfl, forall_mem_cons.mpr ⟨?_, hcs⟩⟩
    refine ⟨trivial, fun i hi => ?_⟩
    simp only [Code.Stmt.written, Code.Expr.root?, Option.toList_some, mem_singleton] at hi
    exact hi ▸ hn

/-- The elements of an array go to a new variable. -/
theorem array_hoists {f : Nat → List Value} : Goes env (Hoists env) st (do
    let array ← temporary t
    storeElements array 0 vs
    return f array) fun _ _ => True := by
  intro r st' h
  obtain ⟨array, st₁, htemp, h⟩ := bind_ok h
  obtain ⟨⟨hl, ds, hout, hds⟩, rfl⟩ := temporary_hoists.ok htemp
  obtain ⟨u, hstore, -⟩ := bind_pure_ok h
  obtain ⟨hscopes, cs, hout', hcs⟩ := storeElements_hoists le_rfl hstore
  exact ⟨⟨hscopes ▸ hl, ds ++ cs, by rw [hout', hout, append_assoc], forall_mem_append.mpr ⟨hds, hcs⟩⟩, trivial⟩

theorem frontFacing_still : Goes env Eq st (frontFacing pos n) fun _ _ => True :=
  goes_ruled.then fun _ _ => goes_frame_bind (goes_ite (fun _ => goes_pure trivial) fun _ => goes_bind_fail)

theorem literalType_still :
    Goes env Eq st (literalType pos ty inferred elems) fun _ _ => True := by
  refine goes_ite_fail fun _ => ?_
  cases elems.find? isKeyed with
  | some k => exact goes_fail
  | none => exact goes_ite_fail fun _ => goes_pure trivial

/-! ## The rules -/

/-- A rule that puts values into their places and leaves the context alone. -/
def Still (env : Env) (place : Nat → Pos → Value → Check Value) : Prop :=
  ∀ j pos v w s s', place j pos v env s = .ok (w, s') → s = s'

theorem still_ruled {f : Value → Except Complaint Value} : Still env fun _ pos v => ruled pos (f v) := by
  intro j pos v w s s' h
  exact (ruled_ok h).2

theorem still_element {elem : Ty} :
    Still env fun _ pos v => do return .typed (← ruled pos (settle v elem .arrayLiteral)) elem := by
  intro j pos v w s s' h
  obtain ⟨e, -, h⟩ := ruled_bind_ok h
  exact (pure_ok h).2

theorem still_argument (ins : List Param) : Still env (argumentFor ins) := by
  intro j pos v w s s' h
  have hgoes : Goes env Eq s (argumentFor ins j pos v) fun _ _ => True := by
    unfold argumentFor
    cases ins[j]? with
    | some p => exact goes_ruled.then fun _ _ => goes_pure trivial
    | none => exact goes_pure trivial
  exact (hgoes.ok h).1

/-- An expression is looked at. What it writes is out of sight, unless it is no more than a discarded fragment. -/
def LooksAt (env : Env) (st : State) (p : Check (List Value)) : Prop :=
  Goes env (fun s s' => Looks s.scopes s'.scopes) st p fun vs st' => vs ≠ [] → Hoists env st st'

theorem Goes.looksAt (h : Goes env (Hoists env) st p fun _ _ => True) : LooksAt env st p :=
  h.imp Hoists.looks fun _ _ hst _ _ => hst

theorem discard_looks :
    Goes env (fun s s' => Looks s.scopes s'.scopes) st (discard pos n) fun vs _ => vs = [] := by
  refine goes_ruled.then fun _ _ => goes_frame_bind (goes_ite (fun _ => ?_) fun _ => goes_bind_fail)
  intro vs st' h
  obtain ⟨u, st₁, he, h⟩ := bind_ok h
  obtain rfl := emit_ok he
  obtain ⟨rfl, rfl⟩ := pure_ok h
  exact ⟨.refl, rfl⟩

/-- Where an expression has one value, nothing is discarded. -/
theorem LooksAt.one {α : Type} {f : Value → Check α} {Q : α → State → Prop} (h : LooksAt env st (values e))
    (hf : ∀ v s, Goes env (Hoists env) s (f v) Q) :
    Goes env (Hoists env) st (do f (← expectOne e (← values e))) Q := by
  intro a st' hrun
  obtain ⟨v, st₁, hv, hrun⟩ := one_value_ok hrun
  exact ((hf v st₁).ok hrun).imp_left ((h.ok hv).2 (cons_ne_nil _ _)).trans

theorem LooksAt.value (h : LooksAt env st (values e)) : Goes env (Hoists env) st (value e) fun _ _ => True := by
  intro v st' hrun
  obtain ⟨vs, st₁, hvs, hone⟩ := bind_ok hrun
  obtain ⟨rfl, rfl⟩ := expectOne_ok hone
  exact ⟨(h.ok hvs).2 (cons_ne_nil _ _), trivial⟩

theorem goes_ruled_pure {α : Type} {x : Except Complaint α} {f : α → List Value} :
    Goes env (Hoists env) st (ruled pos x >>= fun a => pure (f a)) fun _ _ => True :=
  goes_ruled.then fun _ _ => goes_pure trivial

mutual

theorem values_hoists (e : Surface.Expr) {st : State} : LooksAt env st (values e) := by
  have hfail : ∀ {q : Pos} {d : Complaint}, LooksAt env st (fail q d) := goes_fail
  cases e with
  | ident pos name =>
    rw [values]
    exact (identValue_glances.before (fun h h' => h.hoists.trans h') fun _ _ _ _ => goes_pure trivial).looksAt
  | literal pos kind s =>
    cases kind with
    | int | float =>
      rw [values]
      split
      · exact (goes_pure trivial).looksAt
      · exact hfail
    | imag | char | string => exact hfail
  | composite ty elems =>
    rw [values]
    exact ((resolve_glances ty).before (fun h h' => h.hoists.trans h') fun _ _ _ _ => literalType_still.then fun _ _ =>
      (eachValue_hoists elems still_element).bind fun _ _ _ _ => array_hoists).looksAt
  | paren pos e =>
    rw [values]
    exact values_hoists e
  | selector base name =>
    rw [values]
    exact ((values_hoists base).one fun _ _ => goes_ruled_pure).looksAt
  | index base i =>
    rw [values]
    refine ((values_hoists base).one (Q := fun _ _ => True) fun b s => ?_).looksAt
    split
    · exact goes_fail
    · exact (values_hoists i).one fun _ _ => goes_ruled_pure
  | call callee args spread =>
    rw [values]
    refine goes_ite_fail fun _ => ?_
    cases hname : callee.name? with
    | none => exact hfail
    | some name =>
      refine calleeNamed_ok.then fun c hc => ?_
      cases c with
      | helper i sig =>
        obtain ⟨-, hsig⟩ := hc i sig rfl
        refine goes_ite_fail fun hle => goes_ite_fail fun hge => Goes.looksAt
          ((eachValue_hoists args (still_argument _)).bind fun ws _ _ hlen => callFunc_hoists hsig (by omega))
      | builtin f =>
        by_cases hd : f = .discard
        · subst hd
          exact discard_looks.weaken fun _ _ _ hvs hne => absurd hvs hne
        by_cases hff : f = .frontFacing
        · subst hff
          exact (frontFacing_still.still fun _ _ => trivial).looksAt
        -- all other built-in functions take the same way through the match
        have hrest : Goes env (Hoists env) st (do
            let ws ← eachValue (fun _ pos v => ruled pos (settleShift v .int)) 0 args
            return [← ruled callee.pos (builtinValue f ws)]) fun _ _ => True :=
          (eachValue_hoists args still_ruled).bind fun _ _ _ _ => goes_ruled_pure
        cases f <;> first
          | exact hrest.looksAt
          | contradiction
  | unary pos op e =>
    rw [values]
    exact (goes_ruled.then fun _ _ => (values_hoists e).one fun _ _ => goes_ruled_pure).looksAt
  | binary op l r =>
    rw [values]
    exact ((values_hoists l).one fun _ _ => (values_hoists r).one fun _ _ => goes_ruled_pure).looksAt
  | slice base | typeAssert base | keyValue key value | arrayType pos length elem | sliceType pos elem
  | structType pos fields | funcType pos | funcLit pos | mapType pos | chanType pos | interfaceType pos => exact hfail

theorem eachValue_hoists (es : List Surface.Expr) {st : State} {i : Nat} {place : Nat → Pos → Value → Check Value}
    (hplace : Still env place) : Goes env (Hoists env) st (eachValue place i es) fun vs _ => vs.length = es.length := by
  cases es with
  | nil =>
    rw [eachValue]
    exact goes_pure rfl
  | cons e es =>
    rw [eachValue]
    exact (values_hoists e).one fun v _ => Goes.then (fun _ _ h => ⟨hplace _ _ _ _ _ _ h, trivial⟩) fun _ (_ : True) =>
      (eachValue_hoists es hplace).bind fun _ _ _ hlen => goes_pure (congrArg (· + 1) hlen)

theorem resolve_glances (e : Surface.Expr) {st : State} : Goes env Glances st (resolve infer e) fun _ _ => True := by
  cases e with
  | ident pos name =>
    rw [resolve]
    refine Goes.then (fun _ _ h => (findType?_ok h).symm) fun found _ => ?_
    cases found with
    | some u => exact goes_pure trivial
    | none => exact goes_ite_fail fun _ => goes_fail
  | paren pos e =>
    rw [resolve]
    exact resolve_glances e
  | arrayType pos length elem =>
    rw [resolve]
    refine (resolve_glances elem).bind fun u _ _ _ => goes_ite_fail fun _ => ?_
    cases length with
    | none => exact goes_ite_else_fail fun _ => goes_pure trivial
    | some e =>
      -- the statements of a length are dropped, its variables stay in the scope
      refine (withoutStmts_glances fun _ => (values_hoists e).value).bind fun r _ _ _ => ?_
      obtain ⟨v, wrote⟩ := r
      dsimp only
      split
      · exact goes_pure trivial
      · exact goes_fail
  | unary pos op e => cases op <;> exact goes_fail
  | _ => exact goes_fail

end

/-! ## Types and targets -/

theorem typeOf_glances : Goes env Glances st (typeOf e) fun _ _ => True :=
  (resolve_glances e).bind fun _ _ _ _ => goes_pure trivial

theorem declaredType?_glances {e : Option Surface.Expr} : Goes env Glances st (declaredType? e) fun _ _ => True := by
  cases e with
  | none => exact goes_pure trivial
  | some e => exact typeOf_glances.map fun _ _ _ => trivial

theorem value_hoists : Goes env (Hoists env) st (value e) fun _ _ => True := (values_hoists e).value

/-- A name that is assigned to means a variable. -/
theorem namedTarget_lookup : Goes env (Hoists env) st (namedTarget pos name) fun v _ =>
    ∃ i w, lookupVar? name st.view = some (i, w) ∧ v = .typed (.localVar i) w.ty := by
  have hfind : Goes env (Hoists env) st (findLocal? name) fun r _ =>
      lookupVar? name st.view = r.map fun p => (p.1, p.2.unmarked) :=
    fun _ _ h => ⟨(findLocal?_glances.ok h).1.hoists, (findLocal?_view h).1⟩
  refine hfind.bind fun found _ _ hview => ?_
  cases found with
  | some p =>
    dsimp only
    split
    · exact goes_fail
    · exact goes_fail
    · exact goes_pure ⟨p.1, p.2.unmarked, hview, by rw [Variable.unmarked_ty]⟩
  | none =>
    exact Goes.then (fun _ _ h => (findConst?_ok h).symm) fun _ _ => goes_ite_fail fun _ =>
      goes_globals_bind (goes_ite_fail fun _ => goes_bind_fail)

theorem target_hoists (e : Surface.Expr) : Goes env (Hoists env) st (target e) fun _ _ => True := by
  cases e with
  | paren pos e =>
    rw [target]
    exact target_hoists e
  | ident pos name =>
    rw [target]
    exact namedTarget_lookup.weaken fun _ _ _ _ => trivial
  | index base i =>
    rw [target]
    refine (target_hoists base).bind fun b _ _ _ => ?_
    split
    · exact goes_fail
    · exact value_hoists.bind fun _ _ _ _ => goes_ruled.then fun _ _ => goes_pure trivial
  | selector base name =>
    rw [target]
    exact (target_hoists base).bind fun _ _ _ _ => goes_ruled.still fun _ _ => trivial
  | _ => exact goes_fail

end Check

end GameMedia.Shader
