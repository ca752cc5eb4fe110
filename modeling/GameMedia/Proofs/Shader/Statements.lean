import GameMedia.Proofs.Shader.Assignments
import GameMedia.Shader.Check.Stmt

/-!
# Single statements

Statements that open no scope: declarations, calls, returns and jumps, and the head of a loop. Each lets the innermost
scope grow by what it declares and by unnamed variables, and what it writes is right for its site.
-/

namespace GameMedia.Shader

open List Option

namespace Surface

/-- The names that stand in a declaration, types apart. -/
def Spec.idents : Spec → List String
  | .value s => identsAll s.values
  | _ => []

def Spec.variables : GroupKind → Spec → List Ident
  | .var, .value s => s.names
  | _, _ => []

end Surface

namespace Check

open Surface (Spec ValueSpec identsAll)

variable {K : Site} {st st₁ st' : State} {c : Constant} {n : Nat}

/-! ## Declarations -/

theorem declareConst_moves {c : NamedConst} (hc : c.Sound) : K.Enters st (declareConst c) fun _ _ => True := by
  intro u st' h
  obtain rfl := declareConst_ok h
  refine ⟨⟨⟨{ consts := [c] }, nofun, ⟨nofun, nofun, by simpa using hc, nofun⟩, ?_⟩, [], by simp, nofun⟩, trivial⟩
  simp [State.view_def, grow, Scope.add, Scope.unmarked]

theorem declareType_moves (ht : t.Storable) : K.Enters st (declareType name t) fun _ _ => True := by
  intro u st' h
  obtain rfl := declareType_ok h
  refine ⟨⟨⟨{ types := [(name, t)] }, nofun, ⟨nofun, nofun, nofun, by simpa using ht⟩, ?_⟩, [], by simp, nofun⟩, trivial⟩
  simp [State.view_def, grow, Scope.add, Scope.unmarked]

theorem declareConsts_ok (hcs : ∀ c ∈ cs, c.Sound) :
    K.Enters st (declareConsts pos cs) fun _ _ => True := by
  induction cs generalizing st with
  | nil => exact goes_pure trivial
  | cons c cs ih =>
    rw [forall_mem_cons] at hcs
    exact goes_notRedeclared_bind ((declareConst_moves hcs.1).bind fun _ _ _ _ => ih hcs.2)

/-- **One declaration of a group.** -/
theorem localSpec_ok (hn : spec.idents ⊆ K.names)
    (hf : spec.variables kind ⊆ K.fresh) (hr : K.Ready st) : K.Enters st (localSpec kind spec) fun _ _ => True := by
  unfold localSpec
  split
  · exact (constSpec_ok hr).enter fun cs _ _ hcs => declareConsts_ok hcs
  · exact (typeOf_ok hr).enter fun t _ _ ht => goes_notRedeclared_bind (declareType_moves ht)
  · exact varSpec_ok hn hf hr
  · exact goes_pure trivial

/-! ## Calls -/

theorem idents_stripParens (e : Surface.Expr) : (stripParens e).idents = e.idents := by
  fun_induction stripParens e with
  | case1 pos e ih => rwa [Surface.Expr.idents]
  | case2 => rfl

theorem needsUse_ok : Goes env Eq st (needsUse callee) fun _ _ => True := by
  unfold needsUse
  split
  · exact goes_pure trivial
  · exact goes_globals_bind (goes_ite (fun _ => goes_pure trivial) fun _ =>
      Goes.then (fun _ _ h => ⟨builtinNamed?_ok h, trivial⟩) fun _ (_ : True) => goes_pure trivial)

theorem types?_length {es : List Code.Expr}
    (h : Code.types? S Γ es = some ts) : ts.length = es.length := by
  induction es generalizing ts with
  | nil =>
    cases h
    rfl
  | cons e es ih =>
    simp only [Code.types?, bind_eq_bind, bind_eq_some_iff] at h
    obtain ⟨t, -, us, hus, h⟩ := h
    cases h
    simp [ih hus]

/-- A call that has a value may also be a statement. -/
theorem Site.writes_expr
    (h : (K.judge ss).Good (.call f args) t) : K.Writes ss (.expr (.call f args)) := by
  -- A function with a value has no outputs, so its arguments are its inputs.
  have hins : ∀ i, f = .func i → ∃ ft, K.env.setting.funcs i = some ft ∧
      Code.types? K.env.setting (typesOf ss) args = some ft.ins ∧ ft.outs = [] := by
    rintro i rfl
    have ht := h.typed
    simp only [Code.Expr.type?, bind_eq_bind, bind_eq_some_iff] at ht
    obtain ⟨ft, hft, ts, hts, ht⟩ := ht
    split at ht
    · next hc => exact ⟨ft, hft, hc.2.2 ▸ hts, hc.1⟩
    · cases ht
  have hdrop : ∀ {ft : Code.FuncType}, Code.types? K.env.setting (typesOf ss) args = some ft.ins →
      args.drop ft.ins.length = [] := fun hts => drop_eq_nil_iff.mpr (types?_length hts).ge
  refine ⟨trivial, ?_, h.fine, (fun _ h => by cases h), (fun _ _ h => by cases h), ?_⟩
  · cases f with
    | func i =>
      obtain ⟨ft, hft, hts, houts⟩ := hins i rfl
      refine (Option.any_eq_true _ _).mpr ⟨ft, hft, decide_eq_true ⟨?_, ?_⟩⟩
      · rw [houts, append_nil, hts]
      · rw [hdrop hts]
        exact ⟨forall_mem_nil _, nodup_nil⟩
    | _ => exact isSome_iff_exists.mpr ⟨t, h.typed⟩
  · intro j hj
    cases f with
    | func i =>
      obtain ⟨ft, hft, hts, -⟩ := hins i rfl
      simp [Code.Stmt.written, hft, hdrop hts] at hj
    | _ => cases hj

/-- **A call as a statement.** -/
theorem exprStmt_ok (hn : e.idents ⊆ K.names) (hr : K.Ready st) : K.Enters st (exprStmt e) fun _ _ => True := by
  rw [← idents_stripParens e] at hn
  unfold exprStmt
  split
  · next heq =>
    rw [heq] at hn
    refine needsUse_ok.then fun _ _ => goes_ite_fail fun _ => (values_ok _ hn hr).enter fun vs _ _ hvs => ?_
    split
    · exact (Site.finds_emit (Site.writes_expr (hvs _ mem_cons_self).1)).enters
    · exact goes_pure trivial
  · exact goes_fail

/-! ## Returns -/

theorem returnedValues_gathers (h : returnedValues pos n es env st = .ok (vs, st')) :
    Gathers env n es st vs st' := by
  unfold returnedValues at h
  split at h
  · next hlen => exact .inl ⟨hlen, h⟩
  · next hlen =>
    split at h
    · obtain ⟨ws, st₁, hws, h⟩ := bind_ok h
      obtain ⟨hge, h⟩ := ite_fail_ok h
      obtain ⟨hle, h⟩ := ite_fail_ok h
      obtain ⟨rfl, rfl⟩ := pure_ok h
      exact .inr ⟨_, ws, rfl, Ne.symm hlen, hws, by omega, rfl⟩
    · exact absurd (ite_fail_ok h).2 fail_ne_ok

theorem returnedValues_ok (hn : identsAll es ⊆ K.names) (hr : K.Ready st) :
    K.Finds st (returnedValues pos n es) fun vs st' => ∀ p ∈ vs, p.2.Ok (K.judge st'.view) :=
  fun _ _ h => (returnedValues_gathers h).ok hn hr

theorem outputStores_ok (hps : ∀ p ∈ ps, p.1.2.Ok (K.judge st.view))
    (houts : ∀ k p, ps[k]? = some p → K.Accepts st.view (.localVar (n + k)) p.2 ∧ p.2.Storable) :
    Goes K.env Eq st (outputStores n ps) fun ts _ =>
      ∀ p ∈ ts, K.Accepts st.view p.1.expr p.1.ty ∧ p.1.ty.Storable ∧ (K.judge st.view).Good p.2 p.1.ty := by
  induction ps generalizing n with
  | nil => exact goes_pure (by simp)
  | cons p ps ih =>
    rw [forall_mem_cons] at hps
    obtain ⟨hacc, hst⟩ := houts 0 _ rfl
    have hlater : ∀ k p, ps[k]? = some p → K.Accepts st.view (.localVar (n + 1 + k)) p.2 ∧ p.2.Storable := by
      intro k p hp
      rw [Nat.add_assoc, Nat.add_comm 1 k]
      exact houts (k + 1) p hp
    exact goes_ruled.then fun e he => (ih hps.2 hlater).then fun ts hts =>
      goes_pure (forall_mem_cons.mpr ⟨⟨hacc, hst, settle_good rfl hps.1 hst he⟩, hts⟩)

/-- The outputs of the function are places to store to, for a statement that returns. -/
theorem Site.Ready.accepts_output (hr : K.Ready st) (hret : K.returns = true)
    (hk : K.env.frame.outs[k]? = some t) : K.Accepts st.view (.localVar (K.env.frame.inCount + k)) t ∧ t.Storable := by
  obtain ⟨v, hv, rfl, hrole⟩ := hr.frame.outs k t hk
  have hst := hr.scopes.numbered hv
  have hlt := (List.getElem?_eq_some_iff.mp hk).1
  refine ⟨Site.accepts_variable (map_eq_some_iff.mpr ⟨v, hv, rfl⟩) hst
    ⟨v, .inr (.inr ⟨hret, hv, k, hlt, rfl⟩)⟩ ?_, hst⟩
  exact ⟨v, hv, by rw [hrole]; nofun, by rw [hrole]; nofun⟩

/-- **Returning.** A body that has a result returns one, and any other sets its outputs and returns none. -/
theorem returnStmt_ok (hret : K.returns = true) (hn : identsAll es ⊆ K.names) (hr : K.Ready st) :
    K.Enters st (returnStmt pos es) fun _ _ => True := by
  rcases hr.frame.result with hnone | hst
  · have hleave : ∀ s, K.Enters s (emit (.ret none)) fun _ _ => True :=
      fun s => (Site.finds_emit (Site.writes_jump (.inl rfl) hnone)).enters
    refine goes_frame_bind (goes_ite (fun hsome => ?_) fun _ => goes_ite (fun _ => goes_ite_fail fun _ => hleave st)
      fun _ => goes_ite_fail fun _ => (returnedValues_ok hn hr).enter fun vs st₁ hm₁ hok => ?_)
    · rw [hnone] at hsome
      exact absurd hsome (by decide)
    have hr₁ := hr.moves hm₁
    -- a value stands for the output at its place
    have houts : ∀ k p, (vs.zip K.env.frame.outs)[k]? = some p →
        K.Accepts st₁.view (.localVar (K.env.frame.inCount + k)) p.2 ∧ p.2.Storable :=
      fun k p hp => hr₁.accepts_output hret (List.getElem?_zip_eq_some.mp hp).2
    exact (outputStores_ok (fun p hp => hok p.1 (of_mem_zip hp).1) houts).then fun ts hts =>
      (stores_ok hr₁.toSane hts).enter fun cs _ _ hcs => (Site.finds_emitAll hcs).enter fun _ s _ _ => hleave s
  · refine goes_frame_bind (goes_ite (fun _ => ?_) fun hno => absurd (by simp [hst.not_isNone]) hno)
    split
    · refine (value_ok (append_subset.mp hn).1 hr).enter fun v _ _ hv => goes_ruled.then fun e' he => ?_
      exact (Site.finds_emit (Site.writes_ret_some hst.ne_none (settle_good rfl hv hst he))).enters
    · exact goes_fail
    · exact goes_fail

/-! ## Jumps and assignments -/

theorem branchStmt_ok :
    K.Enters st (branchStmt pos K.inLoop label kind) fun _ _ => True := by
  refine goes_ite_fail fun _ => ?_
  cases kind with
  | leave =>
    refine goes_ite_else_fail fun hloop => ?_
    exact (Site.finds_emit (Site.writes_jump (.inr (.inr (.inr rfl))) hloop)).enters
  | next =>
    refine goes_ite_else_fail fun hloop => ?_
    exact (Site.finds_emit (Site.writes_jump (.inr (.inr (.inl rfl))) hloop)).enters
  | goto | fallthrough => exact goes_fail

theorem assignStmt_ok (hl : identsAll lhs ⊆ K.names)
    (hn : identsAll rhs ⊆ K.names) (hf : op = .define → definedIdents lhs ⊆ K.fresh) (hr : K.Ready st) :
    K.Enters st (assignStmt pos lhs rhs op) fun _ _ => True := by
  cases op with
  | define => exact define_ok hl hn (hf rfl) hr
  | assign => exact assign_ok hl hn hr
  | compound op => exact compound_ok hl hn hr

/-! ## Heads of loops -/

/-- Nothing is written on the way, and the innermost scope grows by unnamed variables. -/
def Site.Looks (K : Site) (st st' : State) : Prop := K.Moves Added.Temps st st' ∧ st'.out = st.out

theorem Site.Looks.trans (h : K.Looks st st₁) (h' : K.Looks st₁ st') : K.Looks st st' :=
  ⟨h.1.trans_temps h'.1, h'.2.trans h.2⟩

instance : Std.Refl K.Looks := ⟨fun st => ⟨Site.moves_refl st, rfl⟩⟩

instance : IsTrans State K.Looks := ⟨fun _ _ _ => .trans⟩

theorem loopConstant_ok (hr : K.Ready st) : Goes K.env K.Looks st (loopConstant e ty) fun r _ =>
    (r.2 = .int ∨ r.2 = .float) ∧ r.2 = defaultType r.1 ∧ ∀ u, ty = some u → r.2 = u := by
  have hvalue : Goes K.env K.Looks st (withoutStmts (value e)) fun _ _ => True := by
    intro r st' h
    obtain ⟨hm, -, hout⟩ := (withoutStmts_value_ok hr).ok h
    exact ⟨⟨hm, hout⟩, trivial⟩
  refine hvalue.bind fun r _ _ _ => ?_
  obtain ⟨v, wrote⟩ := r
  dsimp only
  split
  · next k _ =>
    refine goes_ite_fail fun _ => goes_ite_fail fun hkind => ?_
    generalize hu : ty.getD (if v.ty.isNone then defaultType k else v.ty) = u at hkind ⊢
    -- the format asks for one of the two
    have hnum : u = .int ∨ u = .float := by
      by_contra hne
      exact hkind (not_or.mp hne)
    have hst : u.Storable := by rcases hnum with rfl | rfl <;> decide
    split
    · next c' hconv =>
      refine goes_pure ⟨hnum, convert?_defaultType hst hconv, fun w hw => ?_⟩
      rw [hw] at hu
      exact hu.symm
    · exact goes_fail
  · exact goes_fail

theorem defaultType_loopDelta (ht : t = .int ∨ t = .float) (hc : t = defaultType c ∨ c = .int 1) :
    t = defaultType (loopDelta t down c) := by
  have hst : t.Storable := by rcases ht with rfl | rfl <;> decide
  -- the number one fits both types of counters
  have hconv : t = defaultType ((convert? c t).getD c) := by
    cases hcv : convert? c t with
    | some c' => exact convert?_defaultType hst hcv
    | none =>
      rcases hc with hc | rfl
      · exact hc
      · rcases ht with rfl | rfl
        · exact absurd hcv (by decide)
        · exact absurd hcv (by decide)
  unfold loopDelta
  dsimp only
  generalize (convert? c t).getD c = k at hconv ⊢
  cases down with
  | false => exact hconv
  | true =>
    rw [if_pos rfl]
    cases hneg : k.unary? .sub with
    | none => exact hconv
    | some k' => exact hconv.trans (defaultType_eq_iff.mpr (unary?_kind hneg).symm)

theorem sign_ne_zero (hc : c.number? = some d) (hd : d ≠ 0) : c.sign ≠ 0 := by
  cases c with
  | bool b => cases hc
  | int n =>
    cases hc
    simpa [Constant.sign] using hd
  | float r =>
    cases hc
    simpa [Constant.sign] using hd

/-- A loop that comes to an end compares its counter, and moves it. -/
theorem terminates_spec {op : Op} {start stop step : Constant} (h : terminates op start stop step = true) :
    op.isComparison = true ∧ step.sign ≠ 0 := by
  unfold terminates at h
  split at h
  · exact ⟨rfl, (of_decide_eq_true h).ne'⟩
  · exact ⟨rfl, (of_decide_eq_true h).ne'⟩
  · exact ⟨rfl, (of_decide_eq_true h).ne⟩
  · exact ⟨rfl, (of_decide_eq_true h).ne⟩
  · exact ⟨rfl, of_decide_eq_true h⟩
  · split at h
    · next d _ _ hd =>
      simp only [Bool.and_eq_true, decide_eq_true_eq] at h
      exact ⟨rfl, sign_ne_zero hd h.1.1⟩
    · cases h
  · cases h

/-- How the head of a loop is checked: its start, its limit and its step are constants that are looked at in turn, each
by steps of one kind that keep what is needed for them. A step that is left out is one. -/
theorem goes_loopHeader {R : State → State → Prop} [Std.Refl R] [IsTrans State R] {I : State → Prop}
    {Q : Option Ty → Constant × Ty → Prop} (hI : ∀ {s s'}, R s s' → I s → I s')
    (hconst : ∀ e ty s, I s → Goes env R s (loopConstant e ty) fun r _ => Q ty r) (hst : I st) :
    Goes env R st (loopHeader pos init test post) fun r _ => (∃ first, loopStart? init = some (r.1, r.2.1, first)) ∧
      ∃ start stop k ty ty₂ op down, Q none (start, ty) ∧ Q (some ty) (stop, ty₂) ∧
        (k = .int 1 ∨ ∃ ty₃, Q (some ty) (k, ty₃)) ∧ terminates op start stop (loopDelta ty down k) = true ∧
        r.2.2 = ⟨ty, 0, start, stop, op, loopDelta ty down k⟩ := by
  unfold loopHeader
  split
  · exact goes_fail
  next name at₁ first hstart =>
  refine (hconst first none st hst).bind fun r st₁ h₁ hfirst => ?_
  obtain ⟨start, ty⟩ := r
  have hst₁ := hI h₁ hst
  dsimp only
  split
  · exact goes_fail
  split
  · exact goes_fail
  next op limit _ =>
  refine (hconst limit (some ty) st₁ hst₁).bind fun r st₂ h₂ hstop => ?_
  obtain ⟨stop, ty₂⟩ := r
  dsimp only
  split
  · exact goes_fail
  split
  · exact goes_fail
  next down e _ =>
  cases e with
  | some e =>
    exact (hconst e (some ty) st₂ (hI h₂ hst₁)).bind fun r s _ hk => goes_ite_else_fail fun hterm => goes_pure
      ⟨⟨first, hstart⟩, start, stop, r.1, ty, ty₂, op, down, hfirst, hstop, .inr ⟨r.2, hk⟩, hterm, rfl⟩
  | none =>
    exact goes_ite_else_fail fun hterm => goes_pure
      ⟨⟨first, hstart⟩, start, stop, .int 1, ty, ty₂, op, down, hfirst, hstop, .inl rfl, hterm, rfl⟩

/-- **The head of a loop.** Its constants are of the counter's type, and it writes nothing. -/
theorem loopHeader_ok (hr : K.Ready st) : Goes K.env K.Looks st (loopHeader pos init test post) fun r _ =>
    r.2.2.Typed ∧ ∃ first, loopStart? init = some (r.1, r.2.1, first) := by
  refine (goes_loopHeader (fun hm hr => hr.moves hm.1) (fun _ _ _ => loopConstant_ok) hr).weaken fun r _ _ h => ?_
  obtain ⟨hstart, start, stop, k, ty, ty₂, op, down, ⟨hnum, hkind₁, -⟩, ⟨-, hkind₂, heq⟩, hk, hterm, hc⟩ := h
  obtain rfl := heq ty rfl
  have hkind₃ : ty₂ = defaultType k ∨ k = .int 1 := by
    rcases hk with rfl | ⟨ty₃, -, hkind, heq⟩
    · exact .inr rfl
    · exact .inl (heq ty₂ rfl ▸ hkind)
  rw [hc]
  refine ⟨⟨hnum, ?_, terminates_spec hterm⟩, hstart⟩
  simp only [forall_mem_cons]
  exact ⟨hkind₁.symm, hkind₂.symm, (defaultType_loopDelta hnum hkind₃).symm, forall_mem_nil _⟩

end Check

end GameMedia.Shader
