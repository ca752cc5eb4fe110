import GameMedia.Proofs.Shader.Rendering
import GameMedia.Proofs.Shader.Reports
import GameMedia.Proofs.Shader.Ranges

/-!
# Traces of the source

The outcome of every rule of the checker, from single names to bodies. What is written can be traced: each expression in
it is one that an expression of the source became, and each loop is one that comes to an end by its header. And no rule
fails without a complaint. These three are shown together, because they follow the same steps.
-/

namespace GameMedia.Shader

open List

namespace Check

open Surface (BinaryOp Ident Spec ValueSpec partsAll stmtsParts parts_subset_partsAll)

def From (names : List String) (E : List Surface.Expr) (o : Code.Expr) : Prop := ∃ e, e.parts ⊆ E ∧ Renders names e o

/-- **What a written statement has to do with the source.** The expressions in it come from expressions of the source,
and if it is a loop, its header brings it to an end and has integers of a word. -/
structure Traced (names : List String) (E : List Surface.Expr) (c : Code.Stmt) : Prop where
  own : ∀ o ∈ c.own, From names E o
  ends : ∀ ct b, c = .loop ct b → terminates ct.op ct.start ct.stop ct.step = true
  words : ∀ ct b, c = .loop ct b → ct.ty = .int → ct.IsWord

def Env.funcNames (env : Env) : List String := env.globals.funcs.map Signature.name

/-- The outcome of a rule for expressions whose parts are given. -/
abbrev Traces {α : Type} (env : Env) (E : List Surface.Expr) (p : Check α) (Q : α → Prop) : Prop :=
  Yields env (Traced env.funcNames E) p Q

section

variable {names : List String} {E : List Surface.Expr} {o l r : Code.Expr} {c : Code.Stmt} {b : Code.Block}

/-- A variable can come from anywhere. -/
theorem From.local (h : From names E o) (i : Nat) : From names E (.localVar i) := by
  obtain ⟨e, he, -⟩ := h
  exact ⟨e, he, renders_local i⟩

theorem traced_of_own (hc : c.IsSimple) (h : ∀ o ∈ c.own, From names E o) : c.All (Traced names E) := by
  refine hc.all ⟨h, ?_, ?_⟩ <;> rintro ct b rfl <;> exact absurd hc id

theorem traced_assign (hl : From names E l) (hr : From names E r) : (Code.Stmt.assign l r).All (Traced names E) := by
  refine traced_of_own trivial fun o ho => ?_
  rcases mem_cons.mp ho with rfl | ho
  · exact hl
  · exact mem_singleton.mp ho ▸ hr

theorem traced_expr (h : From names E o) : (Code.Stmt.expr o).All (Traced names E) :=
  traced_of_own trivial fun _ ho => mem_singleton.mp ho ▸ h

theorem traced_ret (h : From names E o) : (Code.Stmt.ret (some o)).All (Traced names E) :=
  traced_of_own trivial fun _ ho => mem_singleton.mp ho ▸ h

theorem traced_block (hb : ∀ c ∈ b.stmts, c.All (Traced names E)) : (Code.Stmt.block b).All (Traced names E) :=
  Code.all_block ⟨nofun, fun _ _ heq => Code.Stmt.noConfusion heq, fun _ _ heq => Code.Stmt.noConfusion heq⟩ hb

theorem traced_branch (h : From names E o) (ht : ∀ c ∈ t.stmts, c.All (Traced names E))
    (hf : ∀ b, f = some b → ∀ c ∈ b.stmts, c.All (Traced names E)) : (Code.Stmt.branch o t f).All (Traced names E) :=
  Code.all_branch ⟨fun _ ho => mem_singleton.mp ho ▸ h, fun _ _ heq => Code.Stmt.noConfusion heq,
    fun _ _ heq => Code.Stmt.noConfusion heq⟩ ht hf

theorem traced_loop (h : terminates ct.op ct.start ct.stop ct.step = true)
    (hword : ct.ty = .int → ct.IsWord) (hb : ∀ c ∈ b.stmts, c.All (Traced names E)) :
    (Code.Stmt.loop ct b).All (Traced names E) := by
  refine Code.all_loop ⟨nofun, fun ct' b' heq => ?_, fun ct' b' heq => ?_⟩ hb <;>
    obtain ⟨rfl, -⟩ := Code.Stmt.loop.inj heq
  · exact h
  · exact hword

end

variable {env : Env} {P : Code.Stmt → Prop} {Q : Value → Prop} {E elems es rhs : List Surface.Expr} {pos : Pos}
  {name : String} {v : Value} {e : Surface.Expr} {vs : List Value} {i n : Nat} {ty t : Ty} {o : Code.Expr}

/-! ## Names -/

theorem globalValue_renders (h : globalValue g name = .ok v) (e : Surface.Expr) : Renders names e v.expr := by
  obtain ⟨-, h⟩ := rule_ite_error_ok h
  split at h
  · exact Except.ok.inj h ▸ renders_uniform _
  obtain ⟨-, h⟩ := rule_ite_error_ok h
  split at h
  · exact Except.ok.inj h ▸ renders_texture _
  split at h
  · exact Except.ok.inj h ▸ renders_number _ _
  split at h
  · exact Except.ok.inj h ▸ renders_number _ _
  · cases h

theorem yields_identValue (name : String) :
    Yields env P (identValue pos name) fun v => ∀ e, Renders env.funcNames e v.expr := by
  unfold identValue
  refine yields_ite_fail fun _ => (yields_findLocal? name).bind fun r _ => ?_
  cases r with
  | some r => exact yields_pure fun e => renders_local r.1
  | none =>
    refine (yields_findConst? name).bind fun c _ => ?_
    cases c with
    | some c => exact yields_pure fun e => renders_constant c.value c.ty
    | none => exact yields_globals.bind fun g _ => yields_ruled fun v hv => globalValue_renders hv

theorem yields_expectOne (h : ∀ v ∈ vs, Q v) : Yields env P (expectOne e vs) Q := by
  match vs with
  | [v] => exact yields_pure (h v mem_cons_self)
  | [] | _ :: _ :: _ => exact yields_fail

/-- The one value of an expression, and what is done with it. -/
theorem Yields.one (h : Yields env P (values e) fun vs => ∀ v ∈ vs, Q v) (hf : ∀ v, Q v → Yields env P (f v) R) :
    Yields env P (values e >>= fun vs => expectOne e vs >>= f) R :=
  h.bind fun _ hvs => (yields_expectOne hvs).bind hf

/-! ## Calls -/

theorem yields_argumentFor (hv : Renders env.funcNames e v.expr) :
    Yields env P (argumentFor ins i pos v) fun w => Renders env.funcNames e w.expr := by
  unfold argumentFor
  cases ins[i]? with
  | some p => exact (yields_ruled fun o ho => settle_renders hv ho).bind fun o ho => yields_pure ho
  | none => exact yields_pure hv

theorem yields_outputs (ps : List Param) :
    Yields env P (outputs ps) fun vs => ∀ o ∈ vs.map Value.expr, ∃ j, o = .localVar j := by
  induction ps with
  | nil => exact yields_pure nofun
  | cons p ps ih =>
    exact (yields_declare _).bind fun i _ => ih.bind fun vs hvs =>
      yields_pure (forall_mem_cons.mpr ⟨⟨i, rfl⟩, hvs⟩)

/-- A call that is written as a statement, and one that is a value. -/
theorem yields_callFunc (hE : (Surface.Expr.call callee args spread).parts ⊆ E) (hname : callee.name? = some name)
    (hindex : env.funcNames[index]? = some name) (hvs : RendersAll env.funcNames args vs) :
    Traces env E (callFunc pos index sig vs) fun rs =>
      ∀ r ∈ rs, Renders env.funcNames (.call callee args spread) r.expr := by
  have hcall : ∀ outs : List Code.Expr, (∀ o ∈ outs, ∃ j, o = .localVar j) →
      Renders env.funcNames (.call callee args spread) (.call (.func index) (vs.map Value.expr ++ outs)) :=
    fun outs houts => .func hname hindex hvs.length_eq hvs.zip houts
  unfold callFunc
  refine yields_ite (fun _ => yields_ite_fail fun _ => yields_pure fun r hr => ?_) fun _ =>
    (yields_outputs sig.outs).bind fun results hres => (yields_emit ?_).bind fun _ _ => yields_pure fun r hr => ?_
  · obtain rfl := mem_singleton.mp hr
    have hvalue := hcall [] nofun
    rwa [append_nil] at hvalue
  · refine traced_expr ⟨_, hE, ?_⟩
    rw [map_append]
    exact hcall _ hres
  · obtain ⟨j, hj⟩ := hres r.expr (List.mem_map_of_mem hr)
    rw [hj]
    exact renders_local j

theorem yields_discard (n : Nat) :
    Traces env E (discard pos n) fun vs => ∀ v ∈ vs, ∀ e, Renders env.funcNames e v.expr := by
  unfold discard
  refine (yields_ruled fun _ _ => trivial).bind fun _ (_ : True) => yields_frame.bind fun f _ =>
    yields_ite (fun _ => ?_) fun _ => yields_globals.bind fun _ _ => yields_fail
  exact (yields_emit (traced_of_own (c := .discard) trivial nofun)).bind fun _ _ => yields_pure nofun

theorem yields_frontFacing (n : Nat) :
    Yields env P (frontFacing pos n) fun vs => ∀ v ∈ vs, ∀ e, Renders env.funcNames e v.expr := by
  unfold frontFacing
  refine (yields_ruled fun _ _ => trivial).bind fun _ (_ : True) => yields_frame.bind fun f _ =>
    yields_ite (fun _ => yields_pure fun v hv e => ?_) fun _ => yields_globals.bind fun _ _ => yields_fail
  obtain rfl := mem_singleton.mp hv
  refine .plain fun i hi => ?_
  simp [callBuiltin, Value.expr, Code.Expr.nodes, Code.Expr.nodesAll] at hi

/-- A function of the program has the name that is called, and no function hides one that is built in. -/
def Callee.Named (names : List String) (name : String) : Callee → Prop
  | .helper i _ => names[i]? = some name
  | .builtin _ => name ∉ names

theorem funcNames_of_funcIndex? (h : env.globals.funcIndex? name = some i) : env.funcNames[i]? = some name := by
  obtain ⟨hlt, hname, -⟩ := findIdx?_eq_some_iff_getElem.mp h
  rw [Env.funcNames, List.getElem?_map, List.getElem?_eq_getElem hlt]
  simpa using hname

theorem not_mem_funcNames (h : env.globals.declaresFunc name = false) : name ∉ env.funcNames := by
  intro hmem
  obtain ⟨s, hs, rfl⟩ := List.mem_map.mp hmem
  have hany : env.globals.funcs.any (·.name == s.name) = true := List.any_eq_true.mpr ⟨s, hs, by simp⟩
  rw [Globals.declaresFunc, hany] at h
  cases h

theorem yields_calleeNamed (name : String) :
    Yields env P (calleeNamed pos name) (Callee.Named env.funcNames name) := by
  unfold calleeNamed
  refine yields_globals.bind fun g hg => yields_get.bind fun st _ => ?_
  subst hg
  dsimp only
  split
  · next i sig hi _ _ => exact yields_pure (funcNames_of_funcIndex? hi)
  refine yields_ite_fail fun _ => (yields_builtinNamed? name).bind fun r hr => ?_
  cases r with
  | some f => exact yields_pure (not_mem_funcNames (hr rfl))
  | none => exact (yields_identValue name).bind fun _ _ => yields_fail

/-! ## Arrays -/

theorem yields_storeElements (hE : partsAll elems ⊆ E) (hvs : RendersAll env.funcNames elems vs) :
    Traces env E (storeElements array i vs) fun _ => True := by
  induction hvs generalizing i with
  | nil => exact yields_pure trivial
  | @cons e v elems vs hv _ ih =>
    obtain ⟨he, helems⟩ := append_subset.mp hE
    refine (yields_emit (traced_assign ⟨e, he, .plain fun j hj => ?_⟩ ⟨e, he, hv⟩)).bind fun _ _ => ih helems
    simp [numberFor, Code.Expr.nodes] at hj

theorem yields_literalType : Yields env P (literalType pos ty inferred elems) fun _ => True := by
  unfold literalType
  refine yields_ite_fail fun _ => ?_
  split
  · exact yields_fail
  · exact yields_ite_fail fun _ => yields_pure trivial

/-! ## Expressions and types -/

/-- A rule that puts a value into its place leaves it what its expression became. -/
def KeepsRendering (env : Env) (place : Nat → Pos → Value → Check Value) : Prop :=
  ∀ (P : Code.Stmt → Prop) (i : Nat) (pos : Pos) (v : Value) (e : Surface.Expr), Renders env.funcNames e v.expr →
    Yields env P (place i pos v) fun w => Renders env.funcNames e w.expr

theorem keepsRendering_argument (ins : List Param) : KeepsRendering env (argumentFor ins) :=
  fun _ _ _ _ _ hv => yields_argumentFor hv

theorem keepsRendering_element (t : Ty) :
    KeepsRendering env fun _ pos v => do return .typed (← ruled pos (settle v t .arrayLiteral)) t :=
  fun _ _ _ _ _ hv => (yields_ruled fun _ ho => settle_renders hv ho).bind fun _ ho => yields_pure ho

theorem keepsRendering_settled : KeepsRendering env fun _ pos v => ruled pos (settleShift v .int) :=
  fun _ _ _ _ _ hv => yields_ruled fun _ hw => settleShift_renders hv hw

mutual

/-- **The values of an expression are what it became.** -/
theorem yields_values (e : Surface.Expr) {E : List Surface.Expr} (hE : e.parts ⊆ E) :
    Traces env E (values e) fun vs => ∀ v ∈ vs, Renders env.funcNames e v.expr := by
  cases e with
  | ident pos name =>
    rw [values]
    exact (yields_identValue name).bind fun v hv => yields_single (hv _)
  | literal pos kind s =>
    cases kind with
    | int =>
      rw [values]
      split
      · exact yields_single (renders_number _ _)
      · exact yields_fail
    | float =>
      rw [values]
      split
      · exact yields_single (renders_number _ _)
      · exact yields_fail
    | imag | char | string => exact yields_fail
  | paren pos e =>
    rw [values]
    exact (yields_values e (cons_subset.mp hE).2).weaken fun vs hvs v hv => .paren (hvs v hv)
  | composite ty elems =>
    rw [values]
    have hparts := (cons_subset.mp hE).2
    exact (yields_resolve true ty).bind fun found _ => yields_literalType.bind fun t _ =>
      (yields_eachValue elems 0 hparts (keepsRendering_element _)).bind fun vs hvs =>
        (yields_declare _).bind fun array _ => (yields_storeElements hparts hvs).bind fun _ _ =>
          yields_single (renders_local array)
  | selector base name =>
    rw [values]
    exact (yields_values base (cons_subset.mp hE).2).one fun b hb =>
      yields_ruled_single fun v hv => swizzle_renders hb hv
  | index base i =>
    rw [values]
    obtain ⟨hbase, hi⟩ := append_subset.mp (cons_subset.mp hE).2
    refine (yields_values base hbase).one fun b hb => ?_
    split
    · exact yields_fail
    · exact (yields_values i hi).one fun v hv => (yields_ruled fun k hk => position_renders hv hk).bind fun k hk =>
        yields_single (.index hb hk)
  | slice base | typeAssert base => exact yields_fail
  | call callee args spread =>
    rw [values]
    have hargs := (cons_subset.mp hE).2
    refine yields_ite_fail fun _ => ?_
    cases hname : callee.name? with
    | none => exact yields_fail
    | some name =>
      refine (yields_calleeNamed name).bind fun c hc => ?_
      cases c with
      | helper i sig =>
        exact yields_ite_fail fun _ => yields_ite_fail fun _ =>
          (yields_eachValue args 0 hargs (keepsRendering_argument sig.ins)).bind fun vs hvs =>
            yields_callFunc hE hname hc hvs
      | builtin f =>
        have hhidden : ∀ n, callee.name? = some n → n ∉ env.funcNames := by
          intro n hn
          rw [hname] at hn
          cases hn
          exact hc
        have hcommon : Traces env E (do
            let vs ← eachValue (fun _ pos v => ruled pos (settleShift v .int)) 0 args
            return [← ruled callee.pos (builtinValue f vs)]) fun vs =>
              ∀ v ∈ vs, Renders env.funcNames (.call callee args spread) v.expr :=
          (yields_eachValue args 0 hargs keepsRendering_settled).bind fun vs hvs =>
            yields_ruled_single fun v hv => builtinValue_renders hhidden hvs hv
        by_cases hd : f = .discard
        · subst hd
          exact (yields_discard args.length).weaken fun vs hvs v hv => hvs v hv _
        by_cases hff : f = .frontFacing
        · subst hff
          exact (yields_frontFacing args.length).weaken fun vs hvs v hv => hvs v hv _
        -- all other built-in functions take the same way through the match
        cases f <;> first
          | exact hcommon
          | contradiction
  | unary pos op e =>
    rw [values]
    exact (yields_ruled fun _ _ => trivial).bind fun code (_ : True) =>
      (yields_values e (cons_subset.mp hE).2).one fun v hv =>
        yields_ruled_single fun w hw => unary_renders hv hw
  | binary op l r =>
    rw [values]
    obtain ⟨hl, hr⟩ := append_subset.mp (cons_subset.mp hE).2
    exact (yields_values l hl).one fun a ha => (yields_values r hr).one fun b hb =>
      yields_ruled_single fun w hw => binary_renders ha hb hw
  | keyValue key value | arrayType pos length elem | sliceType pos elem | structType pos fields | funcType pos
  | funcLit pos | mapType pos | chanType pos | interfaceType pos => exact yields_fail

theorem yields_eachValue (es : List Surface.Expr) (i : Nat) {E : List Surface.Expr}
    (hE : partsAll es ⊆ E) (hplace : KeepsRendering env place) :
    Traces env E (eachValue place i es) (RendersAll env.funcNames es) := by
  cases es with
  | nil =>
    rw [eachValue]
    exact yields_pure .nil
  | cons e es =>
    rw [eachValue]
    obtain ⟨he, hes⟩ := append_subset.mp hE
    exact (yields_values e he).one fun v hv => (hplace _ i e.pos v e hv).bind fun w hw =>
      (yields_eachValue es (i + 1) hes hplace).bind fun ws hws => yields_pure (.cons hw hws)

/-- The length of an array type writes nothing that stays. -/
theorem yields_resolve (infer : Bool) (e : Surface.Expr) {P : Code.Stmt → Prop} :
    Yields env P (resolve infer e) fun _ => True := by
  cases e with
  | ident pos name =>
    rw [resolve]
    refine (yields_findType? name).bind fun t _ => ?_
    cases t with
    | some t => exact yields_pure trivial
    | none => exact yields_ite_fail fun _ => yields_fail
  | paren pos e =>
    rw [resolve]
    exact yields_resolve infer e
  | arrayType pos length elem =>
    rw [resolve]
    refine (yields_resolve false elem).bind fun t _ => yields_ite_fail fun _ => ?_
    cases length with
    | none => exact yields_ite_else_fail fun _ => yields_pure trivial
    | some e =>
      have hlength : Yields env (Traced env.funcNames e.parts) (do expectOne e (← values e)) fun _ => True :=
        (yields_values e (List.Subset.refl e.parts)).bind fun vs _ => yields_expectOne fun _ _ => trivial
      refine (Yields.withoutStmts hlength).bind fun r _ => ?_
      obtain ⟨v, wrote⟩ := r
      dsimp only
      split
      · exact yields_pure trivial
      · exact yields_fail
  | unary pos op e => cases op <;> exact yields_fail
  | _ => exact yields_fail

end

theorem yields_value (e : Surface.Expr) (hE : e.parts ⊆ E) :
    Traces env E (value e) fun v => Renders env.funcNames e v.expr :=
  (yields_values e hE).bind fun _ hvs => yields_expectOne hvs

theorem yields_typeOf (e : Surface.Expr) : Yields env P (typeOf e) fun _ => True :=
  (yields_resolve false e).bind fun _ _ => yields_pure trivial

/-- A value for which no statement may have to run. -/
theorem yields_constant (e : Surface.Expr) : Yields env P (withoutStmts (value e)) fun _ => True :=
  (Yields.withoutStmts (yields_value e (List.Subset.refl e.parts))).weaken fun _ _ => trivial

/-! ## Constants -/

theorem yields_declaredConst : Yields env P (declaredConst spec e ty v c) fun _ => True := by
  unfold declaredConst
  refine yields_ite_fail fun _ => yields_ite_fail fun _ => ?_
  dsimp only
  split
  · exact yields_pure trivial
  · exact yields_fail

theorem yields_constValue (e : Surface.Expr) : Yields env P (constValue e) fun _ => True := by
  unfold constValue
  refine (yields_constant e).bind fun r _ => ?_
  obtain ⟨v, wrote⟩ := r
  dsimp only
  split
  · exact yields_pure trivial
  · exact yields_fail

theorem yields_namedConsts {ty : Option Ty} (ns : List (Ident × Surface.Expr)) :
    Yields env P (namedConsts spec ty ns) fun _ => True := by
  induction ns with
  | nil => exact yields_pure trivial
  | cons n ns ih =>
    refine (yields_constValue n.2).bind fun r _ => ?_
    have hrest : ∀ c : NamedConst, True → Yields env P
        (do
          let more ← namedConsts spec ty ns
          return if n.1.name = "_" then more else c :: more) fun _ => True :=
      fun c _ => ih.bind fun _ _ => yields_pure trivial
    cases ty with
    | some t => exact yields_declaredConst.bind fun _ _ => (yields_pure trivial).bind hrest
    | none => exact (yields_pure trivial).bind hrest

theorem yields_declaredType? (e : Option Surface.Expr) : Yields env P (declaredType? e) fun _ => True := by
  cases e with
  | none => exact yields_pure trivial
  | some e => exact (yields_typeOf e).map fun _ _ => trivial

theorem yields_constSpec (spec : ValueSpec) : Yields env P (constSpec spec) fun _ => True :=
  yields_ite_fail fun _ => (yields_declaredType? spec.ty).bind fun _ _ => yields_namedConsts _

/-! ## Values to store -/

theorem yields_sourcedValues (hE : partsAll es ⊆ E) :
    Traces env E (sourcedValues es) fun vs => ∀ s ∈ vs, From env.funcNames E s.2.expr := by
  induction es with
  | nil => exact yields_pure nofun
  | cons e es ih =>
    obtain ⟨he, hes⟩ := append_subset.mp hE
    exact (yields_value e he).bind fun v hv => (ih hes).cons ⟨e, he, hv⟩

/-- The results of one call come from that call. -/
theorem from_values (he : e.parts ⊆ E) (hvs : ∀ v ∈ vs, Renders env.funcNames e v.expr) :
    ∀ s ∈ vs.map fun v => (e.pos, v), From env.funcNames E s.2.expr := by
  intro s hs
  obtain ⟨v, hv, rfl⟩ := List.mem_map.mp hs
  exact ⟨e, he, hvs v hv⟩

theorem yields_valuesFor (hE : partsAll rhs ⊆ E) :
    Traces env E (valuesFor pos n rhs) fun vs => ∀ s ∈ vs, From env.funcNames E s.2.expr := by
  unfold valuesFor
  refine yields_ite (fun _ => yields_sourcedValues hE) fun _ => ?_
  split
  · next e _ =>
    have he : e.parts ⊆ E := (append_subset.mp hE).1
    exact (yields_values e he).bind fun vs hvs => yields_ite_else_fail fun _ => yields_pure (from_values he hvs)
  · exact yields_fail

/-- A value that is kept goes through a variable. -/
theorem yields_kept (ho : From env.funcNames E o) :
    Traces env E (kept several ty o) (From env.funcNames E) :=
  yields_ite (fun _ => (yields_declare _).bind fun i _ => (yields_emit (traced_assign (ho.local i) ho)).bind fun _ _ =>
    yields_pure (ho.local i)) fun _ => yields_pure ho

/-! ## Variables -/

theorem yields_notRedeclared (name : String) : Yields env P (notRedeclared pos name) fun _ => True :=
  yields_get.bind fun _ _ => yields_ite_fail fun _ => yields_pure trivial

/-- What a new variable starts as comes from the source. -/
def Fresh.From (names : List String) (E : List Surface.Expr) (f : Fresh) : Prop :=
  ∀ o, f.start = some o → Check.From names E o

theorem yields_freshZeros (ns : List Ident) :
    Yields env P (freshZeros ty ns) fun fs => ∀ f ∈ fs, f.From env.funcNames E := by
  induction ns with
  | nil => exact yields_pure nofun
  | cons n ns ih =>
    exact (yields_notRedeclared n.name).bind fun _ _ => ih.cons nofun

theorem fresh_from {n : Ident} (h : From env.funcNames E o) : Fresh.From env.funcNames E ⟨n, t, some o⟩ :=
  fun _ ho => Option.some.inj ho ▸ h

theorem From.settle (h : From env.funcNames E v.expr) (ho : settle v t place = .ok o) :
    From env.funcNames E o := by
  obtain ⟨e, he, hv⟩ := h
  exact ⟨e, he, settle_renders hv ho⟩

theorem From.settleDefault (h : From env.funcNames E v.expr) (hw : settleDefault v = .ok w) :
    From env.funcNames E w.expr := by
  obtain ⟨e, he, hv⟩ := h
  exact ⟨e, he, settleDefault_renders hv hw⟩

theorem yields_freshValues {ty : Option Ty} (h : ∀ n ∈ ns, From env.funcNames E n.2.2.expr) :
    Yields env P (freshValues ty ns) fun fs => ∀ f ∈ fs, f.From env.funcNames E := by
  induction ns with
  | nil => exact yields_pure nofun
  | cons n ns ih =>
    rw [forall_mem_cons] at h
    obtain ⟨n, pos, v⟩ := n
    refine (yields_notRedeclared n.name).bind fun _ _ => ?_
    have hrest : ∀ f : Fresh, f.From env.funcNames E →
        Yields env P (do return f :: (← freshValues ty ns)) fun fs => ∀ f ∈ fs, f.From env.funcNames E :=
      fun f hf => (ih h.2).cons hf
    cases ty with
    | some t =>
      exact (yields_ruled fun o ho => h.1.settle ho).bind fun o ho => (yields_pure (fresh_from ho)).bind hrest
    | none =>
      exact (yields_ruled fun w hw => h.1.settleDefault hw).bind fun w hw =>
        (yields_pure (fresh_from hw)).bind hrest

theorem yields_declareFresh (h : ∀ f ∈ fs, f.From env.funcNames E) :
    Traces env E (declareFresh several fs) fun ss =>
      ∀ c ∈ ss, c.All (Traced env.funcNames E) := by
  induction fs with
  | nil => exact yields_pure (forall_mem_nil _)
  | cons f fs ih =>
    rw [forall_mem_cons] at h
    have hrest : ∀ {c : Nat → Code.Stmt}, (∀ i, (c i).All (Traced env.funcNames E)) → Traces env E (do
        let i ← declareLocal f.name.name f.ty f.name.pos
        return c i :: (← declareFresh several fs)) fun ss => ∀ c ∈ ss, c.All (Traced env.funcNames E) :=
      fun hc => (yields_declare _).bind fun i _ => (ih h.2).cons (hc i)
    refine yields_ite (fun _ => ih h.2) fun _ => ?_
    dsimp only
    cases hf : f.start with
    | some o =>
      refine Yields.bind (Q := fun x => ∃ a, x = some a ∧ From env.funcNames E a)
        ((yields_kept (h.1 o hf)).map fun a ha => ⟨a, rfl, ha⟩) ?_
      rintro _ ⟨a, rfl, ha⟩
      exact hrest (c := fun i => .assign (.localVar i) a) fun i => traced_assign (ha.local i) ha
    | none =>
      refine Yields.bind (Q := (· = none)) (yields_pure rfl) ?_
      rintro _ rfl
      exact hrest (c := .init) fun i => traced_of_own trivial (forall_mem_nil _)

theorem from_zip {names : List Ident} {vs : List Sourced} (h : ∀ s ∈ vs, From env.funcNames E s.2.expr) :
    ∀ n ∈ names.zip vs, From env.funcNames E n.2.2.expr :=
  fun n hn => h n.2 (of_mem_zip hn).2

theorem yields_varSpec (hE : partsAll spec.values ⊆ E) :
    Traces env E (varSpec spec) fun _ => True := by
  unfold varSpec
  refine (yields_declaredType? spec.ty).bind fun ty _ => yields_ite_fail fun _ => ?_
  have hstore : ∀ fs : List Fresh, (∀ f ∈ fs, f.From env.funcNames E) → Traces env E
      (do emitAll (← declareFresh (1 < fs.length) fs)) fun _ => True :=
    fun fs hfs => (yields_declareFresh hfs).bind fun ss hss => yields_emitAll hss
  split
  · exact (yields_freshZeros spec.names).bind hstore
  · split
    · exact (yields_pure nofun).bind hstore
    · exact (yields_notRedeclared _).bind fun _ _ => yields_fail.bind hstore
  · exact (yields_valuesFor hE).bind fun vs hvs => (yields_freshValues (from_zip hvs)).bind hstore

theorem yields_definedNames (lhs : List Surface.Expr) : Yields env P (definedNames lhs) fun _ => True := by
  induction lhs with
  | nil => exact yields_pure trivial
  | cons e es ih =>
    cases e with
    | ident pos name => exact ih.bind fun _ _ => yields_pure trivial
    | _ => exact yields_fail

theorem yields_redefined (name : Ident) (i : Nat) : Yields env P (redefined name i) fun _ => True := by
  unfold redefined
  refine yields_get.bind fun st _ => ?_
  dsimp only
  cases st.scope.vars[i]? with
  | none => exact yields_pure trivial
  | some v =>
    have hmark : Yields env P (modify fun st => { st with scope := st.scope.markUsed i }) fun _ => True :=
      yields_modify fun _ => rfl
    exact hmark.bind fun _ _ => yields_ite_fail fun _ => yields_pure trivial

/-- The value that a definition stores. -/
def Defined.expr : Defined → Code.Expr
  | .new _ _ e | .old _ _ e => e

theorem yields_definedTargets (h : ∀ n ∈ ns, From env.funcNames E n.2.2.expr) :
    Yields env P (definedTargets ns) fun ds => ∀ d ∈ ds, From env.funcNames E d.expr := by
  induction ns with
  | nil => exact yields_pure nofun
  | cons n ns ih =>
    rw [forall_mem_cons] at h
    obtain ⟨name, pos, v⟩ := n
    refine yields_ite (fun _ => ih h.2) fun _ => yields_get.bind fun st _ => ?_
    have hrest : ∀ d : Defined, From env.funcNames E d.expr →
        Yields env P (do return d :: (← definedTargets ns)) fun ds => ∀ d ∈ ds, From env.funcNames E d.expr :=
      fun d hd => (ih h.2).cons hd
    cases st.scope.findVar? name.name with
    | some i =>
      exact (yields_redefined name i).bind fun r _ => (yields_ruled fun o ho => h.1.settle ho).bind fun o ho =>
        (yields_pure (a := Defined.old r.1 r.2 o) ho).bind hrest
    | none =>
      exact (yields_notRedeclared name.name).bind fun _ _ =>
        (yields_ruled fun w hw => h.1.settleDefault hw).bind fun w hw =>
          (yields_pure (a := Defined.new name w.ty w.expr) hw).bind hrest

theorem yields_declareDefined (h : ∀ d ∈ ds, From env.funcNames E d.expr) :
    Traces env E (declareDefined several ds) fun ss =>
      ∀ c ∈ ss, c.All (Traced env.funcNames E) := by
  induction ds with
  | nil => exact yields_pure nofun
  | cons d ds ih =>
    rw [forall_mem_cons] at h
    cases d with
    | new name ty e =>
      exact (yields_kept h.1).bind fun o ho => (yields_declare _).bind fun i _ =>
        (ih h.2).cons (traced_assign (ho.local i) ho)
    | old index ty e =>
      exact (yields_kept h.1).bind fun o ho => (ih h.2).cons (traced_assign (ho.local index) ho)

theorem yields_define (hE : partsAll rhs ⊆ E) :
    Traces env E (define pos lhs rhs) fun _ => True :=
  (yields_definedNames lhs).bind fun _ _ => (yields_valuesFor hE).bind fun _ hvs => yields_get.bind fun _ _ =>
    yields_ite_fail fun _ => (yields_definedTargets (from_zip hvs)).bind fun _ hds =>
      (yields_declareDefined hds).bind fun _ hss => yields_emitAll hss

/-! ## Assignments -/

theorem yields_namedTarget (name : String) :
    Yields env P (namedTarget pos name) fun v => ∀ e, Renders env.funcNames e v.expr := by
  unfold namedTarget
  refine (yields_findLocal? name).bind fun r _ => ?_
  cases r with
  | some r =>
    dsimp only
    split
    · exact yields_fail
    · exact yields_fail
    · exact yields_pure fun e => renders_local r.1
  | none =>
    exact (yields_findConst? name).bind fun _ _ => yields_ite_fail fun _ => yields_globals.bind fun _ _ =>
      yields_ite_fail fun _ => (yields_identValue name).bind fun _ _ => yields_fail

theorem yields_target (e : Surface.Expr) (hE : e.parts ⊆ E) :
    Traces env E (target e) fun v => Renders env.funcNames e v.expr := by
  induction e using target.induct with
  | case1 pos e ih =>
    rw [target]
    exact (ih (cons_subset.mp hE).2).weaken fun v hv => .paren hv
  | case2 pos name =>
    rw [target]
    exact (yields_namedTarget name).weaken fun v hv => hv _
  | case3 base i ih =>
    rw [target]
    obtain ⟨hbase, hi⟩ := append_subset.mp (cons_subset.mp hE).2
    refine (ih hbase).bind fun b hb => ?_
    split
    · exact yields_fail
    · exact (yields_value i hi).bind fun v hv => (yields_ruled fun k hk => position_renders hv hk).bind fun k hk =>
        yields_pure (.index hb hk)
  | case4 base name ih =>
    rw [target]
    exact (ih (cons_subset.mp hE).2).bind fun b hb => yields_ruled fun v hv => swizzle_renders hb hv
  | case5 e hparen hident hindex hselector =>
    rw [target] <;> first
      | exact yields_fail
      | assumption

theorem yields_targets (hE : ∀ l ∈ ls, l.1.parts ⊆ E)
    (h : ∀ l ∈ ls, From env.funcNames E l.2.2.expr) :
    Traces env E (targets ls) fun ts =>
      ∀ t ∈ ts, From env.funcNames E t.1.expr ∧ From env.funcNames E t.2 := by
  induction ls with
  | nil => exact yields_pure nofun
  | cons l ls ih =>
    rw [forall_mem_cons] at hE h
    obtain ⟨l, pos, v⟩ := l
    refine yields_ite (fun _ => ?_) fun _ => ?_
    · exact (yields_ruled fun _ _ => trivial).bind fun _ (_ : True) => ih hE.2 h.2
    · exact (yields_target l hE.1).bind fun t ht => (yields_ruled fun o ho => h.1.settle ho).bind fun o ho =>
        (ih hE.2 h.2).cons ⟨⟨l, hE.1, ht⟩, ho⟩

theorem yields_stores
    (h : ∀ t ∈ ts, From env.funcNames E t.1.expr ∧ From env.funcNames E t.2) :
    Traces env E (stores several ts) fun ss => ∀ c ∈ ss, c.All (Traced env.funcNames E) := by
  induction ts with
  | nil => exact yields_pure nofun
  | cons t ts ih =>
    rw [forall_mem_cons] at h
    exact (yields_kept h.1.2).bind fun o ho => (ih h.2).cons (traced_assign h.1.1 ho)

theorem yields_assign (hl : partsAll lhs ⊆ E) (hr : partsAll rhs ⊆ E) :
    Traces env E (assign pos lhs rhs) fun _ => True := by
  refine (yields_valuesFor hr).bind fun vs hvs => (yields_targets (fun l hmem => ?_) fun l hmem => ?_).bind
    fun ts hts => (yields_stores hts).bind fun ss hss => yields_emitAll hss
  · exact List.Subset.trans (parts_subset_partsAll (of_mem_zip hmem).1) hl
  · exact hvs l.2 (of_mem_zip hmem).2

/-- An assignment with an operator stores what the operation with the target on its left became. -/
theorem yields_compound (hl : partsAll lhs ⊆ E) (hr : partsAll rhs ⊆ E)
    (hop : Surface.operation lhs (.compound op) rhs ⊆ E) :
    Traces env E (compound pos op lhs rhs) fun _ => True := by
  unfold compound
  split
  · next l r =>
    have hl : l.parts ⊆ E := (append_subset.mp hl).1
    have hr : r.parts ⊆ E := (append_subset.mp hr).1
    have hboth : (Surface.Expr.binary op l r).parts ⊆ E :=
      cons_subset.mpr ⟨hop mem_cons_self, append_subset.mpr ⟨hl, hr⟩⟩
    exact (yields_value r hr).bind fun v hv => (yields_target l hl).bind fun t ht =>
      (yields_ruled fun w hw => binary_renders ht hv hw).bind fun w hw =>
        (yields_ruled fun o ho => settle_renders hw ho).bind fun o ho =>
          yields_emit (traced_assign ⟨l, hl, ht⟩ ⟨_, hboth, ho⟩)
  · exact yields_fail

theorem yields_step (hE : (Surface.Stmt.step pos e up).parts ⊆ E) :
    Traces env E (step pos e up) fun _ => True := by
  have he : e.parts ⊆ E := (append_subset.mp (cons_subset.mp hE).2).1
  exact (yields_target e he).bind fun t ht => yields_ite_fail fun _ =>
    (yields_ruled fun w hw => binary_renders ht (renders_number _ _) hw).bind fun w hw =>
      yields_emit (traced_assign ⟨e, he, ht⟩ ⟨_, hE, hw⟩)

/-! ## Declarations -/

theorem yields_declareConsts (cs : List NamedConst) : Yields env P (declareConsts pos cs) fun _ => True := by
  induction cs with
  | nil => exact yields_pure trivial
  | cons c cs ih =>
    have hconst : Yields env P (declareConst c) fun _ => True := yields_modify fun _ => rfl
    exact (yields_notRedeclared c.name).bind fun _ _ => hconst.bind fun _ _ => ih

theorem yields_localSpec (hE : s.parts ⊆ E) :
    Traces env E (localSpec kind s) fun _ => True := by
  unfold localSpec
  split
  · exact (yields_constSpec _).bind fun cs _ => yields_declareConsts cs
  · exact (yields_typeOf _).bind fun t _ => (yields_notRedeclared _).bind fun _ _ => yields_modify fun _ => rfl
  · exact yields_varSpec hE
  · exact yields_pure trivial

theorem yields_localSpecs (hE : ss.flatMap Spec.parts ⊆ E) :
    Traces env E (localSpecs kind ss) fun _ => True := by
  induction ss with
  | nil => exact yields_pure trivial
  | cons s ss ih =>
    rw [flatMap_cons] at hE
    obtain ⟨hs, hss⟩ := append_subset.mp hE
    exact (yields_localSpec hs).bind fun _ _ => ih hss

/-! ## Calls as statements, and results -/

theorem stripParens_mem (e : Surface.Expr) : (stripParens e).parts ⊆ e.parts := by
  fun_induction stripParens e with
  | case1 pos e ih => exact List.Subset.trans ih (subset_cons_self _ _)
  | case2 e => exact List.Subset.refl _

theorem yields_needsUse (callee : Surface.Expr) : Yields env P (needsUse callee) fun _ => True := by
  unfold needsUse
  split
  · exact yields_pure trivial
  · exact yields_globals.bind fun _ _ => yields_ite (fun _ => yields_pure trivial) fun _ =>
      (yields_builtinNamed? _).bind fun _ _ => yields_pure trivial

theorem yields_exprStmt (hE : e.parts ⊆ E) : Traces env E (exprStmt e) fun _ => True := by
  have hstrip := List.Subset.trans (stripParens_mem e) hE
  unfold exprStmt
  split
  · next callee args spread heq =>
    rw [heq] at hstrip
    refine (yields_needsUse callee).bind fun b _ => yields_ite_fail fun _ =>
      (yields_values _ hstrip).bind fun vs hvs => ?_
    split
    · exact yields_emit (traced_expr ⟨_, hstrip, hvs _ mem_cons_self⟩)
    · exact yields_pure trivial
  · exact yields_fail

theorem yields_returnedValues (hE : partsAll es ⊆ E) :
    Traces env E (returnedValues pos n es) fun vs =>
      ∀ s ∈ vs, From env.funcNames E s.2.expr := by
  unfold returnedValues
  refine yields_ite (fun _ => yields_sourcedValues hE) fun _ => ?_
  split
  · next e _ =>
    have he : e.parts ⊆ E := (append_subset.mp hE).1
    exact (yields_values e he).bind fun vs hvs => yields_ite_fail fun _ => yields_ite_fail fun _ =>
      yields_pure (from_values he hvs)
  · exact yields_ite_fail fun _ => yields_fail

theorem yields_outputStores {vs : List (Sourced × Ty)} (h : ∀ s ∈ vs, From env.funcNames E s.1.2.expr) :
    Yields env P (outputStores i vs) fun ts => ∀ t ∈ ts, From env.funcNames E t.1.expr ∧ From env.funcNames E t.2 := by
  induction vs generalizing i with
  | nil => exact yields_pure nofun
  | cons s vs ih =>
    rw [forall_mem_cons] at h
    exact (yields_ruled fun o ho => h.1.settle ho).bind fun o ho => (ih h.2).cons ⟨ho.local i, ho⟩

theorem yields_returnStmt (hE : partsAll es ⊆ E) :
    Traces env E (returnStmt pos es) fun _ => True := by
  have hret : Traces env E (emit (.ret none)) fun _ => True :=
    yields_emit (traced_of_own trivial nofun)
  unfold returnStmt
  refine yields_frame.bind fun f _ => yields_ite (fun _ => ?_) fun _ => yields_ite (fun _ => ?_) fun _ => ?_
  · split
    · next e =>
      have he : e.parts ⊆ E := (append_subset.mp hE).1
      exact (yields_value e he).bind fun v hv => (yields_ruled fun o ho => settle_renders hv ho).bind fun o ho =>
        yields_emit (traced_ret ⟨e, he, ho⟩)
    · exact yields_fail
    · exact yields_fail
  · exact yields_ite_fail fun _ => hret
  · refine yields_ite_fail fun _ => (yields_returnedValues hE).bind fun vs hvs =>
      (yields_outputStores fun s hs => hvs s.1 (of_mem_zip hs).1).bind fun ts hts =>
        (yields_stores hts).bind fun ss hss => (yields_emitAll hss).bind fun _ _ => hret

/-! ## Loops -/

theorem yields_loopConstant (e : Surface.Expr) (ty : Option Ty) :
    Yields env P (loopConstant e ty) fun r => (r.2 = .int → r.1.IsWord) ∧ ∀ t, ty = some t → r.2 = t := by
  unfold loopConstant
  refine (yields_constant e).bind fun r _ => ?_
  obtain ⟨v, wrote⟩ := r
  dsimp only
  split
  · refine yields_ite_fail fun _ => yields_ite_fail fun _ => ?_
    split
    · next c hc =>
      refine yields_pure ⟨fun ht => convert?_isWord (congrArg Ty.tag ht) hc, fun t ht => ?_⟩
      subst ht
      rfl
    · exact yields_fail
  · exact yields_fail

/-- A header that is accepted brings the loop to an end, and its integers are of a word. -/
theorem yields_loopHeader (init : Option Surface.Stmt) (test : Option Surface.Expr) (post : Option Surface.Stmt) :
    Yields env P (loopHeader pos init test post) fun r =>
      terminates r.2.2.op r.2.2.start r.2.2.stop r.2.2.step = true ∧ (r.2.2.ty = .int → r.2.2.IsWord) := by
  unfold loopHeader
  cases loopStart? init with
  | none => exact yields_fail
  | some first =>
  obtain ⟨name, namePos, first⟩ := first
  refine (yields_loopConstant first none).bind fun r hr => ?_
  obtain ⟨start, ty⟩ := r
  obtain ⟨hstart, -⟩ := hr
  cases test.map stripParens with
  | none => exact yields_fail
  | some cond =>
  dsimp only
  cases loopLimit? name cond with
  | none => exact yields_fail
  | some found =>
  obtain ⟨op, limit⟩ := found
  refine (yields_loopConstant limit (some ty)).bind fun r hr => ?_
  obtain ⟨stop, ty'⟩ := r
  obtain ⟨hstop, hty⟩ := hr
  cases post with
  | none => exact yields_fail
  | some s =>
  dsimp only
  cases loopStep? name s with
  | none => exact yields_fail
  | some found =>
  obtain ⟨down, e⟩ := found
  have hend : ∀ c : Constant, (ty = .int → c.IsWord) → Yields env P
      (if terminates op start stop (loopDelta ty down c) then
        return (name, namePos, (⟨ty, 0, start, stop, op, loopDelta ty down c⟩ : Code.Counter))
        else fail pos .endlessLoop) fun r =>
      terminates r.2.2.op r.2.2.start r.2.2.stop r.2.2.step = true ∧ (r.2.2.ty = .int → r.2.2.IsWord) := by
    refine fun c hc => yields_ite_else_fail fun h => yields_pure ⟨h, fun ht => ?_⟩
    obtain rfl : ty = .int := ht
    obtain ⟨a, rfl, ha⟩ := hstart rfl
    obtain ⟨z, rfl, hz⟩ := hstop (hty _ rfl)
    obtain ⟨d, rfl, hd⟩ := hc rfl
    refine ⟨a, z, _, rfl, rfl, loopDelta_int down d, ha, hz, ?_⟩
    cases down with
    | false => exact .inl hd
    | true => exact .inr (by simpa using hd)
  cases e with
  | some e =>
    exact (yields_loopConstant e (some ty)).bind fun _ hr =>
      (yields_pure fun ht => hr.1 ((hr.2 _ rfl).trans ht)).bind hend
  | none => exact (yields_pure fun _ => ⟨1, rfl, by decide⟩).bind hend

/-! ## Statements -/

theorem yields_branchStmt {kind : Surface.BranchKind} :
    Traces env E (branchStmt pos inLoop label kind) fun _ => True := by
  refine yields_ite_fail fun _ => ?_
  cases kind with
  | leave | next => exact yields_ite_else_fail fun _ => yields_emit (traced_of_own trivial nofun)
  | goto | fallthrough => exact yields_fail

theorem yields_assignStmt
    (hE : (Surface.Stmt.assign pos lhs op rhs).parts ⊆ E) :
    Traces env E (assignStmt pos lhs rhs op) fun _ => True := by
  obtain ⟨hboth, hop⟩ := append_subset.mp hE
  obtain ⟨hl, hr⟩ := append_subset.mp hboth
  cases op with
  | define => exact yields_define hr
  | assign => exact yields_assign hl hr
  | compound op => exact yields_compound hl hr hop

/-- A block that is written where it stands. -/
theorem yields_emit_block (h : Traces env E p fun _ => True) :
    Traces env E (do emit (.block (← block p))) fun _ => True :=
  h.block.bind fun _ hb => yields_emit (traced_block hb)

mutual

/-- **What a statement writes can be traced**, and a statement that is refused is complained of. -/
theorem yields_stmt (s : Surface.Stmt) (hE : s.parts ⊆ E) : Traces env E (stmt inLoop s) fun _ => True := by
  cases s with
  | empty pos => exact yields_pure trivial
  | decl g => exact yields_ite_fail fun _ => yields_localSpecs hE
  | assign pos lhs op rhs => exact yields_assignStmt hE
  | step pos e up => exact yields_step hE
  | expr pos e => exact yields_exprStmt hE
  | block b =>
    obtain ⟨pos, body⟩ := b
    exact yields_emit_block (yields_stmts body hE)
  | cond pos init test body other =>
    obtain ⟨at₁, body⟩ := body
    obtain ⟨hE, hother⟩ := append_subset.mp hE
    obtain ⟨hE, hbody⟩ := append_subset.mp hE
    obtain ⟨hinit, htest⟩ := append_subset.mp hE
    -- the condition by itself, for each form of the other branch
    have hbranches : ∀ alternative : Check (Option Code.Block),
        Traces env E alternative
          (fun o => ∀ b, o = some b → ∀ c ∈ b.stmts, c.All (Traced env.funcNames E)) →
        Traces env E (do
          let c ← value test
          if c.ty ≠ .bool then fail test.pos (.conditionType c.ty)
          else
            let onTrue ← block (stmts inLoop body)
            let onFalse ← alternative
            emit (.branch c.expr onTrue onFalse)) fun _ => True := by
      intro alternative halt
      exact (yields_value test htest).bind fun v hv => yields_ite_fail fun _ =>
        (yields_stmts body hbody).block.bind fun onTrue htrue => halt.bind fun onFalse hfalse =>
          yields_emit (traced_branch ⟨test, htest, hv⟩ htrue hfalse)
    have hbare : Traces env E (stmt inLoop (.cond pos none test (.mk at₁ body) other))
        fun _ => True := by
      cases other with
      | none => exact hbranches (pure none) (yields_pure nofun)
      | some alt =>
        cases alt with
        | block b =>
          obtain ⟨at₂, alt⟩ := b
          exact hbranches _ ((yields_stmts alt hother).block.map fun b hb _ h => Option.some.inj h ▸ hb)
        | empty _ | decl _ | assign _ _ _ _ | step _ _ _ | expr _ _ | cond _ _ _ _ _ | loop _ _ _ _ _ | range _ _
        | ret _ _ | branch _ _ _ | labeled _ _ | spawn _ _ | defer _ _ | send _ | switch _ | select _ =>
          exact hbranches _ ((yields_stmt _ hother).block.map fun b hb _ h => Option.some.inj h ▸ hb)
    cases init with
    | none => exact hbare
    | some first =>
      have hboth : Traces env E
          (do stmt inLoop first; stmt inLoop (.cond pos none test (.mk at₁ body) other)) fun _ => True :=
        (yields_stmt first hinit).bind fun _ _ => hbare
      have hblock := yields_emit_block hboth
      -- The check computes only where the form of the other branch is known.
      cases other with
      | none => exact hblock
      | some alt =>
        cases alt with
        | block b =>
          obtain ⟨at₂, alt⟩ := b
          exact hblock
        | _ => exact hblock
  | loop pos init test post body =>
    obtain ⟨at₁, body⟩ := body
    refine (yields_loopHeader init test post).bind fun r hr => ?_
    have hinside : Traces env E (do
        let index ← declare ⟨r.1, r.2.2.ty, r.2.1, .counter⟩
        let b ← block (stmts true body)
        emit (.loop { r.2.2 with index } b)) fun _ => True :=
      (yields_declare _).bind fun index _ => (yields_stmts body hE).block.bind fun b hb =>
        yields_emit (traced_loop hr.1 hr.2 hb)
    exact hinside.inScope.bind fun q hq => yields_emit (traced_block hq)
  | range pos body => exact yields_fail
  | ret pos es => exact yields_returnStmt hE
  | branch pos kind label => exact yields_branchStmt
  | labeled label s | spawn pos e | defer pos e | send pos | switch pos | select pos => exact yields_fail

theorem yields_stmts (ss : List Surface.Stmt) (hE : stmtsParts ss ⊆ E) :
    Traces env E (stmts inLoop ss) fun _ => True := by
  cases ss with
  | nil => exact yields_pure trivial
  | cons s ss =>
    obtain ⟨hs, hss⟩ := append_subset.mp hE
    exact (yields_stmt s hs).bind fun _ _ => yields_stmts ss hss

end

/-! ## Bodies -/

section

variable {f : Surface.FuncDecl}

theorem yields_body : Yields (bodyEnv g kind sig) (Traced (bodyEnv g kind sig).funcNames (stmtsParts (bodyStmts f)))
    (do
      stmts false (bodyStmts f)
      checkUnused (← get).scope) fun _ => True :=
  (yields_stmts (bodyStmts f) (List.Subset.refl _)).bind fun _ _ =>
    yields_get.bind fun st _ => yields_checkUnused st.scope

theorem zeroOutputs_traced : ∀ c ∈ zeroOutputs sig, c.All (Traced names E) := by
  intro c hc
  obtain ⟨i, -, rfl⟩ := mem_zeroOutputs hc
  exact traced_of_own trivial nofun

/-- **A body can be traced to the function it is the body of.** -/
theorem body_traced (h : body g kind sig f = .ok b) :
    ∀ x ∈ b.places [], Traced (bodyEnv g kind sig).funcNames (stmtsParts (bodyStmts f)) x.2 := by
  obtain ⟨⟨⟨⟩, st⟩, hrun, h⟩ := rule_bind_ok h
  obtain ⟨-, h⟩ := ite_complain_ok h
  cases h
  obtain ⟨-, cs, hout, hcs⟩ := yields_body.ok hrun
  refine Code.Block.places_all (fun c hc => ?_) []
  rw [Code.Block.stmts, hout] at hc
  rcases mem_append.mp hc with hc | hc
  · exact zeroOutputs_traced c hc
  · exact hcs c hc

/-- **No body is given up in silence.** -/
theorem explained_body (g : Globals) (kind : BodyKind) (sig : Signature) (f : Surface.FuncDecl) :
    Explained (body g kind sig f) := by
  unfold body
  exact (yields_body.explained _).bind fun _ _ => explained_ite_complain fun _ => explained_ok _

end

end Check

end GameMedia.Shader
