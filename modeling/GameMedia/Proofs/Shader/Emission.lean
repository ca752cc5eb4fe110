import GameMedia.Proofs.Shader.Soundness
import GameMedia.Shader.Target.Registry

/-!
# Writing accepted programs

Every target can write every program that the checker accepts. What a target refuses (a value or a type it has no text
for, a variable that no block declares, a loop that does not move) is what the typing of code rules out. A dialect has
text for every type that can be stored, and the rest does not depend on the dialect: expressions, statements and blocks
are written if their types fit.
-/

namespace GameMedia.Shader.Target

open List Option Code

variable {α : Type} {t : Ty}

def Succeeds {α : Type} (x : Emit α) : Prop := ∃ a, x = .ok a

theorem succeeds_ok (a : α) : Succeeds (.ok a) := ⟨a, rfl⟩

instance : (x : Emit α) → Decidable (Succeeds x)
  | .ok a => isTrue (succeeds_ok a)
  | .error _ => isFalse (by rintro ⟨_, h⟩; cases h)

theorem Succeeds.bind {β : Type} {x : Emit α} {f : α → Emit β} (hx : Succeeds x) (hf : ∀ a, Succeeds (f a)) :
    Succeeds (x >>= f) := by
  obtain ⟨a, rfl⟩ := hx
  exact hf a

/-- What is made of a result. -/
theorem Succeeds.made {β : Type} {x : Emit α} {f : α → β} (hx : Succeeds x) : Succeeds (x >>= fun a => .ok (f a)) :=
  hx.bind fun _ => succeeds_ok _

theorem Succeeds.ite_bind [Decidable c] (hx : Succeeds x) (hy : Succeeds y) (hk : ∀ a, Succeeds (k a)) :
    Succeeds (if c then x >>= k else y >>= k) := by
  split
  · exact hx.bind hk
  · exact hy.bind hk

/-! ## Dialects -/

/-- The dialect has names for the types that can be stored, and for no type, and zeros. -/
structure Dialect.Complete (d : Dialect) : Prop where
  types : ∀ t : Ty, t = .none ∨ t.Storable → Succeeds (d.typeParts t)
  zeros : ∀ t : Ty, t.Storable → Succeeds (d.zeroValue t)

theorem plainName_ok (h : t = .none ∨ t.Plain) : Succeeds (plainName name t) := by
  rcases h with rfl | h
  · exact succeeds_ok _
  · rcases h.cases with rfl | rfl | rfl | rfl | rfl | rfl | rfl | rfl | rfl | rfl | rfl | rfl <;> exact succeeds_ok _

theorem suffixParts_plain (h : t = .none ∨ t.Plain) : Succeeds (suffixParts name t) := by
  have hne : ∀ e es n, t ≠ .mk .array (e :: es) n := by
    rintro e es n rfl
    rcases h with h | h
    · cases h
    · exact h.tag_ne_array rfl
  rw [suffixParts]
  · exact (plainName_ok h).made
  · exact hne

theorem suffixParts_ok (h : t = .none ∨ t.Storable) : Succeeds (suffixParts name t) := by
  rcases h with h | h
  · exact suffixParts_plain (.inl h)
  · rcases h.cases with h | ⟨e, n, rfl, he⟩
    · exact suffixParts_plain (.inr h)
    · exact (suffixParts_plain (.inr he)).made

theorem glsl_complete (version : GlslVersion) (unit : CoordUnit) : (Glsl.dialect version unit).Complete where
  types := fun _ h => suffixParts_ok h
  zeros := by
    have hplain : ∀ t : Ty, t.Plain → Succeeds (Glsl.zeroValue t) := fun _ h => h.of_all (by decide)
    intro t h
    rcases h.cases with h | ⟨e, n, rfl, he⟩
    · exact hplain t h
    · exact (hplain e he).bind fun _ => (suffixParts_ok (.inr (he.storable_array n))).made

theorem hlsl_complete : Hlsl.dialect.Complete where
  types := fun _ h => suffixParts_ok h
  zeros := by
    have hplain : ∀ t : Ty, t.Plain → Succeeds (Hlsl.zeroValue t) := fun _ h => h.of_all (by decide)
    intro t h
    rcases h.cases with h | ⟨e, n, rfl, he⟩
    · exact hplain t h
    · exact (hplain e he).made

theorem msl_types (h : t = .none ∨ t.Storable) : Succeeds (Msl.typeParts t) := by
  have hplain : ∀ t : Ty, t.Plain → Succeeds (Msl.typeParts t) := fun _ h => h.of_all (by decide)
  rcases h with rfl | h
  · exact succeeds_ok _
  · rcases h.cases with h | ⟨e, n, rfl, he⟩
    · exact hplain t h
    · exact (hplain e he).made

theorem msl_complete (p : Program) : (Msl.dialect p).Complete where
  types := fun _ h => msl_types h
  zeros := by
    intro t h
    rcases h.cases with h | ⟨e, n, rfl, -⟩
    · exact Ty.Plain.of_all (P := fun t => Succeeds (Msl.zeroValue t)) h (by decide)
    · exact succeeds_ok _

section

variable {d : Dialect} {body : Body} {S : Setting} {Γ : Locals} {t : Ty} {chain : List Block} {i level : Nat}

theorem varDecl_ok (hd : d.Complete) (h : t = .none ∨ t.Storable) (name : String) : Succeeds (d.varDecl t name) :=
  (hd.types t h).made

theorem dialect_initLines_ok (hd : d.Complete) (h : t = .none ∨ t.Storable) (name : String) (declare : Bool) :
    Succeeds (d.initLines name t declare) := by
  unfold Dialect.initLines
  rcases h with rfl | h
  · exact succeeds_ok _
  · rw [if_neg (by simp [h.not_isNone])]
    by_cases harray : t.tag = .array ∧ (!d.arraysAreValues) = true
    · rw [if_pos harray]
      rcases h.cases with hp | ⟨e, n, rfl, he⟩
      · exact absurd harray.1 hp.tag_ne_array
      · refine (hd.zeros e he.storable).bind fun _ => ?_
        cases declare with
        | false => exact succeeds_ok _
        | true => exact (varDecl_ok hd (.inr h) name).made
    · rw [if_neg harray]
      refine (hd.zeros t h).bind fun _ => ?_
      cases declare with
      | false => exact succeeds_ok _
      | true => exact (varDecl_ok hd (.inr h) name).made

/-! ## Expressions -/

theorem isSwizzle_of_type? (h : Check.swizzleType? t letters = some u) : isSwizzle letters = true := by
  unfold Check.swizzleType? at h
  split at h
  · cases h
  · next hc =>
    simp only [Bool.or_eq_true, Bool.not_eq_true', not_or] at hc
    simpa using hc.1

theorem callText_ok (h : (∃ b, f = .builtin b) ∨ ∃ i, f = .func i) : Succeeds (callText d f args) := by
  rcases h with ⟨b, rfl⟩ | ⟨i, rfl⟩
  · unfold callText
    dsimp only
    split
    · exact succeeds_ok _
    · split <;> exact succeeds_ok _
  · exact succeeds_ok _

mutual

/-- **An expression that has a type can be written.** -/
theorem exprText_ok (e : Expr) {t : Ty} (h : e.type? S Γ = some t) : Succeeds (exprText d body e) := by
  cases e with
  | blank => cases h
  | number c k | uniform i | texture i | localVar i | member i | builtin f => exact succeeds_ok _
  | swizzle s => cases h
  | func i => exact succeeds_ok _
  | unary op e =>
    simp only [Expr.type?, bind_eq_bind, bind_eq_some_iff] at h
    obtain ⟨te, he, h⟩ := h
    have hsub := exprText_ok e he
    cases op with
    | add | sub | not => exact hsub.made
    | _ => cases h
  | binary op l r =>
    simp only [Expr.type?, bind_eq_bind, bind_eq_some_iff] at h
    obtain ⟨tl, hl, tr, hr, -⟩ := h
    exact (exprText_ok l hl).bind fun _ => (exprText_ok r hr).made
  | select c a b => cases h
  | call f args =>
    cases f with
    | builtin f =>
      simp only [Expr.type?, bind_eq_bind, bind_eq_some_iff] at h
      obtain ⟨ts, hts, -⟩ := h
      exact (exprTexts_ok args hts).bind fun _ => callText_ok (.inl ⟨f, rfl⟩)
    | func i =>
      simp only [Expr.type?, bind_eq_bind, bind_eq_some_iff] at h
      obtain ⟨-, -, ts, hts, -⟩ := h
      exact (exprTexts_ok args hts).bind fun _ => callText_ok (.inr ⟨i, rfl⟩)
    | _ => cases h
  | field b n =>
    cases n with
    | swizzle s =>
      simp only [Expr.type?, bind_eq_bind, bind_eq_some_iff] at h
      obtain ⟨tb, hb, h⟩ := h
      refine (exprText_ok b hb).bind fun _ => Succeeds.bind ?_ fun _ => succeeds_ok _
      rw [exprText, if_pos (isSwizzle_of_type? h)]
      exact succeeds_ok _
    | _ => cases h
  | index b i =>
    simp only [Expr.type?, bind_eq_bind, bind_eq_some_iff] at h
    obtain ⟨tb, hb, ti, hi, -⟩ := h
    exact (exprText_ok b hb).bind fun _ => (exprText_ok i hi).made

theorem exprTexts_ok (es : List Expr) {ts : List Ty} (h : types? S Γ es = some ts) :
    Succeeds (exprTexts d body es) := by
  cases es with
  | nil => exact succeeds_ok _
  | cons e es =>
    simp only [types?, bind_eq_bind, bind_eq_some_iff] at h
    obtain ⟨t, he, us, hes, -⟩ := h
    exact (exprText_ok e he).bind fun _ => (exprTexts_ok es hes).made

end

theorem exprText_of_runs {e : Expr} (h : e.Runs S Γ) : Succeeds (exprText d body e) := by
  unfold Expr.Runs at h
  split at h
  · next i args =>
    obtain ⟨f, -, hf⟩ := (Option.any_eq_true _ _).mp h
    exact (exprTexts_ok args (of_decide_eq_true hf).1).bind fun _ => callText_ok (.inr ⟨i, rfl⟩)
  · obtain ⟨t, ht⟩ := isSome_iff_exists.mp h
    exact exprText_ok e ht

/-! ## Variables -/

/-- Every variable of a context is a parameter or declared by an enclosing block, and all of these have types that can
be written. -/
structure Known (body : Body) (chain : List Block) (Γ : Locals) : Prop where
  blocks : ∀ b ∈ chain, ∀ t ∈ b.vars, t = .none ∨ t.Storable
  params : ∀ t ∈ body.params, t.Storable
  declared : ∀ i t, Γ i = some t → (∃ b ∈ chain, b.declares i = true) ∨ i < body.params.length

theorem Known.enter {chain : List Block} {vars : List Ty} {offset : Nat} {ss : List Stmt} (h : Known body chain Γ)
    (hvars : ∀ t ∈ vars, t = .none ∨ t.Storable) :
    Known body (.mk vars offset ss :: chain) (Γ.enter vars offset) where
  blocks := forall_mem_cons.mpr ⟨hvars, h.blocks⟩
  params := h.params
  declared := by
    intro i t ht
    unfold Locals.enter at ht
    split at ht
    · next hi => exact .inl ⟨_, mem_cons_self, Block.declares_iff.mpr hi⟩
    · rcases h.declared i t ht with ⟨b, hb, hi⟩ | hi
      · exact .inl ⟨b, mem_cons_of_mem _ hb, hi⟩
      · exact .inr hi

theorem Known.set (h : Known body chain Γ) (hj : Γ j = some u) : Known body chain (Γ.set j t) where
  blocks := h.blocks
  params := h.params
  declared := by
    intro i v hv
    unfold Locals.set at hv
    split at hv
    · next hi => exact hi ▸ h.declared j u hj
    · exact h.declared i v hv

theorem localTypeIn_ok (h : Known body chain Γ) (hi : Γ i = some t) :
    ∃ u, localTypeIn body chain i = .ok u ∧ (u = .none ∨ u.Storable) := by
  unfold localTypeIn
  cases hfind : chain.find? fun b => b.declares i with
  | some b =>
    have hdecl := find?_some hfind
    rw [Block.declares_iff] at hdecl
    have hlt : i - b.offset < b.vars.length := by omega
    dsimp only
    rw [List.getElem?_eq_getElem hlt]
    exact ⟨_, rfl, h.blocks b (List.mem_of_find?_eq_some hfind) _ (getElem_mem hlt)⟩
  | none =>
    -- no block declares it, so it is a parameter
    rcases h.declared i t hi with ⟨b, hb, hdecl⟩ | hlt
    · exact absurd hdecl (find?_eq_none.mp hfind b hb)
    · refine ⟨body.params[i], ?_, .inr (h.params _ (getElem_mem hlt))⟩
      rw [Body.localType, Code.localType, List.getElem?_eq_getElem hlt]
      rfl

/-! ## Statements -/

theorem stepText_ok (h : step.sign ≠ 0) : Succeeds (stepText v step) := by
  unfold stepText
  rw [if_neg h]
  split
  · exact succeeds_ok _
  · split
    · exact succeeds_ok _
    · cases step with
      | bool b => exact absurd rfl h
      | int n | float r => exact succeeds_ok _

theorem loopHead_ok (hd : d.Complete) (h : c.Typed) : Succeeds (loopHead d body c) := by
  obtain ⟨hty, -, hop, hstep⟩ := h
  have hst : c.ty.Storable := by rcases hty with ht | ht <;> rw [ht] <;> decide
  unfold loopHead
  rw [hop]
  exact (stepText_ok hstep).bind fun _ => (varDecl_ok hd (.inr hst) _).made

theorem assignLines_ok {l r : Expr} (hk : Known body chain Γ) (hl : l.type? S Γ = some t) (hr : r.type? S Γ = some t) :
    Succeeds (assignLines d body level chain l r) := by
  refine (exprText_ok l hl).bind fun _ => (exprText_ok r hr).bind fun _ => ?_
  dsimp only
  split
  · next i =>
    split
    · exact succeeds_ok _
    -- arrays that are no values are copied by elements, for which the type is looked up
    · obtain ⟨u, hu, -⟩ := localTypeIn_ok hk (type?_localVar.mp hl).1
      rw [hu]
      refine Succeeds.bind (succeeds_ok u) fun _ => ?_
      split <;> exact succeeds_ok _
  · exact succeeds_ok _

theorem initLines_ok (hd : d.Complete) (hk : Known body chain Γ) (hi : Γ i = some t) :
    Succeeds (initLines d body level chain i) := by
  unfold initLines
  split
  · exact succeeds_ok _
  · obtain ⟨u, hu, hst⟩ := localTypeIn_ok hk hi
    rw [hu]
    exact (dialect_initLines_ok hd hst _ _).made

theorem declLines_ok (hd : d.Complete) (h : ∀ t ∈ ts, t = .none ∨ t.Storable) :
    Succeeds (declLines d body level i ts) := by
  induction ts generalizing i with
  | nil => exact succeeds_ok _
  | cons t ts ih =>
    rw [forall_mem_cons] at h
    exact (dialect_initLines_ok hd h.1 _ _).bind fun _ => (ih h.2).made

mutual

/-- **A statement whose types fit can be written.** -/
theorem stmtLines_ok (s : Stmt) {level : Nat} {chain : List Block} {inLoop : Bool} {Γ : Locals} (hd : d.Complete)
    (hk : Known body chain Γ) (h : s.Typed S inLoop Γ) : Succeeds (stmtLines d body level chain s) := by
  cases s with
  | expr e => exact (exprText_of_runs h).made
  | block b => exact (blockLines_ok b hd hk h).made
  | assign l r =>
    obtain ⟨t, ht⟩ := isSome_iff_exists.mp h.1
    exact assignLines_ok hk ht (h.2 ▸ ht)
  | init i =>
    obtain ⟨t, ht⟩ := isSome_iff_exists.mp h
    exact initLines_ok hd hk (type?_localVar.mp ht).1
  | branch c t f =>
    cases f with
    | none =>
      exact (exprText_ok c h.1).bind fun _ => (blockLines_ok t hd hk h.2).made
    | some f =>
      exact (exprText_ok c h.1).bind fun _ => (blockLines_ok t hd hk h.2.1).bind fun _ =>
        (blockLines_ok f hd hk h.2.2).made
  | loop c b =>
    exact (loopHead_ok hd h.1).bind fun _ => (blockLines_ok b hd (hk.set h.2.1) h.2.2).made
  | next | leave => exact succeeds_ok _
  | ret v =>
    cases v with
    | none => exact succeeds_ok _
    | some e => exact (exprText_ok e h.2).made
  | discard => exact succeeds_ok _

theorem blockLines_ok (b : Block) {level : Nat} {chain : List Block} {inLoop : Bool} {Γ : Locals} (hd : d.Complete)
    (hk : Known body chain Γ) (h : b.Typed S inLoop Γ) : Succeeds (blockLines d body level chain b) := by
  cases b with
  | mk vars offset ss =>
    exact (declLines_ok hd h.1).bind fun _ => (stmtsLines_ok ss hd (hk.enter h.1) h.2).made

theorem stmtsLines_ok (ss : List Stmt) {level : Nat} {chain : List Block} {inLoop : Bool} {Γ : Locals} (hd : d.Complete)
    (hk : Known body chain Γ) (h : stmtsTyped S inLoop Γ ss) : Succeeds (stmtsLines d body level chain ss) := by
  cases ss with
  | nil => exact succeeds_ok _
  | cons s ss =>
    exact (stmtLines_ok s hd hk h.1).bind fun _ => (stmtsLines_ok ss hd hk h.2).made

end

/-- The body of a function, whatever it is declared as. -/
theorem bodyLines_ok (hd : d.Complete) (hp : ∀ t ∈ body.params, t.Storable)
    (h : body.top.Typed S false fun i => body.params[i]?) : Succeeds (bodyLines d body) :=
  blockLines_ok body.top hd ⟨nofun, hp, fun _ _ hi => .inr (List.getElem?_eq_some_iff.mp hi).1⟩ h

/-! ## Declarations and functions -/

theorem paramDecls_ok (hd : d.Complete) (h : ∀ t ∈ ts, t.Storable) : Succeeds (paramDecls d word i ts) := by
  induction ts generalizing i with
  | nil => exact succeeds_ok _
  | cons t ts ih =>
    rw [forall_mem_cons] at h
    exact (varDecl_ok hd (.inr h.1) _).bind fun _ => (ih h.2).made

theorem numberedDecls_ok (hd : d.Complete) (h : ∀ t ∈ ts, t.Storable) :
    Succeeds (numberedDecls d frame letter i ts) := by
  induction ts generalizing i with
  | nil => exact succeeds_ok _
  | cons t ts ih =>
    rw [forall_mem_cons] at h
    exact (varDecl_ok hd (.inr h.1) _).bind fun _ => (ih h.2).made

/-- A function whose parameters, result and body can be written. -/
structure Fits (f : Func) : Prop where
  ins : ∀ t ∈ f.ins, t.Storable
  outs : ∀ t ∈ f.outs, t.Storable
  result : f.result = .none ∨ f.result.Storable
  body : ∃ S : Setting, f.body.Typed S false fun i => (f.ins ++ f.outs)[i]?

theorem Fits.bodyLines (h : Fits f) (hd : d.Complete) : Succeeds (bodyLines d (Body.ofFunc f)) := by
  obtain ⟨S, hbody⟩ := h.body
  exact bodyLines_ok hd (forall_mem_append.mpr ⟨h.ins, h.outs⟩) hbody

theorem Fits.inOutSignature (h : Fits f) (hd : d.Complete) : Succeeds (inOutSignature d f) :=
  (paramDecls_ok hd h.ins).bind fun _ => (paramDecls_ok hd h.outs).bind fun _ =>
    (hd.types _ h.result).made

theorem eachFunc_ok (h : ∀ f ∈ fs, Succeeds (write f)) : Succeeds (eachFunc write fs) := by
  induction fs with
  | nil => exact succeeds_ok _
  | cons f fs ih =>
    rw [forall_mem_cons] at h
    exact h.1.bind fun _ => (ih h.2).made

theorem funcLines_ok (hd : d.Complete) (hfs : ∀ f ∈ fs, Fits f) (hs : ∀ f ∈ fs, Succeeds (signature f)) :
    Succeeds (funcLines d signature fs) := by
  unfold funcLines
  split
  · exact succeeds_ok _
  · refine (eachFunc_ok fun f hf => (hs f hf).made).bind fun _ => ?_
    refine (eachFunc_ok fun f hf => ?_).made
    exact (hs f hf).bind fun _ => ((hfs f hf).bodyLines hd).made

end

/-! ## Programs -/

/-- A program whose declarations and bodies can be written. -/
structure Writable (p : Program) : Prop where
  uniforms : ∀ t ∈ p.uniforms, t.Storable
  attributes : ∀ t ∈ p.attributes, t.Storable
  varyings : ∀ t ∈ p.varyings, t.Storable
  funcs : ∀ f ∈ p.funcs, Fits f
  vertex : ∀ b, p.vertex = some b → ∃ S : Setting, b.Typed S false fun i => p.vertexParams[i]?
  fragment : ∀ b, p.fragment = some b → ∃ S : Setting, b.Typed S false fun i => p.fragmentParams[i]?

theorem writable_of_produces (hp : Check.Produces options file g p) : Writable p where
  uniforms := by
    rw [hp.uniforms]
    intro t ht
    obtain ⟨u, hu, rfl⟩ := List.mem_map.mp ht
    exact hp.declared.sound.uniforms u hu
  attributes := hp.attributes ▸ hp.declared.attributes
  varyings := hp.varyings ▸ hp.declared.varyings
  funcs := by
    intro f hf
    have hb : (Body.ofFunc f, f.result) ∈ p.bodies := mem_append_right _ (List.mem_map_of_mem hf)
    obtain ⟨sig, hsig, htype⟩ := hp.funcs f hf
    obtain ⟨hins, houts, hresult⟩ := FuncType.mk.inj htype
    have hsound := hp.declared.sound.funcs sig (mem_of_getElem? hsig)
    refine ⟨?_, ?_, hresult ▸ hsound.result, _, hp.typed.1 _ hb⟩
    · rw [hins]
      intro t ht
      obtain ⟨q, hq, rfl⟩ := List.mem_map.mp ht
      exact hsound.ins q hq
    · rw [houts]
      intro t ht
      obtain ⟨q, hq, rfl⟩ := List.mem_map.mp ht
      exact hsound.outs q hq
  vertex := by
    intro b hb
    refine ⟨_, hp.typed.1 (Body.ofVertex p b, .none) (mem_append_left _ (mem_append_left _ ?_))⟩
    exact List.mem_map.mpr ⟨b, mem_toList.mpr hb, rfl⟩
  fragment := by
    intro b hb
    refine ⟨_, hp.typed.1 (Body.ofFragment p b, .vec4) (mem_append_left _ (mem_append_right _ ?_))⟩
    exact List.mem_map.mpr ⟨b, mem_toList.mpr hb, rfl⟩

section

variable {p : Program} {d : Dialect} {b : Block} {f : Func} {i : Nat}

theorem Writable.vertexParams (hp : Writable p) : ∀ t ∈ p.vertexParams, t.Storable :=
  forall_mem_append.mpr ⟨hp.attributes, forall_mem_cons.mpr ⟨by decide, hp.varyings⟩⟩

theorem Writable.fragmentParams (hp : Writable p) : ∀ t ∈ p.fragmentParams, t.Storable :=
  forall_mem_cons.mpr ⟨by decide, hp.varyings⟩

theorem eq_some_of_nonEmpty (h : nonEmpty o = some b) : o = some b :=
  (filter_eq_some_iff.mp h).1

theorem Writable.vertexLines (hp : Writable p) (hd : d.Complete) (hb : nonEmpty p.vertex = some b) :
    Succeeds (bodyLines d (Body.ofVertex p b)) := by
  obtain ⟨S, hS⟩ := hp.vertex b (eq_some_of_nonEmpty hb)
  exact bodyLines_ok hd hp.vertexParams hS

theorem Writable.fragmentLines (hp : Writable p) (hd : d.Complete) (hb : nonEmpty p.fragment = some b) :
    Succeeds (bodyLines d (Body.ofFragment p b)) := by
  obtain ⟨S, hS⟩ := hp.fragment b (eq_some_of_nonEmpty hb)
  exact bodyLines_ok hd hp.fragmentParams hS

theorem mem_of_reachable (h : f ∈ p.reachableFuncs b) : f ∈ p.funcs := by
  obtain ⟨i, -, hi⟩ := mem_filterMap.mp h
  exact mem_reverse.mp (List.mem_of_find?_eq_some hi)

/-! ### GLSL -/

/-- The functions that the stages write. One of them holds a fragment's code. -/
def Glsl.vertexFuncs (p : Program) : List Func := p.vertex.elim p.funcs p.reachableFuncs

def Glsl.fragmentFuncs (p : Program) : List Func :=
  (nonEmpty p.fragment).elim p.funcs fun b => p.reachableFuncs b ++ [Glsl.fragmentFunc p b]

/-- The entry point of a fragment stage, which calls the function that holds the code. -/
def Glsl.fragmentMain (version : GlslVersion) (p : Program) : List String :=
  let call := plainCall s!"F{freshIndex p}" ("gl_FragCoord" :: (List.range p.varyings.length).map fun i => s!"V{i}")
  ["", "void main(void) \x7b", "\t" ++ colorName version ++ " = " ++ call ++ ";", "\x7d"]

/-- The fragment stage, written as the vertex stage is. -/
theorem Glsl.fragmentShader_eq (version : GlslVersion) (p : Program) : fragmentShader version p = (do
    let d := dialect version p.unit
    let uniforms ← uniformLines d p
    let varyings ← ioLines d "in" "V" p.varyings
    let funcs ← funcLines d (inOutSignature d) (fragmentFuncs p)
    let main := (nonEmpty p.fragment).elim [] fun _ => fragmentMain version p
    return joinLines ([fragmentPrelude version, ""] ++ uniforms ++ varyings ++ funcs ++ main)) := by
  unfold fragmentShader fragmentFuncs
  cases nonEmpty p.fragment with
  | none => simp
  | some b => rfl

theorem Writable.glsl_vertex (hp : Writable p) (version : GlslVersion) : Succeeds (Glsl.vertexShader version p) := by
  have hd := glsl_complete version p.unit
  -- only functions that the entry point reaches are written
  have hfuncs : ∀ f ∈ Glsl.vertexFuncs p, Fits f := by
    unfold Glsl.vertexFuncs
    cases p.vertex with
    | none => exact hp.funcs
    | some b => exact fun f hf => hp.funcs f (mem_of_reachable hf)
  refine ((numberedDecls_ok hd hp.uniforms).made).bind fun _ => ?_
  refine (numberedDecls_ok hd hp.attributes).bind fun _ => (numberedDecls_ok hd hp.varyings).bind fun _ => ?_
  refine (funcLines_ok hd hfuncs fun f hf => (hfuncs f hf).inOutSignature hd).bind fun _ => ?_
  cases hv : nonEmpty p.vertex with
  | none => exact succeeds_ok _
  | some b => exact (hp.vertexLines hd hv).made

theorem Writable.fragmentFunc (hp : Writable p) (hb : nonEmpty p.fragment = some b) : Fits (Glsl.fragmentFunc p b) where
  ins := hp.fragmentParams
  outs := nofun
  result := .inr (show Ty.Storable .vec4 by decide)
  body := by
    obtain ⟨S, hS⟩ := hp.fragment b (eq_some_of_nonEmpty hb)
    exact ⟨S, by rwa [show (Glsl.fragmentFunc p b).outs = [] from rfl, append_nil]⟩

theorem Writable.glsl_fragment (hp : Writable p) (version : GlslVersion) : Succeeds (Glsl.fragmentShader version p) := by
  have hd := glsl_complete version p.unit
  have hfuncs : ∀ f ∈ Glsl.fragmentFuncs p, Fits f := by
    unfold Glsl.fragmentFuncs
    cases hf : nonEmpty p.fragment with
    | none => exact hp.funcs
    | some b =>
      exact forall_mem_append.mpr
        ⟨fun f hf => hp.funcs f (mem_of_reachable hf), forall_mem_singleton.mpr (hp.fragmentFunc hf)⟩
  rw [Glsl.fragmentShader_eq]
  refine ((numberedDecls_ok hd hp.uniforms).made).bind fun _ => ?_
  refine (numberedDecls_ok hd hp.varyings).bind fun _ => ?_
  exact (funcLines_ok hd hfuncs fun f hf => (hfuncs f hf).inOutSignature hd).made

/-! ### HLSL -/

theorem hlsl_uniformDecls_ok (h : ∀ u ∈ us, u.1.Storable) : Succeeds (Hlsl.uniformDecls i us) := by
  induction us generalizing i with
  | nil => exact succeeds_ok _
  | cons u us ih =>
    rw [forall_mem_cons] at h
    exact (varDecl_ok hlsl_complete (.inr h.1) _).bind fun _ => (ih h.2).made

theorem Writable.hlsl (hp : Writable p) : Succeeds (Hlsl.shader p) := by
  have hd := hlsl_complete
  refine (numberedDecls_ok hd hp.varyings).bind fun _ => Succeeds.bind ?_ fun _ => ?_
  · unfold Hlsl.uniformLines
    split
    · exact succeeds_ok _
    · exact (hlsl_uniformDecls_ok fun u hu => hp.uniforms u.1 (of_mem_zip hu).1).made
  refine (funcLines_ok hd hp.funcs fun f hf => (hp.funcs f hf).inOutSignature hd).bind fun _ => ?_
  refine Succeeds.bind ?_ fun _ => Succeeds.bind ?_ fun _ => succeeds_ok _
  · cases hv : nonEmpty p.vertex with
    | none => exact succeeds_ok _
    | some b =>
      exact (numberedDecls_ok hd hp.attributes).bind fun _ => (hp.vertexLines hd hv).made
  · cases hf : nonEmpty p.fragment with
    | none => exact succeeds_ok _
    | some b => exact (hp.fragmentLines hd hf).made

/-! ### MSL -/

theorem outDecls_ok (h : ∀ t ∈ ts, t.Storable) : Succeeds (Msl.outDecls i ts) := by
  induction ts generalizing i with
  | nil => exact succeeds_ok _
  | cons t ts ih =>
    rw [forall_mem_cons] at h
    exact (msl_types (.inr h.1)).bind fun _ => (ih h.2).made

theorem Fits.msl_signature (h : Fits f) (p : Program) : Succeeds (Msl.signature p f) :=
  (paramDecls_ok (msl_complete p) h.ins).bind fun _ => (outDecls_ok h.outs).bind fun _ =>
    (msl_types h.result).made

theorem structLines_ok {name letter : String} (hd : d.Complete) (h : ∀ t ∈ ts, t.Storable) :
    Succeeds (Msl.structLines d name letter first ts) :=
  (numberedDecls_ok hd h).made

theorem Writable.msl (hp : Writable p) : Succeeds (Msl.shader p) := by
  have hd := msl_complete p
  refine Succeeds.ite_bind (succeeds_ok _) (structLines_ok hd hp.uniforms) fun _ => ?_
  refine Succeeds.ite_bind (succeeds_ok _) (structLines_ok hd hp.attributes) fun _ => ?_
  refine (structLines_ok hd hp.varyings).bind fun _ => ?_
  refine (funcLines_ok hd hp.funcs fun f hf => (hp.funcs f hf).msl_signature p).bind fun _ => ?_
  refine Succeeds.bind ?_ fun _ => Succeeds.bind ?_ fun _ => succeeds_ok _
  · cases hv : nonEmpty p.vertex with
    | none => exact succeeds_ok _
    | some b => exact (hp.vertexLines hd hv).made
  · cases hf : nonEmpty p.fragment with
    | none => exact succeeds_ok _
    | some b => exact (hp.fragmentLines hd hf).made

end

end GameMedia.Shader.Target

namespace GameMedia.Shader

open Target

/-- **Every accepted source can be written for every target**, in every version of its language. -/
theorem compile_emits {options : CompileOptions} {source : String} {p : Program} (h : compile options source = .ok p)
    (e : TargetEntry) (he : e ∈ TargetEntry.all) (t : TargetOptions) : ∃ out, e.emit p t = .ok out := by
  obtain ⟨file, g, -, hprod⟩ := Check.compile_ok h
  have hp := writable_of_produces hprod
  simp only [TargetEntry.all, List.mem_cons, List.not_mem_nil, or_false] at he
  rcases he with rfl | rfl | rfl | rfl
  · exact ⟨_, rfl⟩
  · exact (hp.glsl_vertex t.glsl).bind fun _ => (hp.glsl_fragment t.glsl).made
  · exact hp.hlsl.made
  · exact hp.msl.made

theorem sample_emits : ∃ p, compile {} sample = .ok p ∧ ∃ out, TargetEntry.glsl.emit p { glsl := .es300 } = .ok out := by
  obtain ⟨p, hp, -⟩ := sample_accepted
  exact ⟨p, hp, compile_emits hp TargetEntry.glsl (by simp [TargetEntry.all]) { glsl := .es300 }⟩

end GameMedia.Shader
