import GameMedia.Proofs.Shader.Files

/-!
# Type soundness

The code of an accepted source is well typed, with types inferred from its declarations alone. The checker knows the
types of the open variables from its scopes. A context of the code agrees with the scopes if it gives these variables the
same types, and it goes on to agree where a block or a loop is entered. By induction over the lowering, code is well
typed in every context that agrees with the scopes at its end.

One thing is more than the operators allow: a constant without a type may be shifted by an integer vector. So there are
two results. With a rule for such shifts, all code is well typed, and without it, all code in which numbers are shifted
by scalars.
-/

namespace GameMedia.Shader

open List Option

namespace Check

open Code (Locals)

variable {Γ : Locals} {ss : List Scope} {s : Scope}

/-! ## Contexts and scopes -/

/-- The context gives every open variable its type. -/
def Agrees (Γ : Locals) (ss : List Scope) : Prop := ∀ i t, typesOf ss i = some t → Γ i = some t

theorem Agrees.of_grows (h : Agrees Γ ss') (hg : Grows ss ss') : Agrees Γ ss := by
  obtain ⟨a, -, rfl⟩ := hg
  exact fun i t ht => h i t (typesOf_grow a ht)

def Scope.IsInner (s : Scope) : Prop := s.paramCount = 0 ∧ ∀ v ∈ s.vars, v.ty.Storable ∧ v.role ≠ .counter

theorem isInner_of_grows (h : Grows (opened ss) (s :: ss')) :
    s.IsInner ∧ s.base = stop ss ∧ ss' = ss := by
  obtain ⟨a, ha, heq⟩ := h
  obtain ⟨rfl, rfl⟩ := cons.inj heq
  exact ⟨⟨rfl, fun v hv => ⟨ha.vars v hv, ha.roles v hv⟩⟩, rfl, rfl⟩

theorem Scope.IsInner.localTypes (h : s.IsInner) : s.localTypes = s.vars.map Variable.ty := by
  rw [Scope.localTypes, h.1, drop_zero]
  exact map_congr_left fun v hv => if_neg (h.2 v hv).2

theorem typesOf_cons :
    typesOf (s :: ss) i = if s.base ≤ i then (s.vars.map Variable.ty)[i - s.base]? else typesOf ss i := by
  simp only [typesOf, numbered?]
  split
  · rw [List.getElem?_map]
  · rfl

theorem Agrees.enter (h : Agrees Γ ss) (hs : s.IsInner) : Agrees (Γ.enter s.localTypes s.base) (s :: ss) := by
  intro i t ht
  rw [typesOf_cons] at ht
  rw [hs.localTypes, Locals.enter]
  split at ht
  -- the variable is the block's own, or the block leaves the number as it was
  · next hle =>
    have hlt := (List.getElem?_eq_some_iff.mp ht).1
    rw [if_pos ⟨hle, by omega⟩]
    exact ht
  · next hle =>
    rw [if_neg fun hc => hle hc.1]
    exact h i t ht

/-- Entering a loop: the block of the head has a slot without a type, and the loop gives it one. -/
theorem Agrees.count (h : Agrees Γ ss) :
    Agrees ((Γ.enter [.none] (stop ss)).set (stop ss) t) (headScope name pos t ss :: ss) := by
  intro i u hu
  rw [typesOf_cons] at hu
  rw [Locals.set]
  by_cases hi : i = stop ss
  · subst hi
    rw [if_pos rfl]
    simpa [headScope] using hu
  · rw [if_neg hi, Locals.enter, if_neg (by simp only [length_singleton]; omega)]
    split at hu
    · next hle =>
      have hlt := (List.getElem?_eq_some_iff.mp hu).1
      simp only [headScope, map_cons, map_nil, length_singleton] at hle hlt
      omega
    · exact h i u hu

end Check

namespace Code

variable {S : Setting} {Γ : Locals}

theorem Block.declares_iff {b : Block} :
    b.declares i = true ↔ b.offset ≤ i ∧ i < b.offset + b.vars.length := by
  rw [Block.declares, Bool.and_eq_true, decide_eq_true_eq, decide_eq_true_eq]

theorem stmtsTyped_append :
    stmtsTyped S inLoop Γ (cs ++ ds) ↔ stmtsTyped S inLoop Γ cs ∧ stmtsTyped S inLoop Γ ds := by
  induction cs with
  | nil => simp [stmtsTyped]
  | cons c cs ih => simp [stmtsTyped, ih, and_assoc]

theorem stmtsTyped_of_forall (h : ∀ c ∈ cs, c.Typed S inLoop Γ) : stmtsTyped S inLoop Γ cs := by
  induction cs with
  | nil => trivial
  | cons c cs ih =>
    rw [forall_mem_cons] at h
    exact ⟨h.1, ih h.2⟩

end Code

namespace Check

open Code (Locals stmtsTyped stmtsTyped_append)

variable {Γ : Locals} {ss : List Scope}

/-! ## Code of statements -/

theorem Scope.IsInner.block_typed {S : Code.Setting} {inLoop : Bool} {s : Scope} (hs : s.IsInner)
    (h : stmtsTyped S inLoop (Γ.enter s.localTypes s.base) cs) : (s.block cs).Typed S inLoop Γ := by
  refine ⟨fun t ht => ?_, h⟩
  rw [hs.localTypes] at ht
  obtain ⟨v, hv, rfl⟩ := List.mem_map.mp ht
  exact .inr (hs.2 v hv).1

theorem Site.Written.typed {K : Site} {chain : List Code.Block} {ss : List Scope} {cs : List Code.Stmt}
    {Γ : Locals} (h : Site.Written K chain ss cs c) (hΓ : Agrees Γ ss) :
    stmtsTyped K.env.setting K.inLoop Γ cs :=
  Code.stmtsTyped_of_forall fun s hs => (h.1 s hs).simple.typed_mono hΓ (h.1 s hs).typed

theorem Site.Written.condition (h : Site.Written K chain ss cs (some c)) (hΓ : Agrees Γ ss) :
    c.type? K.env.setting Γ = some .bool :=
  Code.type?_mono hΓ (h.2 c rfl).typed

/-- **The code of statements is well typed** in every context that agrees with the scopes behind them. -/
theorem Lowers.typed {inLoop : Bool} {chain : List Code.Block} {ss ss' : List Scope}
    {S : List Surface.Stmt} {cs : List Code.Stmt} (h : Lowers Site.Written env inLoop chain ss S ss' cs) :
    ∀ Γ, Agrees Γ ss' → stmtsTyped env.setting inLoop Γ cs := by
  induction h with
  | nil => exact fun _ _ => trivial
  | single _ _ _ hw hrest ih =>
    exact fun Γ hΓ => stmtsTyped_append.mpr ⟨hw.typed (hΓ.of_grows hrest.grows), ih Γ hΓ⟩
  | group _ ih => exact ih
  | block hb hrest ihb ih =>
    intro Γ hΓ
    obtain ⟨hs, -⟩ := isInner_of_grows hb.grows
    exact ⟨hs.block_typed (ihb _ ((hΓ.of_grows hrest.grows).enter hs)), ih Γ hΓ⟩
  | cond _ _ hw _ ht hrest iht ih =>
    intro Γ hΓ
    have hΓ₁ := hΓ.of_grows hrest.grows
    obtain ⟨hs, -⟩ := isInner_of_grows ht.grows
    exact stmtsTyped_append.mpr
      ⟨hw.typed hΓ₁, ⟨hw.condition hΓ₁, hs.block_typed (iht _ (hΓ₁.enter hs))⟩, ih Γ hΓ⟩
  | condElse _ _ hw _ ht hf hrest iht ihf ih =>
    intro Γ hΓ
    have hΓ₁ := hΓ.of_grows hrest.grows
    obtain ⟨hs, -⟩ := isInner_of_grows ht.grows
    obtain ⟨hs', -⟩ := isInner_of_grows hf.grows
    exact stmtsTyped_append.mpr ⟨hw.typed hΓ₁, ⟨hw.condition hΓ₁, hs.block_typed (iht _ (hΓ₁.enter hs)),
      hs'.block_typed (ihf _ (hΓ₁.enter hs'))⟩, ih Γ hΓ⟩
  | condInit hb hrest ihb ih =>
    intro Γ hΓ
    obtain ⟨hs, -⟩ := isInner_of_grows hb.grows
    exact ⟨hs.block_typed (ihb _ ((hΓ.of_grows hrest.grows).enter hs)), ih Γ hΓ⟩
  | loop _ _ _ hc hi hhead hb hrest ihb ih =>
    intro Γ hΓ
    -- the block of the head has an open slot, and the loop inside it fills it
    subst hhead
    have hΓ₁ := hΓ.of_grows hrest.grows
    obtain ⟨hs, -⟩ := isInner_of_grows hb.grows
    refine ⟨⟨by simp [headScope, Scope.localTypes], ⟨hc, ?_, hs.block_typed (ihb _ (Agrees.enter ?_ hs))⟩, trivial⟩,
      ih Γ hΓ⟩
    · rw [hi]
      simp [Locals.enter, headScope, Scope.localTypes]
    · rw [hi]
      exact hΓ₁.count

/-! ## Nodes -/

/-- A node whose variables and functions nothing is said about. -/
def Fine (n : Code.Expr) : Prop := n.Fine (fun _ => True) fun _ => True

theorem fine_of (h : n.Fine M C) : Fine n :=
  h.imp (fun _ _ => trivial) fun _ _ => trivial

theorem Site.Written.nodes_fine (h : Site.Written K chain ss cs c) :
    ∀ n ∈ Code.stmtNodes cs, Fine n := by
  have hcs := h.1
  clear h
  induction cs with
  | nil => exact nofun
  | cons s cs ih =>
    rw [forall_mem_cons] at hcs
    refine forall_mem_append.mpr ⟨fun n hn => ?_, ih hcs.2⟩
    rcases Code.Stmt.mem_nodes hn with hn | ⟨i, -, rfl⟩
    · exact fine_of (hcs.1.reads n hn)
    · trivial

theorem stmtNodes_append (cs ds : List Code.Stmt) :
    Code.stmtNodes (cs ++ ds) = Code.stmtNodes cs ++ Code.stmtNodes ds := by
  induction cs with
  | nil => rfl
  | cons c cs ih => rw [cons_append, Code.stmtNodes, ih, Code.stmtNodes, append_assoc]

/-- **Every number in the code of statements knows its kind, and what can be computed is.** -/
theorem Lowers.nodes_fine (h : Lowers Site.Written env inLoop chain ss S ss' cs) : ∀ n ∈ Code.stmtNodes cs, Fine n := by
  induction h with
  | nil => exact nofun
  | single _ _ _ hw _ ih =>
    rw [stmtNodes_append]
    exact forall_mem_append.mpr ⟨hw.nodes_fine, ih⟩
  | group _ ih => exact ih
  | block _ _ ihb ih => exact forall_mem_append.mpr ⟨ihb, ih⟩
  | cond _ _ hw _ _ _ iht ih =>
    rw [stmtNodes_append]
    have hc := fun n hn => fine_of ((hw.2 _ rfl).fine n hn)
    exact forall_mem_append.mpr ⟨hw.nodes_fine, forall_mem_append.mpr
      ⟨forall_mem_append.mpr ⟨hc, iht⟩, ih⟩⟩
  | condElse _ _ hw _ _ _ _ iht ihf ih =>
    rw [stmtNodes_append]
    have hc := fun n hn => fine_of ((hw.2 _ rfl).fine n hn)
    exact forall_mem_append.mpr ⟨hw.nodes_fine, forall_mem_append.mpr
      ⟨forall_mem_append.mpr ⟨forall_mem_append.mpr ⟨hc, iht⟩, ihf⟩, ih⟩⟩
  | condInit _ _ ihb ih => exact forall_mem_append.mpr ⟨ihb, ih⟩
  | loop _ _ _ _ _ _ _ _ ihb ih =>
    exact forall_mem_append.mpr ⟨forall_mem_append.mpr ⟨ihb, nofun⟩, ih⟩

/-! ## Bodies -/

section

variable {options : CompileOptions} {file : Surface.File} {g : Globals} {kind : BodyKind} {sig : Signature} {s : Scope}

/-- The types of a function's parameters. -/
def Signature.params (sig : Signature) : List Ty := (sig.ins ++ sig.outs).map Param.ty

theorem bodyScope_types (sig : Signature) (readOnly : Bool) :
    (bodyScope sig readOnly).vars.map Variable.ty = sig.params := by
  simp [bodyScope, Signature.params, Function.comp_def]

/-- What the scope of a body has at the end: the parameters, and behind them what the block declares. -/
theorem body_scope (h : Grows [bodyScope sig readOnly] [s]) :
    s.base = 0 ∧ s.paramCount = sig.params.length ∧ s.vars.map Variable.ty = sig.params ++ s.localTypes ∧
      ∀ t ∈ s.localTypes, t.Storable := by
  obtain ⟨a, ha, heq⟩ := h
  obtain ⟨rfl, -⟩ := cons.inj heq
  have hlen : (bodyScope sig readOnly).paramCount = (bodyScope sig readOnly).vars.length := rfl
  have hlocals : ((bodyScope sig readOnly).add a).localTypes = a.vars.map Variable.ty := by
    rw [Scope.localTypes, Scope.add, hlen, drop_left]
    exact map_congr_left fun v hv => if_neg (ha.roles v hv)
  refine ⟨rfl, ?_, ?_, fun t ht => ?_⟩
  · rw [← bodyScope_types sig readOnly, length_map]
    rfl
  · rw [hlocals, Scope.add, map_append, bodyScope_types]
  · rw [hlocals] at ht
    obtain ⟨v, hv, rfl⟩ := List.mem_map.mp ht
    exact ha.vars v hv

theorem agrees_body (h : Grows [bodyScope sig readOnly] [s]) :
    Agrees (Locals.enter (fun i => sig.params[i]?) s.localTypes s.paramCount) [s] := by
  obtain ⟨hbase, hcount, htypes, -⟩ := body_scope h
  intro i t ht
  rw [typesOf_cons, hbase, if_pos (Nat.zero_le i), Nat.sub_zero, htypes] at ht
  rw [Locals.enter, hcount]
  -- parameters come first, and what the block declares comes behind them
  by_cases hi : i < sig.params.length
  · rw [if_neg (by omega), ← List.getElem?_append_left hi]
    exact ht
  · rw [List.getElem?_append_right (by omega)] at ht
    have hlt := (List.getElem?_eq_some_iff.mp ht).1
    rw [if_pos ⟨by omega, by omega⟩]
    exact ht

theorem zeroOutputs_typed (hs : sig.Sound) (hΓ : Agrees Γ [bodyScope sig readOnly]) :
    stmtsTyped S false Γ (zeroOutputs sig) := by
  refine Code.stmtsTyped_of_forall fun c hc => ?_
  unfold zeroOutputs at hc
  split at hc
  · obtain ⟨k, hk, rfl⟩ := List.mem_map.mp hc
    rw [mem_range] at hk
    have hp : sig.outs[k]? = some sig.outs[k] := List.getElem?_eq_getElem hk
    have ht : typesOf [bodyScope sig readOnly] (sig.ins.length + k) = some sig.outs[k].ty := by
      rw [typesOf, numbered?_output hp]
      rfl
    exact isSome_iff_exists.mpr
      ⟨_, Code.type?_localVar.mpr ⟨hΓ _ _ ht, (hs.outs _ (mem_of_getElem? hp)).not_isNone⟩⟩
  · cases hc

theorem IsBody.typed {S : List Surface.Stmt} (hs : sig.Sound) (h : IsBody g kind sig S b) :
    b.Typed (bodyEnv g kind sig).setting false fun i => sig.params[i]? := by
  obtain ⟨s, cs, rfl, hl⟩ := h
  have hgrows := (hl []).grows
  have hΓ := agrees_body hgrows
  refine ⟨fun t ht => .inr ((body_scope hgrows).2.2.2 t ht), stmtsTyped_append.mpr ⟨?_, ?_⟩⟩
  · exact zeroOutputs_typed hs (hΓ.of_grows hgrows)
  · exact (hl []).typed _ hΓ

theorem IsBody.nodes_fine (h : IsBody g kind sig S b) : ∀ n ∈ b.nodes, Fine n := by
  obtain ⟨s, cs, rfl, hl⟩ := h
  have hzeros : Code.stmtNodes (zeroOutputs sig) = [] := by
    unfold zeroOutputs
    split
    · induction range sig.outs.length with
      | nil => rfl
      | cons k ks ih => exact ih
    · rfl
  intro n hn
  rw [Code.Block.nodes, stmtNodes_append, hzeros, nil_append] at hn
  exact (hl []).nodes_fine n hn

/-! ## Programs -/

/-- A function's number means the same in the program as in the file. -/
theorem Produces.func? (hp : Produces options file g p) (i : Nat) :
    (p.func? i).map Func.type = (g.funcs[i]?).map Signature.type := by
  cases hi : g.funcs[i]? with
  | none =>
    have hnone : p.func? i = none := by
      refine find?_eq_none.mpr fun k hk heq => ?_
      obtain ⟨sig, hsig, -⟩ := hp.funcs k hk
      rw [of_decide_eq_true heq, hi] at hsig
      cases hsig
    rw [hnone]
    rfl
  | some sig =>
    obtain ⟨k, hk, hki⟩ := hp.complete i sig hi
    have hsome : (p.func? i).isSome := find?_isSome.mpr ⟨k, hk, decide_eq_true hki⟩
    obtain ⟨k', hk'⟩ := isSome_iff_exists.mp hsome
    obtain ⟨sig', hsig', htype⟩ := hp.funcs k' (List.mem_of_find?_eq_some hk')
    have hindex : k'.index = i := by
      have hfound := find?_some hk'
      exact of_decide_eq_true hfound
    rw [hindex, hi] at hsig'
    cases hsig'
    rw [hk', map_some, htype, map_some]

theorem Produces.setting (hp : Produces options file g p)
    (hb : BodyOf g f sig b) : (bodyEnv g b.1.kind sig).setting = p.setting true b.1.kind b.2 := by
  have hfuncs : (fun i => (g.funcs[i]?).map Signature.type) = fun i => (p.func? i).map Func.type :=
    funext fun i => (hp.func? i).symm
  simp only [Env.setting, bodyEnv, Program.setting, frameOf, hp.uniforms, hp.textures, hb.result, hfuncs]

/-- **Every accepted source is well typed**, with the rule for constants that are shifted by vectors. -/
theorem Produces.typed (hp : Produces options file g p) : p.Typed true := by
  refine ⟨fun b hb => ?_, fun k hk houts => ?_⟩
  · obtain ⟨f, -, sig, hbody⟩ := hp.bodies b hb
    rw [← hp.setting hbody, hbody.params]
    exact hbody.lowered.typed hbody.sound
  · obtain ⟨sig, hsig, htype⟩ := hp.funcs k hk
    obtain ⟨-, hout, hresult⟩ := Code.FuncType.mk.inj htype
    obtain ⟨-, -, hone, -⟩ := hp.declared.funcs sig (mem_of_getElem? hsig)
    rcases hone with hnil | hnone
    · rw [hnil] at hout
      exact absurd hout houts
    · exact hresult.trans hnone

theorem Produces.nodes_fine (hp : Produces options file g p) :
    ∀ b ∈ p.bodies, ∀ n ∈ b.1.top.nodes, Fine n := by
  intro b hb
  obtain ⟨f, -, sig, hbody⟩ := hp.bodies b hb
  exact hbody.lowered.nodes_fine

end

end Check

/-! ## Shifts of constants -/

namespace Code

mutual

/-- The expressions of a statement, each with the variables where it stands. -/
def Stmt.exprs (Γ : Locals) : Stmt → List (Locals × Expr)
  | .expr e | .ret (some e) => [(Γ, e)]
  | .block b => Block.exprs Γ b
  | .assign l r => [(Γ, l), (Γ, r)]
  | .branch c t none => (Γ, c) :: Block.exprs Γ t
  | .branch c t (some f) => (Γ, c) :: (Block.exprs Γ t ++ Block.exprs Γ f)
  | .loop c b => Block.exprs (Γ.set c.index c.ty) b
  | .init _ | .next | .leave | .ret none | .discard => []

def Block.exprs (Γ : Locals) : Block → List (Locals × Expr)
  | .mk vars offset ss => stmtsExprs (Γ.enter vars offset) ss

def stmtsExprs (Γ : Locals) : List Stmt → List (Locals × Expr)
  | [] => []
  | s :: ss => s.exprs Γ ++ stmtsExprs Γ ss

end

def Expr.ShiftsByInt (S : Setting) (Γ : Locals) : Expr → Prop
  | .binary op l r => Op.isShift op = true → l.isNumber = true → r.type? S Γ = some .int
  | _ => True

instance (S : Setting) (Γ : Locals) (e : Expr) : Decidable (e.ShiftsByInt S Γ) := by
  unfold Expr.ShiftsByInt
  split <;> infer_instance

def Setting.strict (S : Setting) : Setting := { S with vectorCounts := false }

variable {S : Setting} {Γ : Locals}

theorem transfers_strict {n : Expr} (h : n.ShiftsByInt S Γ) : n.Transfers S S.strict Γ Γ := by
  cases n with
  | localVar i => exact fun t ht => ht
  | binary op l r =>
    intro tl tr t htr ht
    simp only [Setting.binaryType?] at ht ⊢
    split at ht
    · next hc =>
      simp only [Bool.and_eq_true, decide_eq_true_eq] at hc
      obtain ⟨⟨⟨⟨-, hshift⟩, hnum⟩, rfl⟩, -⟩ := hc
      -- a scalar count makes it an ordinary shift of integers
      have hint := h hshift hnum
      rw [htr] at hint
      cases hint
      cases ht
      simp only [Setting.strict, Bool.false_and, Bool.false_eq_true, if_false]
      rcases Bool.or_eq_true_iff.mp hshift with hop | hop <;> rw [of_decide_eq_true hop] <;> decide
    · simpa [Setting.strict] using ht
  | _ => trivial

theorem type?_strict {e : Expr} (h : e.type? S Γ = some t) (hn : ∀ n ∈ e.nodes, n.ShiftsByInt S Γ) :
    e.type? S.strict Γ = some t :=
  type?_transfer (show S.uniforms = S.strict.uniforms from rfl) rfl rfl rfl e t h fun n hm => transfers_strict (hn n hm)

theorem Expr.Runs.strict {Γ : Locals} {e : Expr} (h : e.Runs S Γ) (hn : ∀ n ∈ e.nodes, n.ShiftsByInt S Γ) :
    e.Runs S.strict Γ := by
  unfold Expr.Runs at h ⊢
  split at h
  · rw [Option.any_eq_true] at h ⊢
    obtain ⟨f, hf, h⟩ := h
    obtain ⟨hts, hd⟩ := of_decide_eq_true h
    refine ⟨f, hf, decide_eq_true ⟨?_, hd⟩⟩
    exact types?_transfer (show S.uniforms = S.strict.uniforms from rfl) rfl rfl rfl _ _ hts fun n hm =>
      transfers_strict (hn n (by simp [Expr.nodes, hm]))
  · obtain ⟨t, ht⟩ := isSome_iff_exists.mp h
    rw [type?_strict ht hn]
    rfl

mutual

/-- Code in which numbers are shifted by integers is well typed without the rule for vectors. -/
theorem Stmt.Typed.strict (s : Stmt) {inLoop : Bool} {Γ : Locals} (h : s.Typed S inLoop Γ)
    (hn : ∀ x ∈ s.exprs Γ, ∀ n ∈ x.2.nodes, n.ShiftsByInt S x.1) : s.Typed S.strict inLoop Γ := by
  cases s with
  | expr e => exact Expr.Runs.strict h (hn (Γ, e) (by simp [Stmt.exprs]))
  | block b => exact Block.Typed.strict b h hn
  | assign l r =>
    obtain ⟨hsome, heq⟩ := h
    obtain ⟨t, ht⟩ := isSome_iff_exists.mp hsome
    have hl := type?_strict ht (hn (Γ, l) (by simp [Stmt.exprs]))
    have hr := type?_strict (heq ▸ ht) (hn (Γ, r) (by simp [Stmt.exprs]))
    exact ⟨by rw [hl]; rfl, hl.trans hr.symm⟩
  | init i => exact h
  | branch c t f =>
    cases f with
    | none =>
      exact ⟨type?_strict h.1 (hn (Γ, c) (by simp [Stmt.exprs])),
        Block.Typed.strict t h.2 fun x hx => hn x (by simp [Stmt.exprs, hx])⟩
    | some f =>
      exact ⟨type?_strict h.1 (hn (Γ, c) (by simp [Stmt.exprs])),
        Block.Typed.strict t h.2.1 fun x hx => hn x (by simp [Stmt.exprs, hx]),
        Block.Typed.strict f h.2.2 fun x hx => hn x (by simp [Stmt.exprs, hx])⟩
  | loop c b => exact ⟨h.1, h.2.1, Block.Typed.strict b h.2.2 hn⟩
  | next | leave => exact h
  | ret v =>
    cases v with
    | none => exact h
    | some e => exact ⟨h.1, type?_strict h.2 (hn (Γ, e) (by simp [Stmt.exprs]))⟩
  | discard => exact h

theorem Block.Typed.strict (b : Block) {inLoop : Bool} {Γ : Locals} (h : b.Typed S inLoop Γ)
    (hn : ∀ x ∈ b.exprs Γ, ∀ n ∈ x.2.nodes, n.ShiftsByInt S x.1) : b.Typed S.strict inLoop Γ := by
  cases b with
  | mk vars offset ss => exact ⟨h.1, stmtsTyped_strict ss h.2 hn⟩

theorem stmtsTyped_strict (ss : List Stmt) {inLoop : Bool} {Γ : Locals} (h : stmtsTyped S inLoop Γ ss)
    (hn : ∀ x ∈ stmtsExprs Γ ss, ∀ n ∈ x.2.nodes, n.ShiftsByInt S x.1) :
    stmtsTyped S.strict inLoop Γ ss := by
  cases ss with
  | nil => trivial
  | cons s ss =>
    exact ⟨Stmt.Typed.strict s h.1 fun x hx => hn x (by simp [stmtsExprs, hx]),
      stmtsTyped_strict ss h.2 fun x hx => hn x (by simp [stmtsExprs, hx])⟩

end

end Code

/-! ## Accepted sources -/

/-- Wherever a number is shifted, the count is an integer. An untyped constant on the left of a shift becomes such a
number. -/
def Program.ScalarCounts (p : Program) : Prop :=
  ∀ b ∈ p.bodies, ∀ x ∈ b.1.top.exprs fun i => b.1.params[i]?, ∀ n ∈ x.2.nodes,
    n.ShiftsByInt (p.setting true b.1.kind b.2) x.1

instance (p : Program) : Decidable p.ScalarCounts := inferInstanceAs (Decidable (∀ b ∈ p.bodies, _))

/-- **Lowering is type sound.** If constants are shifted by scalars, then the types of an accepted source fit by its
declarations alone, and in any case they fit with a rule for such shifts. Every number is of the kind it is written
for. -/
theorem compile_typed {options : CompileOptions} {source : String} {p : Program} (h : compile options source = .ok p) :
    p.Typed true ∧ (p.ScalarCounts → p.Typed false) ∧
      ∀ b ∈ p.bodies, ∀ c k, Code.Expr.number c k ∈ b.1.top.nodes → k = Code.Hint.ofKind c.kind := by
  obtain ⟨file, g, -, hp⟩ := Check.compile_ok h
  refine ⟨hp.typed, fun hcounts => ⟨fun b hb => ?_, hp.typed.2⟩, fun b hb c k hn => hp.nodes_fine b hb _ hn⟩
  exact Code.Block.Typed.strict _ (hp.typed.1 b hb) (hcounts b hb)

/-- A helper with two outputs, a loop, a branch and a constant that is shifted. -/
def sample : String := "package main
func f(v vec4) (a, b vec2) {
	return v.xy, v.zw
}
func Fragment(p, c vec4) vec4 {
	a, b := f(c)
	for i := 0; i < 2; i++ {
		if a.x > b.y {
			a[i] += float(1 << i)
		}
	}
	return vec4(a, b)
}
"

instance decidableExistsOk {ε α : Type} (x : Except ε α) (P : α → Prop) [DecidablePred P] : Decidable (∃ a, x = .ok a ∧ P a) :=
  match x with
  | .error _ => isFalse (by simp)
  | .ok a => decidable_of_iff (P a) (by simp)

/-- A file from its characters. Samples are run from these, since it takes long to find them in a string by evaluation. -/
def Surface.File.ofChars (cs : List Char) : Except (List (Diagnostic SyntaxError)) File :=
  let index := LineIndex.ofChars cs
  match Scan.lexemesFrom 0 cs with
  | .ok ls => File.ofTokens (Scan.place index (byteLength cs) false ls)
  | .error offset => .error [⟨index.pos offset, .invalidCharacter⟩]

def compileChars (options : CompileOptions) (cs : List Char) : Except CompileError Program := do
  let lines := (Text.lines cs).map fun l => Directive.classify (Text.trim l)
  let unit ← (Directive.readUnit false none lines).mapError .directive
  let file ← (Surface.File.ofChars cs).mapError .grammar
  (Check.program options unit file).mapError .meaning

theorem Surface.File.ofSource_ofList (cs : List Char) : File.ofSource (String.ofList cs) = File.ofChars cs := by
  rw [ofSource, tokenize, String.toList_ofList, ofChars]
  cases Scan.lexemesFrom 0 cs <;> rfl

theorem Surface.File.exists_ofSource {P : File → Prop} (h : ∃ file, File.ofChars cs = .ok file ∧ P file) :
    ∃ file, File.ofSource (String.ofList cs) = .ok file ∧ P file := by
  rwa [ofSource_ofList]

theorem exists_compile {P : Program → Prop} (h : ∃ p, compileChars options cs = .ok p ∧ P p) :
    ∃ p, compile options (String.ofList cs) = .ok p ∧ P p := by
  rwa [compile, coordUnit, String.toList_ofList, Surface.File.ofSource_ofList]

set_option maxRecDepth 2000 in
theorem sample_accepted : ∃ p, compile {} sample = .ok p ∧ p.ScalarCounts := exists_compile (by decide +kernel)

theorem sample_typed : ∃ p, compile {} sample = .ok p ∧ p.ScalarCounts ∧ p.Typed false := by
  obtain ⟨p, hp, hcounts⟩ := sample_accepted
  exact ⟨p, hp, hcounts, (compile_typed hp).2.1 hcounts⟩

end GameMedia.Shader
