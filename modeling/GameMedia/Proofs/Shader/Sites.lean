import GameMedia.Proofs.Shader.Judgement
import GameMedia.Proofs.Shader.Scopes

/-!
# Where statements come from

Checking a statement of the source writes statements of code and lets the innermost scope grow. A site says which
statement it is: the names that stand in it, what it declares, and the scopes it begins with. Each written statement is
well typed in the scopes at the end, and each variable in it is one that a name of the source statement means where it
begins, or a new one. What steps do is put together by transitivity, because growth keeps all of that.
-/

namespace GameMedia.Shader

open List Option

namespace Code

variable {s : Stmt} {S : Setting}

/-! ## Parts of a statement -/

def Stmt.IsSimple : Stmt → Prop
  | .block _ | .branch _ _ _ | .loop _ _ => False
  | _ => True

/-- The variable that a statement sets as a whole. -/
def Stmt.stored? : Stmt → Option Nat
  | .assign (.localVar i) _ => some i
  | .init i => some i
  | _ => none

/-- The expression nodes of a statement, without a variable that it sets as a whole. -/
def Stmt.reads : Stmt → List Expr
  | .assign (.localVar _) r => r.nodes
  | s => s.nodes

theorem Stmt.mem_nodes (h : n ∈ s.nodes) : n ∈ s.reads ∨ ∃ i, s.stored? = some i ∧ n = .localVar i := by
  unfold Stmt.reads
  split
  · next i r =>
    rcases mem_append.mp h with h | h
    · exact .inr ⟨i, rfl, mem_singleton.mp h⟩
    · exact .inl h
  · exact .inl h

/-- The variable that an expression is a part of. -/
def Expr.root? : Expr → Option Nat
  | .localVar i => some i
  | .index b _ => b.root?
  | .field b _ => b.root?
  | _ => none

/-- The variables that a statement writes, as a whole or in part. -/
def Stmt.written (S : Setting) : Stmt → List Nat
  | .assign l _ => l.root?.toList
  | .init i => [i]
  | .expr (.call (.func i) args) =>
    match S.funcs i with
    | some f => (args.drop f.ins.length).filterMap Expr.local?
    | none => []
  | _ => []

theorem filterMap_local?_map (is : List Nat) : (is.map Expr.localVar).filterMap Expr.local? = is := by
  rw [filterMap_map]
  exact filterMap_some

theorem distinctLocals_map {is : List Nat} (h : is.Nodup) : DistinctLocals (is.map Expr.localVar) := by
  refine ⟨fun e he => ?_, by rwa [filterMap_local?_map]⟩
  obtain ⟨i, -, rfl⟩ := List.mem_map.mp he
  rfl

theorem Expr.Runs.mono (hΓ : ∀ i t, Γ i = some t → Γ' i = some t) {e : Expr} (h : e.Runs S Γ) :
    e.Runs S Γ' := by
  unfold Expr.Runs at h ⊢
  split at h
  · rw [Option.any_eq_true] at h ⊢
    obtain ⟨f, hf, h⟩ := h
    obtain ⟨hts, hd⟩ := of_decide_eq_true h
    exact ⟨f, hf, decide_eq_true ⟨types?_mono hΓ hts, hd⟩⟩
  · obtain ⟨t, ht⟩ := isSome_iff_exists.mp h
    rw [type?_mono hΓ ht]
    rfl

theorem Stmt.IsSimple.typed_mono (hs : s.IsSimple)
    (hΓ : ∀ i t, Γ i = some t → Γ' i = some t) (h : s.Typed S inLoop Γ) : s.Typed S inLoop Γ' := by
  cases s with
  | expr e => exact Expr.Runs.mono hΓ h
  | block b => exact absurd hs id
  | assign l r =>
    obtain ⟨hsome, heq⟩ := h
    obtain ⟨t, ht⟩ := isSome_iff_exists.mp hsome
    have hl := type?_mono hΓ ht
    have hr := type?_mono hΓ (heq ▸ ht)
    exact ⟨by rw [hl]; rfl, hl.trans hr.symm⟩
  | init i =>
    obtain ⟨t, ht⟩ := isSome_iff_exists.mp h
    exact isSome_iff_exists.mpr ⟨t, type?_mono hΓ ht⟩
  | branch c t f | loop c b => exact absurd hs id
  | next | leave => exact h
  | ret v =>
    cases v with
    | none => exact h
    | some e => exact ⟨h.1, type?_mono hΓ h.2⟩
  | discard => exact h

end Code

namespace Check

open Code (Judge)

variable {ss : List Scope} {i : Nat} {name : String} {t : Ty}

/-! ## Sound declarations -/

def NamedConst.Sound (c : NamedConst) : Prop := c.ty = .none ∨ c.ty = defaultType c.value

structure Added.Sound (a : Added) : Prop where
  vars : ∀ v ∈ a.vars, v.ty.Storable
  roles : ∀ v ∈ a.vars, v.role ≠ .counter
  consts : ∀ c ∈ a.consts, c.Sound
  types : ∀ p ∈ a.types, p.2.Storable

theorem Added.sound_empty : Added.Sound {} := ⟨by simp, by simp, by simp, by simp⟩

theorem Added.Sound.append {a b : Added} (ha : a.Sound) (hb : b.Sound) : (a.append b).Sound where
  vars := forall_mem_append.mpr ⟨ha.vars, hb.vars⟩
  roles := forall_mem_append.mpr ⟨ha.roles, hb.roles⟩
  consts := forall_mem_append.mpr ⟨ha.consts, hb.consts⟩
  types := forall_mem_append.mpr ⟨ha.types, hb.types⟩

/-- Open scopes whose declarations are sound. -/
structure SoundScopes (ss : List Scope) : Prop where
  nested : Nested ss
  vars : ∀ s ∈ ss, ∀ v ∈ s.vars, v.ty.Storable
  consts : ∀ s ∈ ss, ∀ c ∈ s.consts, c.Sound
  types : ∀ s ∈ ss, ∀ p ∈ s.types, p.2.Storable

theorem SoundScopes.grow (h : SoundScopes ss) (ha : a.Sound) : SoundScopes (grow a ss) := by
  cases ss with
  | nil => exact absurd h.nested id
  | cons s ss =>
    obtain ⟨hn, hv, hc, ht⟩ := h
    rw [forall_mem_cons] at hv hc ht
    exact {
      nested := hn.grow a
      vars := forall_mem_cons.mpr ⟨forall_mem_append.mpr ⟨hv.1, ha.vars⟩, hv.2⟩
      consts := forall_mem_cons.mpr ⟨forall_mem_append.mpr ⟨hc.1, ha.consts⟩, hc.2⟩
      types := forall_mem_cons.mpr ⟨forall_mem_append.mpr ⟨ht.1, ha.types⟩, ht.2⟩ }

theorem SoundScopes.inner (h : SoundScopes ss) : SoundScopes ({ base := stop ss } :: ss) where
  nested := h.nested.inner
  vars := forall_mem_cons.mpr ⟨by simp, h.vars⟩
  consts := forall_mem_cons.mpr ⟨by simp, h.consts⟩
  types := forall_mem_cons.mpr ⟨by simp, h.types⟩

theorem SoundScopes.numbered (h : SoundScopes ss) (hv : numbered? ss i = some v) : v.ty.Storable := by
  have hvars := h.vars
  clear h
  induction ss with
  | nil => cases hv
  | cons s ss ih =>
    rw [forall_mem_cons] at hvars
    unfold numbered? at hv
    split at hv
    · exact hvars.1 v (mem_of_getElem? hv)
    · exact ih hv hvars.2

theorem SoundScopes.lookupConst? (h : SoundScopes ss) (hc : lookupConst? name ss = some c) : c.Sound := by
  have hconsts := h.consts
  clear h
  induction ss with
  | nil => cases hc
  | cons s ss ih =>
    rw [forall_mem_cons] at hconsts
    rcases or_eq_some_iff.mp hc with hc | ⟨-, hc⟩
    · exact hconsts.1 c (List.mem_of_find?_eq_some hc)
    · exact ih hc hconsts.2

theorem mem_of_lookup {types : List (String × Ty)} (h : types.lookup name = some t) : (name, t) ∈ types := by
  obtain ⟨l₁, l₂, rfl, -⟩ := lookup_eq_some_iff.mp h
  simp

theorem SoundScopes.lookupType? (h : SoundScopes ss) (ht : lookupType? name ss = some t) : t.Storable := by
  have htypes := h.types
  clear h
  induction ss with
  | nil => cases ht
  | cons s ss ih =>
    rw [forall_mem_cons] at htypes
    rcases or_eq_some_iff.mp ht with ht | ⟨-, ht⟩
    · exact htypes.1 (name, t) (mem_of_lookup ht)
    · exact ih ht htypes.2

/-- The innermost scope has no counter. The head of a loop has a scope to itself. -/
def Counterless : List Scope → Prop
  | [] => True
  | s :: _ => ∀ v ∈ s.vars, v.role ≠ .counter

theorem Counterless.grow (h : Counterless ss) (ha : a.Sound) : Counterless (grow a ss) := by
  cases ss with
  | nil => trivial
  | cons s ss => exact forall_mem_append.mpr ⟨h, ha.roles⟩

structure Signature.Sound (sig : Signature) : Prop where
  ins : ∀ p ∈ sig.ins, p.ty.Storable
  outs : ∀ p ∈ sig.outs, p.ty.Storable
  result : sig.result = .none ∨ sig.result.Storable

structure Globals.Sound (g : Globals) : Prop where
  uniforms : ∀ u ∈ g.uniforms, u.2.Storable
  consts : ∀ c ∈ g.consts, c.Sound
  types : ∀ p ∈ g.types, p.2.Storable
  funcs : ∀ f ∈ g.funcs, f.Sound

/-- The outputs of a function are open variables that may be written. -/
structure Frame.Fits (f : Frame) (ss : List Scope) : Prop where
  outs : ∀ k t, f.outs[k]? = some t → ∃ v, numbered? ss (f.inCount + k) = some v ∧ v.ty = t ∧ v.role = .param false
  result : f.result = .none ∨ f.result.Storable

theorem Frame.Fits.grow {f : Frame} (h : f.Fits ss) (a : Added) : f.Fits (grow a ss) where
  outs := by
    intro k t hk
    obtain ⟨v, hv, hrest⟩ := h.outs k t hk
    exact ⟨v, numbered?_grow a hv, hrest⟩
  result := h.result

/-! ## Sites -/

def Signature.type (sig : Signature) : Code.FuncType := ⟨sig.ins.map Param.ty, sig.outs.map Param.ty, sig.result⟩

/-- What stands around the code of a body. The rules for shifts let a constant be shifted by a vector. -/
def Env.setting (env : Env) : Code.Setting where
  uniforms := env.globals.uniforms.map Prod.snd
  textures := env.globals.options.textureCount
  funcs := fun i => (env.globals.funcs[i]?).map Signature.type
  kind := env.frame.kind
  result := env.frame.result
  vectorCounts := true

def typesOf (ss : List Scope) : Code.Locals := fun i => (numbered? ss i).map Variable.ty

theorem typesOf_grow (a : Added) (h : typesOf ss i = some t) : typesOf (grow a ss) i = some t := by
  obtain ⟨v, hv, rfl⟩ := map_eq_some_iff.mp h
  exact map_eq_some_iff.mpr ⟨v, numbered?_grow a hv, rfl⟩

/-- A variable that is open and may be written: no input of an entry point and no counter. -/
def Writable (ss : List Scope) (i : Nat) : Prop :=
  ∃ v, numbered? ss i = some v ∧ v.role ≠ .param true ∧ v.role ≠ .counter

theorem Writable.grow (h : Writable ss i) (a : Added) : Writable (grow a ss) i := by
  obtain ⟨v, hv, hrole⟩ := h
  exact ⟨v, numbered?_grow a hv, hrole⟩

/-- A statement of the source where it stands. -/
structure Site where
  env : Env
  inLoop : Bool
  /-- The names that stand in the statement. -/
  names : List String
  /-- What the statement declares. -/
  fresh : List Surface.Ident
  /-- Whether it returns, and so may set the outputs of the function. -/
  returns : Bool
  /-- The scopes it begins with. -/
  start : List Scope

namespace Site

variable {α : Type} {K : Site} {ss : List Scope} {st st₁ st' : State} {i : Nat} {t : Ty} {r : Code.Expr}
  {c : Code.Stmt} {P : Added → Prop} {v : Variable}

/-- A name of the statement means the variable of that number, or the statement has made it for itself. -/
def Means (K : Site) (ss : List Scope) (i : Nat) (v : Variable) : Prop :=
  (∃ name ∈ K.names, lookupVar? name K.start = some (i, v)) ∨
    stop K.start ≤ i ∧ numbered? ss i = some v ∧ v.role = .temporary

def Meant (K : Site) (ss : List Scope) (i : Nat) : Prop := ∃ v, K.Means ss i v

def Called (K : Site) (i : Nat) : Prop := ∃ name ∈ K.names, K.env.globals.funcIndex? name = some i

/-- A variable that may be set as a whole: one that is meant, one that the statement declares, or an output where it
returns. -/
def Sets (K : Site) (ss : List Scope) (i : Nat) (v : Variable) : Prop :=
  K.Means ss i v ∨
    (stop K.start ≤ i ∧ numbered? ss i = some v ∧ v.role = .declared false ∧ ⟨v.name, v.pos⟩ ∈ K.fresh) ∨
    (K.returns = true ∧ numbered? ss i = some v ∧ ∃ k < K.env.frame.outs.length, i = K.env.frame.inCount + k)

def Stored (K : Site) (ss : List Scope) (i : Nat) : Prop := ∃ v, K.Sets ss i v

/-- What expressions of the statement are judged by. -/
def judge (K : Site) (ss : List Scope) : Judge := ⟨K.env.setting, typesOf ss, K.Meant ss, K.Called⟩

theorem Means.grow (a : Added) (h : K.Means ss i v) : K.Means (grow a ss) i v := by
  rcases h with h | ⟨hi, hv, hr⟩
  · exact .inl h
  · exact .inr ⟨hi, numbered?_grow a hv, hr⟩

theorem Meant.grow (a : Added) (h : K.Meant ss i) : K.Meant (grow a ss) i := by
  obtain ⟨v, h⟩ := h
  exact ⟨v, h.grow a⟩

theorem Stored.grow (a : Added) (h : K.Stored ss i) : K.Stored (grow a ss) i := by
  obtain ⟨v, h | ⟨hi, hv, hr⟩ | ⟨hret, hv, hk⟩⟩ := h
  · exact ⟨v, .inl (h.grow a)⟩
  · exact ⟨v, .inr (.inl ⟨hi, numbered?_grow a hv, hr⟩)⟩
  · exact ⟨v, .inr (.inr ⟨hret, numbered?_grow a hv, hk⟩)⟩

theorem Meant.stored (h : K.Meant ss i) : K.Stored ss i := by
  obtain ⟨v, h⟩ := h
  exact ⟨v, .inl h⟩

theorem judge_le_grow (K : Site) (ss : List Scope) (a : Added) : (K.judge ss).Le (K.judge (grow a ss)) where
  setting := rfl
  locals := fun _ _ h => typesOf_grow a h
  meant := fun _ h => h.grow a
  called := rfl

/-- What holds for a statement that is written on the way. -/
structure Writes (K : Site) (ss : List Scope) (c : Code.Stmt) : Prop where
  simple : c.IsSimple
  typed : c.Typed K.env.setting K.inLoop (typesOf ss)
  reads : ∀ n ∈ c.reads, n.Fine (K.Meant ss) K.Called
  stored : ∀ i, c.stored? = some i → K.Stored ss i
  rooted : ∀ l r, c = .assign l r → l.root?.isSome
  writable : ∀ i ∈ c.written K.env.setting, Writable ss i

theorem Writes.grow (h : K.Writes ss c) (a : Added) : K.Writes (grow a ss) c where
  simple := h.simple
  typed := h.simple.typed_mono (fun _ _ ht => typesOf_grow a ht) h.typed
  reads := fun n hn => (h.reads n hn).imp (fun _ hm => hm.grow a) fun _ hc => hc
  stored := fun i hi => (h.stored i hi).grow a
  rooted := h.rooted
  writable := fun i hi => (h.writable i hi).grow a

/-! ### Kinds of written statements -/

theorem writes_set (ht : typesOf ss i = some t) (hst : t.Storable) (hs : K.Stored ss i) (hw : Writable ss i)
    (hr : (K.judge ss).Good r t) : K.Writes ss (.assign (.localVar i) r) where
  simple := trivial
  typed := by
    have hl : Code.Expr.type? K.env.setting (typesOf ss) (.localVar i) = some t :=
      Code.type?_localVar.mpr ⟨ht, hst.not_isNone⟩
    exact ⟨by rw [hl]; rfl, hl.trans hr.typed.symm⟩
  reads := hr.fine
  stored := by
    intro j hj
    cases hj
    exact hs
  rooted := by
    intro l r' h
    obtain ⟨rfl, -⟩ := Code.Stmt.assign.inj h
    rfl
  writable := by
    intro j hj
    obtain rfl := mem_singleton.mp hj
    exact hw

/-- Setting a variable or a part of it. -/
theorem writes_assign (hl : (K.judge ss).Good l t) (hroot : l.root? = some i) (hw : Writable ss i)
    (hr : (K.judge ss).Good r t) : K.Writes ss (.assign l r) where
  simple := trivial
  typed := ⟨isSome_iff_exists.mpr ⟨t, hl.typed⟩, hl.typed.trans hr.typed.symm⟩
  reads := by
    intro n hn
    have hmem : n ∈ l.nodes ++ r.nodes := by
      unfold Code.Stmt.reads at hn
      split at hn
      · next heq =>
        obtain ⟨-, rfl⟩ := Code.Stmt.assign.inj heq
        exact mem_append_right _ hn
      · exact hn
    rcases mem_append.mp hmem with hn | hn
    · exact hl.fine n hn
    · exact hr.fine n hn
  stored := by
    intro j hj
    -- only a variable as a whole counts as stored, and that one is meant
    cases l with
    | localVar k =>
      obtain rfl := some.inj hj
      exact Meant.stored (hl.fine (.localVar k) (by simp [Code.Expr.nodes]))
    | _ => cases hj
  rooted := by
    intro l' r' h
    obtain ⟨rfl, -⟩ := Code.Stmt.assign.inj h
    rw [hroot]
    rfl
  writable := by
    intro j hj
    simp only [Code.Stmt.written, hroot, toList_some, mem_singleton] at hj
    exact hj ▸ hw

theorem writes_init (ht : typesOf ss i = some t) (hst : t.Storable) (hs : K.Stored ss i) (hw : Writable ss i) :
    K.Writes ss (.init i) where
  simple := trivial
  typed := isSome_iff_exists.mpr ⟨t, Code.type?_localVar.mpr ⟨ht, hst.not_isNone⟩⟩
  reads := by simp [Code.Stmt.reads, Code.Stmt.nodes]
  stored := by
    intro j hj
    cases hj
    exact hs
  rooted := nofun
  writable := by
    intro j hj
    obtain rfl := mem_singleton.mp hj
    exact hw

/-- A statement in which no expression stands. -/
theorem writes_jump (hc : c = .ret none ∨ c = .discard ∨ c = .next ∨ c = .leave)
    (ht : c.Typed K.env.setting K.inLoop (typesOf ss)) : K.Writes ss c := by
  rcases hc with rfl | rfl | rfl | rfl
  all_goals exact ⟨trivial, ht, nofun, nofun, nofun, nofun⟩

theorem writes_ret_some (hne : K.env.frame.result ≠ .none)
    (he : (K.judge ss).Good e K.env.frame.result) : K.Writes ss (.ret (some e)) :=
  ⟨trivial, ⟨hne, he.typed⟩, he.fine, nofun, nofun, by simp [Code.Stmt.written]⟩

/-- A call with its outputs behind its inputs. -/
theorem writes_call (hf : K.env.setting.funcs i = some f) (hc : K.Called i)
    (hargs : (K.judge ss).GoodAll (args ++ outs) (f.ins ++ f.outs)) (hlen : args.length = f.ins.length)
    (hd : Code.DistinctLocals outs) (hw : ∀ j ∈ outs.filterMap Code.Expr.local?, Writable ss j) :
    K.Writes ss (.expr (.call (.func i) (args ++ outs))) := by
  have hdrop : (args ++ outs).drop f.ins.length = outs := by rw [← hlen, drop_left]
  refine ⟨trivial, ?_, ?_, nofun, nofun, ?_⟩
  · refine (Option.any_eq_true _ _).mpr ⟨f, hf, decide_eq_true ⟨hargs.typed, ?_⟩⟩
    rw [hdrop]
    exact hd
  · intro n hn
    rcases mem_cons.mp hn with rfl | hn
    · trivial
    rcases mem_append.mp hn with hn | hn
    · obtain rfl := mem_singleton.mp hn
      exact hc
    · exact hargs.fine n hn
  · intro j hj
    simp only [Code.Stmt.written, hf, hdrop] at hj
    exact hw j hj

/-! ### Steps -/

/-- What a step does to the context: the innermost scope gets something of that kind, and code is written. -/
structure Moves (K : Site) (P : Added → Prop) (st st' : State) : Prop where
  grows : ∃ a, P a ∧ a.Sound ∧ st'.view = grow a st.view
  writes : ∃ cs, st'.out = st.out ++ cs ∧ ∀ c ∈ cs, K.Writes st'.view c

/-- New variables are the statement's own, or ones that it declares. -/
def Declares (K : Site) (a : Added) : Prop :=
  ∀ v ∈ a.vars, v.role = .temporary ∨ (v.role = .declared false ∧ ⟨v.name, v.pos⟩ ∈ K.fresh)

theorem declares_of_temps (h : a.Temps) : K.Declares a := fun v hv => .inl (h.vars v hv)

theorem Declares.append (ha : K.Declares a) (hb : K.Declares b) : K.Declares (a.append b) :=
  forall_mem_append.mpr ⟨ha, hb⟩

theorem Moves.imp (hPQ : ∀ a, P a → Q a) (h : K.Moves P st st') : K.Moves Q st st' := by
  obtain ⟨⟨a, ha, hrest⟩, hw⟩ := h
  exact ⟨⟨a, hPQ a ha, hrest⟩, hw⟩

theorem Moves.declares (h : K.Moves Added.Temps st st') : K.Moves K.Declares st st' := h.imp fun _ => declares_of_temps

theorem moves_of_eq (hP : P {}) (hview : st'.view = st.view) (hout : st'.out = st.out) : K.Moves P st st' where
  grows := ⟨{}, hP, Added.sound_empty, by rw [hview, grow_empty]⟩
  writes := ⟨[], by simp [hout], by simp⟩

theorem moves_refl (st : State) : K.Moves Added.Temps st st := moves_of_eq Added.temps_empty rfl rfl

theorem Moves.trans (hP : ∀ a b, P a → P b → P (a.append b)) (h : K.Moves P st st₁) (h' : K.Moves P st₁ st') :
    K.Moves P st st' := by
  obtain ⟨⟨a, ha, has, hview⟩, cs, hout, hcs⟩ := h
  obtain ⟨⟨b, hb, hbs, hview'⟩, ds, hout', hds⟩ := h'
  refine ⟨⟨a.append b, hP a b ha hb, has.append hbs, by rw [hview', hview, grow_grow]⟩, cs ++ ds, ?_, ?_⟩
  · rw [hout', hout, append_assoc]
  -- earlier statements are right in the later scopes as well
  · refine forall_mem_append.mpr ⟨fun c hc => ?_, hds⟩
    rw [hview']
    exact (hcs c hc).grow b

theorem Moves.trans_temps (h : K.Moves Added.Temps st st₁) (h' : K.Moves Added.Temps st₁ st') :
    K.Moves Added.Temps st st' :=
  h.trans (fun _ _ => Added.Temps.append) h'

theorem Moves.trans_declares (h : K.Moves K.Declares st st₁) (h' : K.Moves K.Declares st₁ st') :
    K.Moves K.Declares st st' :=
  h.trans (fun _ _ => Declares.append) h'

instance : Std.Refl (K.Moves Added.Temps) := ⟨moves_refl⟩

instance : Std.Refl (K.Moves K.Declares) := ⟨fun st => (moves_refl st).declares⟩

instance : IsTrans State (K.Moves Added.Temps) := ⟨fun _ _ _ => .trans_temps⟩

instance : IsTrans State (K.Moves K.Declares) := ⟨fun _ _ _ => .trans_declares⟩

theorem Moves.judge_le (h : K.Moves P st st') : (K.judge st.view).Le (K.judge st'.view) := by
  obtain ⟨a, -, -, hview⟩ := h.grows
  rw [hview]
  exact K.judge_le_grow st.view a

theorem Moves.writable (h : K.Moves P st st') (hw : Writable st.view i) : Writable st'.view i := by
  obtain ⟨a, -, -, hview⟩ := h.grows
  exact hview ▸ hw.grow a

/-- A check that only unnamed variables come from. -/
abbrev Finds (K : Site) (st : State) (p : Check α) (Q : α → State → Prop) : Prop :=
  Goes K.env (K.Moves Added.Temps) st p Q

abbrev Enters (K : Site) (st : State) (p : Check α) (Q : α → State → Prop) : Prop :=
  Goes K.env (K.Moves K.Declares) st p Q

theorem finds_emitAll (hcs : ∀ c ∈ cs, K.Writes st.view c) :
    K.Finds st (emitAll cs) fun _ st' => st'.view = st.view := by
  intro u st' h
  obtain rfl := emitAll_ok h
  exact ⟨⟨⟨{}, Added.temps_empty, Added.sound_empty, by simp⟩, cs, rfl, hcs⟩, rfl⟩

theorem finds_emit (hc : K.Writes st.view c) : K.Finds st (emit c) fun _ st' => st'.view = st.view :=
  fun u st' h => finds_emitAll (forall_mem_singleton.mpr hc) u st' h

/-! ### Contexts -/

/-- The context of a statement while it is checked. -/
structure Sane (K : Site) (st : State) : Prop where
  globals : K.env.globals.Sound
  scopes : SoundScopes st.view
  counterless : Counterless st.view
  frame : K.env.frame.Fits st.view
  later : stop K.start ≤ stop st.view

/-- A context in which names still mean what they meant where the statement begins. -/
structure Ready (K : Site) (st : State) : Prop extends K.Sane st where
  temps : ∃ a, a.Temps ∧ st.view = grow a K.start

theorem Sane.moves (h : K.Sane st) (hm : K.Moves P st st') : K.Sane st' := by
  obtain ⟨a, -, has, hview⟩ := hm.grows
  exact ⟨h.globals, hview ▸ h.scopes.grow has, hview ▸ h.counterless.grow has, hview ▸ h.frame.grow a,
    hview ▸ h.later.trans (stop_le_grow a st.view)⟩

theorem Ready.moves (h : K.Ready st) (hm : K.Moves Added.Temps st st') : K.Ready st' where
  toSane := h.toSane.moves hm
  temps := by
    obtain ⟨a, ha, hview⟩ := h.temps
    obtain ⟨b, hb, -, hview'⟩ := hm.grows
    exact ⟨a.append b, ha.append hb, by rw [hview', hview, grow_grow]⟩

/-- The context of an expression with names of its own whose statements are dropped. -/
theorem Ready.aside (h : K.Ready st) (names : List String) : Ready { K with names } { st with out := [] } :=
  ⟨⟨h.globals, h.scopes, h.counterless, h.frame, h.later⟩, h.temps⟩

/-- What it does to the scopes is all that is left of such an expression. -/
theorem Moves.of_aside {names : List String}
    (h : Moves { K with names } Added.Temps { st with out := [] } st₁) :
    K.Moves Added.Temps st { st₁ with out := st.out } := by
  obtain ⟨a, ha, has, hview⟩ := h.grows
  exact ⟨⟨a, ha, has, hview⟩, [], by simp, by simp⟩

/-- A variable of the context that a name of the statement means. -/
theorem Ready.lookup (h : K.Ready st) (hn : name ∈ K.names) (hv : lookupVar? name st.view = some (i, v)) :
    (K.judge st.view).Good (.localVar i) v.ty ∧ v.ty.Storable ∧ numbered? st.view i = some v := by
  have hnum := h.scopes.nested.numbered?_of_lookup hv
  have hst := h.scopes.numbered hnum
  refine ⟨Judge.good_local (map_eq_some_iff.mpr ⟨v, hnum, rfl⟩) hst ?_, hst, hnum⟩
  -- what has come into scope since the statement began has no name in the source
  obtain ⟨a, ha, hview⟩ := h.temps
  rw [hview] at hv
  rcases lookupVar?_grow_temps ha hv with hold | ⟨hi, hrole⟩
  · exact ⟨v, .inl ⟨name, hn, hold⟩⟩
  · exact ⟨v, .inr ⟨hi, hnum, hrole⟩⟩

theorem stop_grow_one (v : Variable) (hne : ss ≠ []) : stop (grow { vars := [v] } ss) = stop ss + 1 := by
  cases ss with
  | nil => exact absurd rfl hne
  | cons s ss =>
    simp only [stop, grow, Scope.add, Scope.stop, length_append, length_singleton]
    omega

/-- A new variable of the statement's own. -/
theorem Sane.temporary (h : K.Sane st) (ht : t.Storable) :
    K.Finds st (temporary t) fun i st' => (K.judge st'.view).Good (.localVar i) t ∧ Writable st'.view i ∧
      i = stop st.view ∧ stop st'.view = stop st.view + 1 := by
  intro i st' hrun
  obtain ⟨rfl, hview, hout⟩ := declare_view hrun
  have hnum : numbered? st'.view (stop st.view) = some ⟨"", t, default, .temporary⟩ := by
    rw [hview]
    exact numbered?_grow_new (State.view_ne_nil st) _ 0
  have hsound : Added.Sound { vars := [Variable.unmarked ⟨"", t, default, .temporary⟩] } :=
    ⟨by simpa using ht, by simp [Variable.unmarked], by simp, by simp⟩
  refine ⟨⟨⟨_, ⟨by simp [Variable.unmarked], rfl, rfl⟩, hsound, hview⟩, [], by simp [hout], by simp⟩, ?_,
    ⟨_, hnum, by simp, by simp⟩, rfl, by rw [hview, stop_grow_one _ (State.view_ne_nil st)]⟩
  exact Judge.good_local (map_eq_some_iff.mpr ⟨_, hnum, rfl⟩) ht ⟨_, .inr ⟨h.later, hnum, rfl⟩⟩

end Site

theorem Goes.enters {K : Site} (h : K.Finds st p Q) : K.Enters st p fun _ _ => True :=
  h.imp Site.Moves.declares fun _ _ _ _ => trivial

theorem Goes.enter {K : Site} (h : K.Finds st p Q)
    (hk : ∀ a st₁, K.Moves Added.Temps st st₁ → Q a st₁ → K.Enters st₁ (k a) S) : K.Enters st (p >>= k) S :=
  h.before (fun hm hm' => hm.declares.trans_declares hm') hk

end Check

end GameMedia.Shader
