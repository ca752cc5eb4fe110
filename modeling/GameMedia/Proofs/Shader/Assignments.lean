import GameMedia.Proofs.Shader.Expressions
import GameMedia.Shader.Check.Assign

/-!
# Declarations and assignments

All stores of a statement are of one form: a place accepts good expressions of its type, now and when more variables
have come into scope. Places are variables and parts of them that may be written, and new variables. A value that has to
outlive other stores is kept in an unnamed variable first.
-/

namespace GameMedia.Shader.Check

open List Option

open Surface (BinaryOp Ident ValueSpec identsAll)

variable {K : Site} {st st₁ st' : State} {pos : Pos} {e : Surface.Expr} {v : Value} {t : Ty} {env : Env}
  {ty : Option Ty} {es rhs : List Surface.Expr} {vs : List Sourced} {name : String} {i : Nat}

/-! ## Single values -/

theorem value_ok (hn : e.idents ⊆ K.names) (hr : K.Ready st) :
    K.Finds st (value e) fun v st' => v.Ok (K.judge st'.view) :=
  (values_ok e hn hr).value

/-- A value whose statements are dropped. -/
theorem withoutStmts_value_ok (hr : K.Ready st) :
    K.Finds st (withoutStmts (value e)) fun r st' => (∃ J, r.1.Ok J) ∧ st'.out = st.out := by
  refine (finds_withoutStmts (value_ok (List.Subset.refl _) (hr.aside e.idents))).weaken fun r st' _ hv => ?_
  obtain ⟨⟨st₁, hok⟩, hout⟩ := hv
  exact ⟨⟨_, hok⟩, hout⟩

theorem typeOf_ok (hr : K.Ready st) : K.Finds st (typeOf e) fun t _ => t.Storable :=
  (resolve_ok e hr).bind fun _ _ _ ht => goes_pure ht

/-! ## Constants -/

theorem defaultType_of_canDeclare (ht : t.Storable)
    (hfound : found = .none ∨ found = defaultType c) (hcan : canDeclare t found c = true)
    (h : (match t.tag with | .int => c.toInt? | .float => c.toFloat? | _ => some c) = some c') :
    t = defaultType c' := by
  split at h
  · next hk =>
    rw [ht.eq_basic hk (by decide)]
    exact (defaultType_eq_int.mpr (toInt?_defaultType h)).symm
  · next hk =>
    obtain ⟨r, -, rfl⟩ := map_eq_some_iff.mp h
    exact ht.eq_basic hk (by decide)
  · next hint hfloat =>
    cases h
    unfold canDeclare at hcan
    rcases hfound with rfl | rfl
    · rw [if_pos (by decide)] at hcan
      split at hcan
      · next hk =>
        rw [ht.eq_basic hk (by decide), defaultType, of_decide_eq_true hcan]
        rfl
      · next hk => exact absurd hk hint
      · next hk => exact absurd hk hfloat
      · cases hcan
    · rw [(defaultType_plain c).storable.not_isNone, if_neg (by decide)] at hcan
      exact of_decide_eq_true hcan

theorem declaredConst_ok (ht : t.Storable) (hv : v.Ok J) (hc : v.constant? = some c) :
    Goes env Eq st (declaredConst spec e t v c) fun c' _ => t = defaultType c' := by
  refine goes_ite_fail fun hcan => goes_ite_fail fun _ => ?_
  rw [Bool.not_eq_true', Bool.not_eq_false] at hcan
  dsimp only
  split
  · next hconv => exact goes_pure (defaultType_of_canDeclare ht (hv.constant hc).2 hcan hconv)
  · exact goes_fail

theorem constValue_ok (hr : K.Ready st) :
    K.Finds st (constValue e) fun r _ => (∃ J, r.1.Ok J) ∧ r.1.constant? = some r.2 := by
  refine (withoutStmts_value_ok hr).bind fun r _ _ hv => ?_
  obtain ⟨v, wrote⟩ := r
  dsimp only
  split
  · next hc => exact goes_pure ⟨hv.1, hc⟩
  · exact goes_fail

theorem namedConsts_ok {ps : List (Ident × Surface.Expr)} (hty : ∀ t, ty = some t → t.Storable) (hr : K.Ready st) :
    K.Finds st (namedConsts spec ty ps) fun cs _ => ∀ c ∈ cs, c.Sound := by
  induction ps generalizing st with
  | nil => exact goes_pure (by simp)
  | cons p ps ih =>
    refine (constValue_ok hr).bind fun r st₁ hm₁ hv => ?_
    obtain ⟨v, c⟩ := r
    obtain ⟨⟨J, hok⟩, hc⟩ := hv
    -- with a declared type or without, the constant is sound and the rest follows
    have hrest : ∀ named : NamedConst, named.Sound → K.Finds st₁ (do
        let more ← namedConsts spec ty ps
        return if p.1.name = "_" then more else named :: more) fun cs _ => ∀ c ∈ cs, c.Sound := by
      intro named hsound
      refine (ih (hr.moves hm₁)).bind fun more _ _ hmore => goes_pure ?_
      split
      · exact hmore
      · exact forall_mem_cons.mpr ⟨hsound, hmore⟩
    cases ty with
    | some t => exact (declaredConst_ok (hty t rfl) hok hc).then fun c' hc' => hrest ⟨p.1.name, t, c'⟩ (.inr hc')
    | none => exact hrest ⟨p.1.name, v.ty, c⟩ (hok.constant hc).2

theorem declaredType?_ok {e : Option Surface.Expr} (hr : K.Ready st) :
    K.Finds st (declaredType? e) fun ty _ => ∀ t, ty = some t → t.Storable := by
  cases e with
  | none => exact goes_pure (by simp)
  | some e => exact (typeOf_ok hr).map fun t _ ht u hu => some.inj hu ▸ ht

theorem constSpec_ok (hr : K.Ready st) : K.Finds st (constSpec spec) fun cs _ => ∀ c ∈ cs, c.Sound :=
  goes_ite_fail fun _ => (declaredType?_ok hr).bind fun _ _ hm hst => namedConsts_ok hst (hr.moves hm)

/-! ## Values to store -/

theorem sourcedValues_ok (hn : identsAll es ⊆ K.names) (hr : K.Ready st) :
    K.Finds st (sourcedValues es) fun vs st' => ∀ p ∈ vs, p.2.Ok (K.judge st'.view) := by
  induction es generalizing st with
  | nil => exact goes_pure (by simp)
  | cons e es ih =>
    obtain ⟨he, hes⟩ := append_subset.mp hn
    exact (value_ok he hr).bind fun v _ hm₁ hok => (ih hes (hr.moves hm₁)).bind fun vs _ hm₂ hoks =>
      goes_pure (forall_mem_cons.mpr ⟨hok.mono hm₂.judge_le, hoks⟩)

/-- How the values for so many places are found: one for each expression, or all by one call. -/
def Gathers (env : Env) (n : Nat) (rhs : List Surface.Expr) (st : State) (vs : List Sourced) (st' : State) : Prop :=
  rhs.length = n ∧ sourcedValues rhs env st = .ok (vs, st') ∨
    ∃ e ws, rhs = [e] ∧ n ≠ 1 ∧ values e env st = .ok (ws, st') ∧ ws.length = n ∧ vs = ws.map fun v => (e.pos, v)

theorem valuesFor_gathers (h : valuesFor pos n rhs env st = .ok (vs, st')) : Gathers env n rhs st vs st' := by
  unfold valuesFor at h
  split at h
  · next hlen => exact .inl ⟨hlen, h⟩
  · next hlen =>
    split at h
    · obtain ⟨ws, st₁, hws, h⟩ := bind_ok h
      obtain ⟨hcount, h⟩ := ite_else_fail_ok h
      obtain ⟨rfl, rfl⟩ := pure_ok h
      exact .inr ⟨_, ws, rfl, Ne.symm hlen, hws, hcount, rfl⟩
    · exact absurd h fail_ne_ok

theorem Gathers.ok (h : Gathers K.env n rhs st vs st') (hn : identsAll rhs ⊆ K.names) (hr : K.Ready st) :
    K.Moves Added.Temps st st' ∧ ∀ p ∈ vs, p.2.Ok (K.judge st'.view) := by
  rcases h with ⟨-, h⟩ | ⟨e, ws, rfl, -, h, -, rfl⟩
  · exact (sourcedValues_ok hn hr).ok h
  · obtain ⟨hm, hok⟩ := (values_ok e (append_subset.mp hn).1 hr).ok h
    exact ⟨hm, forall_mem_map.mpr hok⟩

theorem valuesFor_ok (hn : identsAll rhs ⊆ K.names) (hr : K.Ready st) :
    K.Finds st (valuesFor pos n rhs) fun vs st' => ∀ p ∈ vs, p.2.Ok (K.judge st'.view) :=
  fun _ _ h => (valuesFor_gathers h).ok hn hr

/-! ## Places -/

namespace Site

variable {l : Code.Expr} {t : Ty} {ss : List Scope} {i : Nat}

/-- A place to which good expressions of a type can be stored, now and later. -/
def Accepts (K : Site) (ss : List Scope) (l : Code.Expr) (t : Ty) : Prop :=
  ∀ a r, (K.judge (grow a ss)).Good r t → K.Writes (grow a ss) (.assign l r)

theorem Accepts.grow (h : K.Accepts ss l t) (a : Added) : K.Accepts (grow a ss) l t := by
  intro b r hr
  rw [grow_grow] at hr ⊢
  exact h _ r hr

theorem Accepts.moves (h : K.Accepts st.view l t) (hm : K.Moves P st st') : K.Accepts st'.view l t := by
  obtain ⟨a, -, -, hview⟩ := hm.grows
  exact hview ▸ h.grow a

theorem Accepts.writes (h : K.Accepts ss l t) (hr : (K.judge ss).Good r t) :
    K.Writes ss (.assign l r) := by
  have hw := h {} r (by rwa [grow_empty])
  rwa [grow_empty] at hw

theorem accepts_variable (ht : typesOf ss i = some t) (hst : t.Storable) (hs : K.Stored ss i) (hw : Writable ss i) :
    K.Accepts ss (.localVar i) t :=
  fun a _ hr => writes_set (typesOf_grow a ht) hst (hs.grow a) (hw.grow a) hr

/-- Variables that are meant, and parts of them. -/
theorem accepts_part (hl : (K.judge ss).Good l t) (hroot : l.root? = some i) (hw : Writable ss i) : K.Accepts ss l t :=
  fun a _ hr => writes_assign (hl.mono (K.judge_le_grow ss a)) hroot (hw.grow a) hr

end Site

/-- A value that is kept has its own variable, which nothing else writes. -/
theorem kept_ok {e : Code.Expr} (hs : K.Sane st) (ht : t.Storable) (he : (K.judge st.view).Good e t) :
    K.Finds st (kept several t e) fun e' st' => (K.judge st'.view).Good e' t := by
  refine goes_ite (fun _ => (hs.temporary ht).bind fun i st₁ hm hi => ?_) fun _ => goes_pure he
  obtain ⟨hgood, hw, -, -⟩ := hi
  have hwrites := Site.writes_assign hgood rfl hw (he.mono hm.judge_le)
  exact (Site.finds_emit hwrites).bind fun _ _ _ hview => goes_pure (hview ▸ hgood)

/-- Stores to places that accept them. -/
theorem stores_ok (hs : K.Sane st)
    (hts : ∀ p ∈ ts, K.Accepts st.view p.1.expr p.1.ty ∧ p.1.ty.Storable ∧ (K.judge st.view).Good p.2 p.1.ty) :
    K.Finds st (stores several ts) fun cs st' => ∀ c ∈ cs, K.Writes st'.view c := by
  induction ts generalizing st with
  | nil => exact goes_pure (by simp)
  | cons p ts ih =>
    rw [forall_mem_cons] at hts
    obtain ⟨⟨hacc, hst, hgood⟩, hts⟩ := hts
    refine (kept_ok hs hst hgood).bind fun e' st₁ hm₁ hgood' => (ih (hs.moves hm₁) fun q hq =>
      ⟨(hts q hq).1.moves hm₁, (hts q hq).2.1, (hts q hq).2.2.mono hm₁.judge_le⟩).bind fun rest st₂ hm₂ hws =>
        goes_pure (forall_mem_cons.mpr ⟨?_, hws⟩)
    -- the store stands behind the variables that later values are kept in
    exact ((hacc.moves hm₁).moves hm₂).writes (hgood'.mono hm₂.judge_le)

/-! ## Variables -/

theorem notRedeclared_ok (h : notRedeclared pos name env st = .ok (u, st')) : st = st' := by
  replace h := get_bind_ok h
  obtain ⟨-, h⟩ := ite_fail_ok h
  exact (pure_ok h).2

theorem goes_notRedeclared_bind (h : Goes env R st (k ()) Q) : Goes env R st (notRedeclared pos name >>= k) Q :=
  Goes.then (fun _ _ hnot => ⟨notRedeclared_ok hnot, trivial⟩) fun _ (_ : True) => h

/-- A new variable of the source is a place for its type. -/
theorem declareLocal_ok (hs : K.Sane st) (ht : t.Storable) (hf : ⟨name, pos⟩ ∈ K.fresh) :
    K.Enters st (declareLocal name t pos) fun i st' =>
      typesOf st'.view i = some t ∧ K.Stored st'.view i ∧ Writable st'.view i := by
  intro i st' h
  obtain ⟨rfl, hview, hout⟩ := declare_view h
  have hnum : numbered? st'.view (stop st.view) = some ⟨name, t, pos, .declared false⟩ := by
    rw [hview]
    exact numbered?_grow_new (State.view_ne_nil st) _ 0
  have hsound : Added.Sound { vars := [Variable.unmarked ⟨name, t, pos, .declared false⟩] } :=
    ⟨by simpa using ht, by simp [Variable.unmarked], by simp, by simp⟩
  refine ⟨⟨⟨_, ?_, hsound, hview⟩, [], by simp [hout], by simp⟩, map_eq_some_iff.mpr ⟨_, hnum, rfl⟩,
    ⟨_, .inr (.inl ⟨hs.later, hnum, rfl, hf⟩)⟩, ⟨_, hnum, by simp, by simp⟩⟩
  simpa [Site.Declares, Variable.unmarked] using hf

/-- A variable about to be declared: the statement declares it, and what it starts as is good. -/
def Fresh.Ok (K : Site) (ss : List Scope) (f : Fresh) : Prop :=
  f.name ∈ K.fresh ∧ f.ty.Storable ∧ ∀ e, f.start = some e → (K.judge ss).Good e f.ty

theorem Fresh.Ok.moves {f : Fresh} (h : f.Ok K st.view) (hm : K.Moves P st st') : f.Ok K st'.view :=
  ⟨h.1, h.2.1, fun e he => (h.2.2 e he).mono hm.judge_le⟩

theorem freshZeros_ok (ht : t.Storable) (hns : ns ⊆ K.fresh) :
    Goes K.env Eq st (freshZeros t ns) fun fs _ => ∀ f ∈ fs, f.Ok K st.view := by
  induction ns with
  | nil => exact goes_pure (by simp)
  | cons n ns ih =>
    rw [cons_subset] at hns
    exact goes_notRedeclared_bind ((ih hns.2).then fun fs hfs =>
      goes_pure (forall_mem_cons.mpr ⟨⟨hns.1, ht, nofun⟩, hfs⟩))

theorem freshValues_ok (hty : ∀ t, ty = some t → t.Storable)
    (hps : ∀ p ∈ ps, p.1 ∈ K.fresh ∧ p.2.2.Ok (K.judge st.view)) :
    Goes K.env Eq st (freshValues ty ps) fun fs _ => ∀ f ∈ fs, f.Ok K st.view := by
  induction ps with
  | nil => exact goes_pure (by simp)
  | cons p ps ih =>
    obtain ⟨n, pos, v⟩ := p
    rw [forall_mem_cons] at hps
    obtain ⟨⟨hn, hv⟩, hps⟩ := hps
    have hrest : ∀ f : Fresh, f.Ok K st.view →
        Goes K.env Eq st (do return f :: (← freshValues ty ps)) fun fs _ => ∀ f ∈ fs, f.Ok K st.view :=
      fun f hf => (ih hps).then fun fs hfs => goes_pure (forall_mem_cons.mpr ⟨hf, hfs⟩)
    refine goes_notRedeclared_bind ?_
    cases ty with
    | some t =>
      refine goes_ruled.then fun e he => hrest ⟨n, t, some e⟩ ⟨hn, hty t rfl, fun e' he' => ?_⟩
      exact some.inj he' ▸ settle_good rfl hv (hty t rfl) he
    | none =>
      refine goes_ruled.then fun w hw => ?_
      obtain ⟨hgood, hst⟩ := settleDefault_ok rfl hv hw
      exact hrest ⟨n, w.ty, some w.expr⟩ ⟨hn, hst, fun e' he' => some.inj he' ▸ hgood⟩

/-- Declaring variables, and the statements that set them. -/
theorem declareFresh_ok (hs : K.Sane st) (hfs : ∀ f ∈ fs, f.Ok K st.view) :
    K.Enters st (declareFresh several fs) fun cs st' => ∀ c ∈ cs, K.Writes st'.view c := by
  induction fs generalizing st with
  | nil => exact goes_pure (by simp)
  | cons f fs ih =>
    rw [forall_mem_cons] at hfs
    obtain ⟨⟨hn, hst, hstart⟩, hfs⟩ := hfs
    refine goes_ite (fun _ => ih hs hfs) fun _ => ?_
    -- whatever it starts as, the rest is declared behind it
    have hrest : ∀ (s₁ : State) (store : Nat → Code.Stmt), K.Moves Added.Temps st s₁ →
        (∀ s₂ i, K.Moves K.Declares s₁ s₂ → typesOf s₂.view i = some f.ty → K.Stored s₂.view i →
          Writable s₂.view i → K.Writes s₂.view (store i)) →
        K.Enters s₁ (do
          let i ← declareLocal f.name.name f.ty f.name.pos
          return store i :: (← declareFresh several fs)) fun cs st' => ∀ c ∈ cs, K.Writes st'.view c := by
      intro s₁ store hm₁ hstore
      refine (declareLocal_ok (hs.moves hm₁) hst hn).bind fun i s₂ hm₂ hi => ?_
      have hm₁₂ := hm₁.declares.trans_declares hm₂
      refine (ih (hs.moves hm₁₂) fun g hg => (hfs g hg).moves hm₁₂).bind fun rest s₃ hm₃ hws =>
        goes_pure (forall_mem_cons.mpr ⟨?_, hws⟩)
      obtain ⟨a, -, -, hview⟩ := hm₃.grows
      exact hview ▸ (hstore s₂ i hm₂ hi.1 hi.2.1 hi.2.2).grow a
    cases hf : f.start with
    | some e =>
      have hkept : K.Finds st (some <$> kept several f.ty e) fun o st' =>
          ∃ e', o = some e' ∧ (K.judge st'.view).Good e' f.ty :=
        (kept_ok hs hst (hstart e hf)).map fun e' _ he' => ⟨e', rfl, he'⟩
      refine hkept.enter fun o s₁ hm₁ ho => ?_
      obtain ⟨e', rfl, hgood⟩ := ho
      exact hrest s₁ (fun i => .assign (.localVar i) e') hm₁
        fun s₂ i hm ht hstored hw => Site.writes_set ht hst hstored hw (hgood.mono hm.judge_le)
    | none =>
      exact hrest st (fun i => .init i) (Site.moves_refl st)
        fun s₂ i _ ht hstored hw => Site.writes_init ht hst hstored hw

theorem zip_names (hns : ns ⊆ K.fresh) (hvs : ∀ p ∈ vs, p.2.Ok (K.judge st.view)) :
    ∀ p ∈ ns.zip vs, p.1 ∈ K.fresh ∧ p.2.2.Ok (K.judge st.view) := by
  rintro ⟨n, v⟩ hp
  obtain ⟨hn, hv⟩ := of_mem_zip hp
  exact ⟨hns hn, hvs v hv⟩

/-- **A declaration of variables.** -/
theorem varSpec_ok (hn : identsAll spec.values ⊆ K.names) (hf : spec.names ⊆ K.fresh) (hr : K.Ready st) :
    K.Enters st (varSpec spec) fun _ _ => True := by
  refine (declaredType?_ok hr).enter fun ty st₁ hm₁ hst => goes_ite_fail fun _ => ?_
  have hr₁ := hr.moves hm₁
  have hrest : ∀ (s₂ : State) (fs : List Fresh), K.Ready s₂ → (∀ f ∈ fs, f.Ok K s₂.view) →
      K.Enters s₂ (do emitAll (← declareFresh (1 < fs.length) fs)) fun _ _ => True :=
    fun s₂ fs hr₂ hfs => (declareFresh_ok hr₂.toSane hfs).bind fun cs _ _ hcs => (Site.finds_emitAll hcs).enters
  split
  · exact (freshZeros_ok (hst _ rfl) hf).then fun fs hfs => hrest st₁ fs hr₁ hfs
  · split
    · exact hrest st₁ [] hr₁ (by simp)
    · exact goes_notRedeclared_bind ((goes_fail (Q := fun _ _ => False)).then fun _ h => h.elim)
  · exact (valuesFor_ok hn hr₁).enter fun vs st₂ hm₂ hvs =>
      (freshValues_ok hst (zip_names hf hvs)).then fun fs hfs => hrest st₂ fs (hr₁.moves hm₂) hfs

/-! ## Definitions -/

/-- The names on the left of a definition, where they stand. -/
def definedIdents : List Surface.Expr → List Ident
  | [] => []
  | .ident pos name :: es => ⟨name, pos⟩ :: definedIdents es
  | _ :: es => definedIdents es

theorem definedNames_ok (h : definedNames es env st = .ok (ns, st')) :
    st = st' ∧ ns = definedIdents es ∧ ∀ n ∈ ns, n.name ∈ identsAll es := by
  induction es generalizing ns with
  | nil =>
    obtain ⟨rfl, rfl⟩ := pure_ok h
    exact ⟨rfl, rfl, by simp⟩
  | cons e es ih =>
    cases e with
    | ident pos name =>
      obtain ⟨rest, hrest, rfl⟩ := bind_pure_ok h
      obtain ⟨rfl, rfl, hall⟩ := ih hrest
      refine ⟨rfl, rfl, forall_mem_cons.mpr ⟨by simp [identsAll, Surface.Expr.idents], fun n hn => ?_⟩⟩
      exact mem_append_right _ (hall n hn)
    | _ => exact absurd h fail_ne_ok

/-- The variable that a definition stores to is the one that the name means, and it is marked. -/
theorem redefined_lookup {name : Ident} (hi : st.scope.findVar? name.name = some i)
    (h : redefined name i env st = .ok ((index, t), st')) :
    st'.scopes = useVar name.name st.scopes ∧ st'.out = st.out ∧
      ∃ v, lookupVar? name.name st.view = some (index, v) ∧ v.ty = t ∧ v.role ≠ .param true ∧
        v ∈ st.scope.unmarked.vars := by
  replace h := get_bind_ok h
  have hlt := Scope.findVar?_lt hi
  have hget : st.scope.vars[i]? = some st.scope.vars[i] := List.getElem?_eq_getElem hlt
  rw [hget] at h
  obtain ⟨u, st₁, hm, h⟩ := bind_ok h
  have hm := modify_ok hm
  obtain ⟨hrole, h⟩ := ite_fail_ok h
  obtain ⟨hp, rfl⟩ := pure_ok h
  obtain ⟨rfl, rfl⟩ := Prod.mk.inj hp
  subst hm
  refine ⟨?_, rfl, st.scope.vars[i].unmarked, ?_, Variable.unmarked_ty _, ?_, ?_⟩
  · rw [State.scopes, State.scopes, useVar, hi]
  -- the innermost scope is searched first, so the name means this variable
  · rw [State.view, lookupVar?_map_unmarked, State.scopes, lookupVar?, hi]
    dsimp only
    rw [hget]
    rfl
  · exact fun hp => hrole ((Variable.unmarked_role_eq_param _ _).mp hp)
  · exact List.mem_map_of_mem (getElem_mem hlt)

/-- A definition stores to a variable that its own scope has only if that variable may be written. -/
theorem redefined_ok {name : Ident} (hr : K.Ready st) (hn : name.name ∈ K.names)
    (hi : st.scope.findVar? name.name = some i) :
    K.Finds st (redefined name i) fun r st' => K.Accepts st'.view (.localVar r.1) r.2 ∧ r.2.Storable := by
  rintro ⟨index, t⟩ st' h
  obtain ⟨hscopes, hout, v, hlook, rfl, hrole, hmem⟩ := redefined_lookup hi h
  obtain ⟨hgood, hst, hnum⟩ := hr.lookup hn hlook
  -- a counter has the scope of its loop's head to itself, so it is not this one
  have hw : Writable st.view index := ⟨v, hnum, hrole, hr.counterless v hmem⟩
  have hview : st'.view = st.view := by rw [State.view, hscopes, map_unmarked_useVar, ← State.view]
  exact ⟨Site.moves_of_eq Added.temps_empty hview hout, hview ▸ Site.accepts_part hgood rfl hw, hst⟩

/-- What a definition stores to, with the value for it. -/
def Defined.Ok (K : Site) (ss : List Scope) : Defined → Prop
  | .new name t e => name ∈ K.fresh ∧ t.Storable ∧ (K.judge ss).Good e t
  | .old i t e => K.Accepts ss (.localVar i) t ∧ t.Storable ∧ (K.judge ss).Good e t

theorem Defined.Ok.moves {P : Added → Prop} {d : Defined} (h : d.Ok K st.view) (hm : K.Moves P st st') :
    d.Ok K st'.view := by
  cases d with
  | new name t e => exact ⟨h.1, h.2.1, h.2.2.mono hm.judge_le⟩
  | old i t e => exact ⟨h.1.moves hm, h.2.1, h.2.2.mono hm.judge_le⟩

theorem definedTargets_ok (hr : K.Ready st)
    (hps : ∀ p ∈ ps, p.1 ∈ K.fresh ∧ p.1.name ∈ K.names ∧ p.2.2.Ok (K.judge st.view)) :
    K.Finds st (definedTargets ps) fun ds st' => ∀ d ∈ ds, d.Ok K st'.view := by
  induction ps generalizing st with
  | nil => exact goes_pure (by simp)
  | cons p ps ih =>
    obtain ⟨name, pos, v⟩ := p
    rw [forall_mem_cons] at hps
    obtain ⟨⟨hfresh, hname, hv⟩, hps⟩ := hps
    refine goes_ite (fun _ => ih hr hps) fun _ => goes_get_bind ?_
    have hrest : ∀ (s₁ : State) (d : Defined), K.Moves Added.Temps st s₁ → d.Ok K s₁.view →
        K.Finds s₁ (do return d :: (← definedTargets ps)) fun ds st' => ∀ d ∈ ds, d.Ok K st'.view :=
      fun s₁ d hm₁ hd => (ih (hr.moves hm₁) fun q hq => ⟨(hps q hq).1, (hps q hq).2.1,
        (hps q hq).2.2.mono hm₁.judge_le⟩).bind fun ds _ hm₂ hds => goes_pure (forall_mem_cons.mpr ⟨hd.moves hm₂, hds⟩)
    cases hfind : st.scope.findVar? name.name with
    | some i =>
      refine (redefined_ok hr hname hfind).bind fun r s₁ hm₁ hred => goes_ruled.then fun e he => ?_
      exact hrest s₁ (.old r.1 r.2 e) hm₁ ⟨hred.1, hred.2, settle_good rfl (hv.mono hm₁.judge_le) hred.2 he⟩
    | none =>
      refine goes_notRedeclared_bind (goes_ruled.then fun w hw => ?_)
      obtain ⟨hgood, hst⟩ := settleDefault_ok rfl hv hw
      exact hrest st (.new name w.ty w.expr) (Site.moves_refl st) ⟨hfresh, hst, hgood⟩

theorem declareDefined_ok (hs : K.Sane st) (hds : ∀ d ∈ ds, d.Ok K st.view) :
    K.Enters st (declareDefined several ds) fun cs st' => ∀ c ∈ cs, K.Writes st'.view c := by
  induction ds generalizing st with
  | nil => exact goes_pure (by simp)
  | cons d ds ih =>
    rw [forall_mem_cons] at hds
    obtain ⟨hd, hds⟩ := hds
    have hrest : ∀ (s₁ : State) (l r : Code.Expr) (t : Ty), K.Moves K.Declares st s₁ → K.Accepts s₁.view l t →
        (K.judge s₁.view).Good r t → K.Enters s₁ (do return .assign l r :: (← declareDefined several ds))
          fun cs st' => ∀ c ∈ cs, K.Writes st'.view c :=
      fun s₁ l r t hm₁ hacc hgood => (ih (hs.moves hm₁) fun e he => (hds e he).moves hm₁).bind fun rest _ hm₂ hws =>
        goes_pure (forall_mem_cons.mpr ⟨(hacc.moves hm₂).writes (hgood.mono hm₂.judge_le), hws⟩)
    cases d with
    | new name t e =>
      obtain ⟨hfresh, hst, hgood⟩ := hd
      refine (kept_ok hs hst hgood).enter fun e' st₁ hm₁ hgood' =>
        (declareLocal_ok (hs.moves hm₁) hst hfresh).bind fun i st₂ hm₂ hi => ?_
      exact hrest st₂ (.localVar i) e' t (hm₁.declares.trans_declares hm₂)
        (Site.accepts_variable hi.1 hst hi.2.1 hi.2.2) (hgood'.mono hm₂.judge_le)
    | old i t e =>
      obtain ⟨hacc, hst, hgood⟩ := hd
      exact (kept_ok hs hst hgood).enter fun e' st₁ hm₁ hgood' =>
        hrest st₁ (.localVar i) e' t hm₁.declares (hacc.moves hm₁) hgood'

/-- **A definition.** -/
theorem define_ok (hl : identsAll lhs ⊆ K.names) (hn : identsAll rhs ⊆ K.names)
    (hf : definedIdents lhs ⊆ K.fresh) (hr : K.Ready st) : K.Enters st (define pos lhs rhs) fun _ _ => True := by
  refine Goes.then (fun _ _ h => definedNames_ok h) fun ns hns => ?_
  obtain ⟨rfl, hnames⟩ := hns
  refine (valuesFor_ok hn hr).enter fun vs st₁ hm₁ hok => goes_get_bind (goes_ite_fail fun _ => ?_)
  have hr₁ := hr.moves hm₁
  refine (definedTargets_ok hr₁ fun p hp => ?_).enter fun ds st₂ hm₂ hds =>
    (declareDefined_ok (hr₁.moves hm₂).toSane hds).bind fun cs _ _ hcs => (Site.finds_emitAll hcs).enters
  have hz := zip_names hf hok p hp
  exact ⟨hz.1, hl (hnames p.1 (of_mem_zip hp).1), hz.2⟩

/-! ## Assignments -/

/-- A place that an assignment stores to. -/
def Value.IsTarget (K : Site) (ss : List Scope) (v : Value) : Prop :=
  (K.judge ss).Good v.expr v.ty ∧ v.ty.Storable ∧ ∃ i, v.expr.root? = some i ∧ Writable ss i

theorem Value.IsTarget.moves (h : v.IsTarget K st.view) (hm : K.Moves P st st') : v.IsTarget K st'.view := by
  obtain ⟨hgood, hst, i, hroot, hw⟩ := h
  exact ⟨hgood.mono hm.judge_le, hst, i, hroot, hm.writable hw⟩

theorem Value.IsTarget.accepts (h : v.IsTarget K ss) : K.Accepts ss v.expr v.ty := by
  obtain ⟨hgood, -, i, hroot, hw⟩ := h
  exact Site.accepts_part hgood hroot hw

theorem Value.IsTarget.ok (h : v.IsTarget K ss) : v.Ok (K.judge ss) :=
  Value.Good.ok ⟨h.1, .inl h.2.1⟩

theorem namedTarget_ok (hr : K.Ready st) (hn : name ∈ K.names) :
    K.Finds st (namedTarget pos name) fun v st' => v.IsTarget K st'.view := by
  refine finds_local.bind fun found st₁ hm hfound => ?_
  obtain ⟨hlook, hview⟩ := hfound
  cases found with
  | some p =>
    obtain ⟨hgood, hst, hnum⟩ := hr.lookup hn hlook
    rw [Variable.unmarked_ty] at hgood hst
    dsimp only
    split
    · exact goes_fail
    · exact goes_fail
    · next hparam hcounter =>
      refine goes_pure ⟨hview ▸ hgood, hst, p.1, rfl, _, hview ▸ hnum, ?_, ?_⟩
      · exact fun hp => hparam ((Variable.unmarked_role_eq_param _ _).mp hp)
      · exact fun hc => hcounter ((Variable.unmarked_role_eq_counter _).mp hc)
  | none =>
    exact Goes.then (fun _ _ h => (findConst?_ok h).symm) fun _ _ => goes_ite_fail fun _ =>
      goes_globals_bind (goes_ite_fail fun _ => goes_bind_fail)

/-- What can be assigned to is a variable that may be written, or a part of one. -/
theorem target_ok (e : Surface.Expr) (hn : e.idents ⊆ K.names) (hr : K.Ready st) :
    K.Finds st (target e) fun v st' => v.IsTarget K st'.view := by
  cases e with
  | paren pos e =>
    rw [target]
    exact target_ok e hn hr
  | ident pos name =>
    rw [target]
    exact namedTarget_ok hr (hn (by simp [Surface.Expr.idents]))
  | index base i =>
    rw [target]
    obtain ⟨hbase, hi⟩ := append_subset.mp hn
    refine (target_ok base hbase hr).bind fun b st₁ hm₁ hb => ?_
    split
    · exact goes_fail
    · next helems =>
      refine (value_ok hi (hr.moves hm₁)).bind fun w st₂ hm₂ hw => goes_ruled.then fun q hq => goes_pure ?_
      obtain ⟨hgood, hst, k, hroot, hwritable⟩ := hb.moves hm₂
      exact ⟨hgood.index (position_good rfl hw hq) helems, (elements?_plain hst helems).storable, k, hroot, hwritable⟩
  | selector base name =>
    rw [target]
    refine (target_ok base hn hr).bind fun b st₁ _ hb => goes_ruled.still fun v hv => ?_
    obtain ⟨t, rfl, hok, hst⟩ := swizzle_ok hb.ok hv
    obtain ⟨-, -, k, hroot, hwritable⟩ := hb
    exact ⟨hok.1, hst, k, hroot, hwritable⟩
  | _ => exact goes_fail

theorem targets_ok {ps : List (Surface.Expr × Sourced)} (hr : K.Ready st)
    (hps : ∀ p ∈ ps, p.1.idents ⊆ K.names ∧ p.2.2.Ok (K.judge st.view)) :
    K.Finds st (targets ps) fun ts st' => ∀ p ∈ ts, p.1.IsTarget K st'.view ∧ (K.judge st'.view).Good p.2 p.1.ty := by
  induction ps generalizing st with
  | nil => exact goes_pure (by simp)
  | cons p ps ih =>
    rw [forall_mem_cons] at hps
    obtain ⟨⟨hl, hv⟩, hps⟩ := hps
    refine goes_ite (fun _ => goes_ruled.then fun _ _ => ih hr hps) fun _ =>
      (target_ok p.1 hl hr).bind fun t st₁ hm₁ ht => goes_ruled.then fun e he => ?_
    have hgood := settle_good rfl (hv.mono hm₁.judge_le) ht.2.1 he
    exact (ih (hr.moves hm₁) fun q hq => ⟨(hps q hq).1, (hps q hq).2.mono hm₁.judge_le⟩).bind fun ts _ hm₂ hts =>
      goes_pure (forall_mem_cons.mpr ⟨⟨ht.moves hm₂, hgood.mono hm₂.judge_le⟩, hts⟩)

theorem idents_subset_of_mem (h : e ∈ es) : e.idents ⊆ identsAll es := by
  induction es with
  | nil => cases h
  | cons d es ih =>
    rcases mem_cons.mp h with rfl | h
    · exact subset_append_left _ _
    · exact List.Subset.trans (ih h) (subset_append_right _ _)

/-- **An assignment of values.** -/
theorem assign_ok (hl : identsAll lhs ⊆ K.names) (hn : identsAll rhs ⊆ K.names)
    (hr : K.Ready st) : K.Enters st (assign pos lhs rhs) fun _ _ => True := by
  refine (valuesFor_ok hn hr).enter fun vs st₁ hm₁ hok => ?_
  have hr₁ := hr.moves hm₁
  refine (targets_ok hr₁ fun p hp => ?_).enter fun ts st₂ hm₂ hts => (stores_ok (hr₁.moves hm₂).toSane fun p hp =>
    ⟨(hts p hp).1.accepts, (hts p hp).1.2.1, (hts p hp).2⟩).enter fun cs _ _ hcs => (Site.finds_emitAll hcs).enters
  obtain ⟨hpl, hpv⟩ := of_mem_zip hp
  exact ⟨List.Subset.trans (idents_subset_of_mem hpl) hl, hok p.2 hpv⟩

/-- **An assignment with an operator.** -/
theorem compound_ok (hl : identsAll lhs ⊆ K.names) (hn : identsAll rhs ⊆ K.names)
    (hr : K.Ready st) : K.Enters st (compound pos op lhs rhs) fun _ _ => True := by
  unfold compound
  split
  · refine (value_ok (append_subset.mp hn).1 hr).enter fun v st₁ hm₁ hok =>
      (target_ok _ (append_subset.mp hl).1 (hr.moves hm₁)).enter fun t st₂ hm₂ ht =>
        goes_ruled.then fun w hw => goes_ruled.then fun e he => ?_
    have hwok := binary_ok rfl ht.ok (hok.mono hm₂.judge_le) hw
    exact (Site.finds_emit (ht.accepts.writes (settle_good rfl hwok ht.2.1 he))).enters
  · exact goes_fail

theorem arithmeticType?_scalar {op : Op} {s u : Ty} (hop : op = .add ∨ op = .sub) (ht : t.Storable)
    (hs : scalarOf? t = some s) (h : arithmeticType? op t s = some u) : u = t := by
  rcases ht.cases with hp | ⟨e, n, rfl, -⟩
  · have hall : ((scalarOf? t).bind (arithmeticType? op t)).all (· = t) = true := by
      rcases hop with rfl | rfl <;> exact hp.of_all (by decide)
    simpa [hs, h] using hall
  · cases hs

/-- One more or one less of something is of its type. -/
theorem combine_one_ty {e : Code.Expr} (hop : op = .add ∨ op = .sub) (ht : t.Storable) (he : e.constant? = none)
    (h : combine op (.typed e t) (.const (.int 1)) = .ok w) : w.ty = t := by
  obtain ⟨_, _, _, _, hl, hr, hways⟩ := combine_cases h
  cases hl
  cases hr
  rcases hways with ⟨x, y, hx, -, -⟩ | ⟨l, r, u, -, hl, hr, hu, rfl⟩
  · cases he.symm.trans hx
  cases hl
  rcases adopt_cases hr with ⟨c, s, c', -, hs, -, rfl⟩ | ⟨-, hconst⟩
  · rcases hop with rfl | rfl
    · exact arithmeticType?_scalar (.inl rfl) ht hs hu
    · exact arithmeticType?_scalar (.inr rfl) ht hs hu
  · exact absurd rfl (hconst _)

theorem constant?_of_root {e : Code.Expr} (h : e.root? = some i) : e.constant? = none := by
  cases e with
  | number c k => cases h
  | _ => rfl

/-- **One more, or one less.** -/
theorem step_ok (hn : e.idents ⊆ K.names) (hr : K.Ready st) :
    K.Enters st (step pos e up) fun _ _ => True := by
  refine (target_ok e hn hr).enter fun t st₁ _ ht => goes_ite_fail fun _ => goes_ruled.then fun w hw => ?_
  have hone : (Value.const (.int 1)).Ok (K.judge st₁.view) := trivial
  have hwok := binary_ok rfl ht.ok hone hw
  -- the one is converted to the scalar of the target, so the type stays
  have hty : w.ty = t.ty := by
    obtain ⟨-, hst, i, hroot, -⟩ := ht
    cases t with
    | const c | shift op n count => exact absurd rfl hst.ne_none
    | typed e t =>
      cases up with
      | true => exact combine_one_ty (.inl rfl) hst (constant?_of_root hroot) hw
      | false => exact combine_one_ty (.inr rfl) hst (constant?_of_root hroot) hw
  have hgood : (K.judge st₁.view).Good w.expr t.ty := hty ▸ (hwok.good_of_ty (hty ▸ ht.2.1.not_isNone)).1
  exact (Site.finds_emit (ht.accepts.writes hgood)).enters

end GameMedia.Shader.Check
