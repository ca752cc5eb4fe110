import GameMedia.Proofs.Shader.Names
import GameMedia.Proofs.Shader.Visits

/-!
# Scopes without double names

An accepted source declares no name twice in one scope, with one exception. Constants, types and functions are compared
with what is there already, and so are variables, but not with those of the same statement. A variable that a later one
of its statement has the name of can never be used, though, and unused variables are not accepted. The exception are the
parameters and results of a function, which nothing compares with each other and which need not be used.
-/

namespace GameMedia.Shader

open List Except

namespace Check

open Surface (Decl FuncDecl GroupKind Ident Roster Spec ValueSpec blockNames isName optScopes stmtsScopes)

variable {env : Env} {st st₁ st' : State} {pos : Pos} {f : Roster → Roster} {es rhs : List Surface.Expr}
  {vs : List Sourced} {n : Nat} {e : Surface.Expr} {ty : Option Ty} {cs : List Code.Stmt} {fs : List Fresh}
  {ns : List Ident} {spec : ValueSpec} {ds : List Defined} {S : List (List Surface.Stmt)}

/-! ## What statements look at -/

section

variable {α β : Type} {p : Check α} {Q : α → State → Prop} {k : α → Check β} {g r : Roster → Roster}

abbrev Stays (env : Env) (st : State) (p : Check α) : Prop := Goes env (Steps id) st p fun _ _ => True

theorem Goes.stays (h : Goes env (Hoists env) st p Q) : Goes env (Steps id) st p Q :=
  h.imp (·.looks.steps) fun _ _ _ => id

theorem Goes.turns (h : Goes env (Steps g) st p Q) (hgr : g st.scope.names = r st.scope.names) :
    Goes env (Steps r) st p Q :=
  h.imp (·.congr hgr) fun _ _ _ => id

theorem Goes.steps (h : Goes env (Steps f) st p Q) (hk : ∀ a st₁, Steps f st st₁ → Q a st₁ →
    Goes env (Steps g) st₁ (k a) T) (hfg : g (f st.scope.names) = r st.scope.names) :
    Goes env (Steps r) st (p >>= k) T := by
  intro b st' hb
  obtain ⟨a, st₁, hp, hb⟩ := bind_ok hb
  obtain ⟨hfirst, ha⟩ := h.ok hp
  exact ((hk a st₁ hfirst ha).ok hb).imp_left fun hrest => (hfirst.trans hrest).congr hfg

theorem Goes.first (h : Goes env (Steps id) st p Q) (hk : ∀ a st₁, Steps id st st₁ → Q a st₁ →
    Goes env (Steps r) st₁ (k a) T) : Goes env (Steps r) st (p >>= k) T :=
  h.before (fun h h' => h.trans h') hk

theorem Goes.last (h : Goes env (Steps r) st p Q) (hk : ∀ a st₁, Goes env (Steps id) st₁ (k a) T) :
    Goes env (Steps r) st (p >>= k) T :=
  h.steps (fun a st₁ _ _ => hk a st₁) rfl

end

theorem emitAll_stays {cs : List Code.Stmt} : Stays env st (emitAll cs) := emitAll_steps.weaken fun _ _ _ _ => trivial

theorem emit_stays : Stays env st (emit c) :=
  emit_steps.weaken fun _ _ _ _ => trivial

theorem sourcedValues_stays : Goes env (Steps id) st (sourcedValues es) fun vs _ => vs.length = es.length := by
  induction es generalizing st with
  | nil => exact goes_pure rfl
  | cons e es ih =>
    exact value_hoists.stays.bind fun _ _ _ _ => ih.bind fun _ _ _ hlen => goes_pure (congrArg (· + 1) hlen)

theorem Gathers.stays (h : Gathers env n rhs st vs st') : Steps id st st' ∧ vs.length = n := by
  rcases h with ⟨hlen, h⟩ | ⟨e, ws, rfl, -, h, hlen, rfl⟩
  · exact hlen ▸ sourcedValues_stays.ok h
  · exact ⟨((values_hoists e).ok h).1.steps, by rwa [length_map]⟩

theorem valuesFor_stays : Goes env (Steps id) st (valuesFor pos n rhs) fun vs _ => vs.length = n :=
  fun _ _ h => (valuesFor_gathers h).stays

theorem withoutStmts_stays : Stays env st (withoutStmts (value e)) :=
  (withoutStmts_glances fun _ => value_hoists).imp (·.looks.steps) fun _ _ _ => id

theorem declaredType?_stays {e : Option Surface.Expr} : Stays env st (declaredType? e) :=
  declaredType?_glances.imp (·.looks.steps) fun _ _ _ => id

theorem constValue_stays : Stays env st (constValue e) := by
  refine withoutStmts_stays.bind fun r _ _ _ => ?_
  obtain ⟨v, wrote⟩ := r
  dsimp only
  split
  · exact goes_pure trivial
  · exact goes_fail

theorem targets_stays {ps : List (Surface.Expr × Sourced)} : Stays env st (targets ps) := by
  induction ps generalizing st with
  | nil => exact goes_pure trivial
  | cons p ps ih =>
    exact goes_ite (fun _ => goes_ruled.then fun _ _ => ih) fun _ => (target_hoists _).stays.bind fun _ _ _ _ =>
      goes_ruled.then fun _ _ => ih.bind fun _ _ _ _ => goes_pure trivial

theorem loopConstant_stays : Stays env st (loopConstant e ty) := by
  refine withoutStmts_stays.bind fun r _ _ _ => ?_
  obtain ⟨v, wrote⟩ := r
  dsimp only
  split
  · refine goes_ite_fail fun _ => goes_ite_fail fun _ => ?_
    split
    · exact goes_pure trivial
    · exact goes_fail
  · exact goes_fail

theorem loopHeader_stays :
    Goes env (Steps id) st (loopHeader pos init test post) fun _ _ => ∃ q, loopStart? init = some q :=
  (goes_loopHeader (I := fun _ => True) (Q := fun _ _ => True) (fun _ => id) (fun _ _ _ _ => loopConstant_stays)
    trivial).weaken fun _ _ _ h => h.1.elim fun _ hstart => ⟨_, hstart⟩

/-! ## Statements that declare nothing -/

theorem stores_stays : Stays env st (stores several ts) := by
  induction ts generalizing st with
  | nil => exact goes_pure trivial
  | cons t ts ih => exact kept_steps.bind fun _ _ _ _ => ih.bind fun _ _ _ _ => goes_pure trivial

theorem outputStores_still {ps : List (Sourced × Ty)} :
    Goes env Eq st (outputStores i ps) fun _ _ => True := by
  induction ps generalizing i with
  | nil => exact goes_pure trivial
  | cons p ps ih => exact goes_ruled.then fun _ _ => ih.then fun _ _ => goes_pure trivial

theorem assign_stays : Stays env st (assign pos lhs rhs) :=
  valuesFor_stays.bind fun _ _ _ _ => targets_stays.bind fun _ _ _ _ => stores_stays.bind fun _ _ _ _ => emitAll_stays

theorem compound_stays : Stays env st (compound pos op lhs rhs) := by
  unfold compound
  split
  · exact value_hoists.stays.bind fun _ _ _ _ => (target_hoists _).stays.bind fun _ _ _ _ => goes_ruled.then fun _ _ =>
      goes_ruled.then fun _ _ => emit_stays
  · exact goes_fail

theorem step_stays : Stays env st (step pos e up) :=
  (target_hoists e).stays.bind fun _ _ _ _ => goes_ite_fail fun _ => goes_ruled.then fun _ _ => emit_stays

theorem exprStmt_stays : Stays env st (exprStmt e) := by
  unfold exprStmt
  generalize stripParens e = e'
  cases e' with
  | call callee args spread =>
    have hvalues : Stays env st (values (.call callee args spread)) :=
      Goes.imp (values_hoists _) Looks.steps fun _ _ _ _ => trivial
    refine needsUse_ok.then fun _ _ => goes_ite_fail fun _ => hvalues.bind fun _ _ _ _ => ?_
    split
    · exact emit_stays
    · exact goes_pure trivial
  | _ => exact goes_fail

theorem returnStmt_stays : Stays env st (returnStmt pos es) := by
  have hvalues : ∀ n, Stays env st (returnedValues pos n es) := fun _ _ _ h =>
    ⟨(returnedValues_gathers h).stays.1, trivial⟩
  refine goes_frame_bind ?_
  split
  · split
    · exact value_hoists.stays.bind fun _ _ _ _ => goes_ruled.then fun _ _ => emit_stays
    · exact goes_fail
    · exact goes_fail
  · split
    · exact goes_ite_fail fun _ => emit_stays
    · exact goes_ite_fail fun _ => (hvalues _).bind fun _ _ _ _ => outputStores_still.then fun _ _ =>
        stores_stays.bind fun _ _ _ _ => emitAll_stays.bind fun _ _ _ _ => emit_stays

theorem branchStmt_stays {kind : Surface.BranchKind} :
    Stays env st (branchStmt pos inLoop label kind) := by
  refine goes_ite_fail fun _ => ?_
  cases kind with
  | leave | next => exact goes_ite_else_fail fun _ => emit_stays
  | goto | fallthrough => exact goes_fail

/-! ## Declarations -/

theorem declareFresh_steps (hfree : ∀ f ∈ fs, st.scope.Free f.name.name) :
    Goes env (Steps (·.addVars (fs.map fun f => f.name.name))) st (declareFresh several fs) fun _ _ => True := by
  induction fs generalizing st with
  | nil => exact Goes.turns (g := id) (goes_pure trivial) (Roster.addVars_nil _).symm
  | cons f fs ih =>
    rw [forall_mem_cons] at hfree
    refine goes_ite (fun hblank => (ih hfree.2).turns (by rw [map_cons, hblank]; rfl)) fun _ => ?_
    have hrest : ∀ (s₁ : State) (store : Nat → Code.Stmt), (∀ n, st.scope.Free n → s₁.scope.Free n) →
        Goes env (Steps (·.addVars ((f :: fs).map fun f => f.name.name))) s₁ (do
          let i ← declareLocal f.name.name f.ty f.name.pos
          return store i :: (← declareFresh several fs)) fun _ _ => True :=
      fun s₁ store hfree₁ => (declare_steps (fun _ => rfl) (hfree₁ _ hfree.1)).steps (fun i s₂ _ hfree₂ =>
        (ih fun f' hf' => hfree₂ _ (hfree₁ _ (hfree.2 f' hf'))).last fun _ _ => goes_pure trivial)
        (Roster.addVars_addVars _ _ (fs.map fun f => f.name.name))
    cases f.start with
    | some e =>
      have hkept : Goes env (Steps id) st (some <$> kept several f.ty e) fun o st' =>
          (∃ e', o = some e') ∧ ∀ n, st.scope.Free n → st'.scope.Free n :=
        kept_steps.map fun e' _ h => ⟨⟨e', rfl⟩, h⟩
      refine hkept.first fun o s₁ _ ho => ?_
      obtain ⟨⟨e', rfl⟩, hfree₁⟩ := ho
      exact hrest s₁ (fun i => .assign (.localVar i) e') hfree₁
    | none => exact hrest st (fun i => .init i) fun _ => id

theorem freshZeros_names : Goes env Eq st (freshZeros t ns) fun fs _ =>
    (fs.map fun f => f.name.name) = ns.map Ident.name ∧ ∀ f ∈ fs, st.scope.Free f.name.name := by
  induction ns with
  | nil => exact goes_pure ⟨rfl, forall_mem_nil _⟩
  | cons n ns ih =>
    exact notRedeclared_free.then fun _ hfree => ih.then fun rest hrest => goes_pure
      ⟨congrArg (n.name :: ·) hrest.1, forall_mem_cons.mpr ⟨Scope.free_of_not_declares hfree, hrest.2⟩⟩

theorem freshValues_names : Goes env Eq st (freshValues ty ps) fun fs _ =>
    (fs.map fun f => f.name.name) = ps.map (fun p => p.1.name) ∧ ∀ f ∈ fs, st.scope.Free f.name.name := by
  induction ps with
  | nil => exact goes_pure ⟨rfl, forall_mem_nil _⟩
  | cons p ps ih =>
    obtain ⟨n, pos, v⟩ := p
    refine notRedeclared_free.then fun _ hfree => ?_
    have hrest : ∀ first : Fresh, first.name = n → Goes env Eq st (do return first :: (← freshValues ty ps)) fun fs _ =>
        (fs.map fun f => f.name.name) = n.name :: ps.map (fun p => p.1.name) ∧ ∀ f ∈ fs, st.scope.Free f.name.name := by
      rintro first rfl
      exact ih.then fun rest hrest => goes_pure
        ⟨congrArg (first.name.name :: ·) hrest.1, forall_mem_cons.mpr ⟨Scope.free_of_not_declares hfree, hrest.2⟩⟩
    cases ty with
    | some t => exact goes_ruled.then fun e _ => hrest ⟨n, t, some e⟩ rfl
    | none => exact goes_ruled.then fun w _ => hrest ⟨n, w.ty, some w.expr⟩ rfl

theorem map_fst_zip_names (h : vs.length = ns.length) : (ns.zip vs).map (fun p => p.1.name) = ns.map Ident.name := by
  have hfst : ((ns.zip vs).map Prod.fst).map Ident.name = ns.map Ident.name := by rw [map_fst_zip h.ge]
  rwa [List.map_map] at hfst

theorem varSpec_steps :
    Goes env (Steps (·.addVars (spec.names.map Ident.name))) st (varSpec spec) fun _ _ => True := by
  refine declaredType?_stays.first fun ty st₁ _ _ => goes_ite_fail fun _ => ?_
  have hrest : ∀ (s₂ : State) (fs : List Fresh),
      (fs.map fun f => f.name.name) = spec.names.map Ident.name ∧ (∀ f ∈ fs, s₂.scope.Free f.name.name) →
      Goes env (Steps (·.addVars (spec.names.map Ident.name))) s₂
        (do emitAll (← declareFresh (1 < fs.length) fs)) fun _ _ => True :=
    fun s₂ fs hfs => hfs.1 ▸ (declareFresh_steps hfs.2).last fun _ _ => emitAll_stays
  split
  · exact freshZeros_names.then (hrest st₁)
  · split
    · next hns => exact hrest st₁ [] ⟨by rw [hns]; rfl, forall_mem_nil _⟩
    · exact notRedeclared_free.then fun _ _ => (goes_fail (Q := fun _ _ => False)).then fun _ h => h.elim
  · exact valuesFor_stays.first fun vs st₂ _ hlen => freshValues_names.then fun fs hfs =>
      hrest st₂ fs ⟨hfs.1.trans (map_fst_zip_names hlen), hfs.2⟩

def Defined.newName? : Defined → Option String
  | .new name _ _ => some name.name
  | .old _ _ _ => none

theorem declareDefined_steps (hfree : ∀ n ∈ ds.filterMap Defined.newName?, st.scope.Free n) :
    Goes env (Steps (·.addVars (ds.filterMap Defined.newName?))) st (declareDefined several ds) fun _ _ => True := by
  induction ds generalizing st with
  | nil => exact Goes.turns (g := id) (goes_pure trivial) (Roster.addVars_nil _).symm
  | cons d ds ih =>
    cases d with
    | new name t e =>
      have hcons : (Defined.new name t e :: ds).filterMap Defined.newName? =
          name.name :: ds.filterMap Defined.newName? := rfl
      rw [hcons] at hfree ⊢
      rw [forall_mem_cons] at hfree
      exact kept_steps.first fun _ _ _ hfree₁ => (declare_steps (fun _ => rfl) (hfree₁ _ hfree.1)).steps
        (fun _ _ _ hfree₂ => (ih fun n hn => hfree₂ n (hfree₁ n (hfree.2 n hn))).last fun _ _ => goes_pure trivial)
        (Roster.addVars_addVars _ _ (ds.filterMap Defined.newName?))
    | old i t e =>
      exact kept_steps.first fun _ _ _ hfree₁ => (ih fun n hn => hfree₁ n (hfree n hn)).last fun _ _ => goes_pure trivial

/-- What a definition declares is no variable of the scope yet, and nothing else there. -/
theorem definedTargets_names : Goes env (Steps id) st (definedTargets ps) fun ds _ =>
    (ds.filterMap Defined.newName?).filter isName =
      ((ps.map fun p => p.1.name).filter fun n => n ∉ st.scope.names.params ++ st.scope.names.vars).filter isName ∧
    ∀ n ∈ ds.filterMap Defined.newName?, isName n = true →
      n ∉ st.scope.names.params ++ st.scope.names.vars ∧ n ∉ st.scope.names.consts ++ st.scope.names.types := by
  induction ps generalizing st with
  | nil => exact goes_pure ⟨rfl, forall_mem_nil _⟩
  | cons p ps ih =>
    obtain ⟨name, pos, v⟩ := p
    refine goes_ite (fun hblank => ih.weaken fun ds _ _ h => ⟨h.1.trans ?_, h.2⟩) fun _ => goes_get_bind ?_
    · rw [List.filter_filter, List.filter_filter, map_cons, filter_cons_of_neg (by simp [hblank, isName])]
    cases hfind : st.scope.findVar? name.name with
    | some i =>
      have hred : Stays env st (redefined name i) := fun r st₁ hred => by
        have hlook : Looks st.scopes st₁.scopes := (redefined_lookup hfind hred).1 ▸ .use name.name .refl
        exact ⟨hlook.steps, trivial⟩
      refine hred.bind fun r st₁ hsteps _ => goes_ruled.then fun e _ => ih.bind fun rest _ _ h => goes_pure ?_
      have hsame : st₁.scope.names = st.scope.names := hsteps.scope.names
      rw [hsame] at h
      refine ⟨h.1.trans ?_, h.2⟩
      have hold : isName name.name = true → name.name ∈ st.scope.names.params ++ st.scope.names.vars := fun hn =>
        (Scope.mem_names_vars hn).mpr ((st.scope.findVar?_isSome _).mp (by rw [hfind]; rfl))
      rw [List.filter_filter, List.filter_filter, map_cons, filter_cons_of_neg]
      simpa [or_iff_not_imp_left] using hold
    | none =>
      refine notRedeclared_free.then fun _ hfree => goes_ruled.then fun w _ => ih.bind fun rest _ _ h => goes_pure ?_
      obtain ⟨hnames, hnew⟩ := h
      refine ⟨?_, forall_mem_cons.mpr ⟨fun hn => Scope.not_mem_names hn (hfree hn), hnew⟩⟩
      have hcons : (Defined.new name w.ty w.expr :: rest).filterMap Defined.newName? =
          name.name :: rest.filterMap Defined.newName? := rfl
      rw [List.filter_filter] at hnames ⊢
      rw [hcons, map_cons]
      by_cases hn : isName name.name = true
      · have hout := (Scope.not_mem_names hn (hfree hn)).1
        rw [filter_cons_of_pos hn, filter_cons_of_pos (by simpa [hn] using hout), hnames]
      · rw [filter_cons_of_neg hn, filter_cons_of_neg (by simp [hn]), hnames]

/-- **A definition.** -/
theorem define_steps : Goes env (Steps (·.define lhs)) st (define pos lhs rhs) fun _ _ => True
    := by
  refine Goes.then (fun _ _ h => definedNames_ok h) fun ns hns => ?_
  obtain ⟨rfl, -⟩ := hns
  refine valuesFor_stays.first fun vs st₁ _ hlen => goes_get_bind (goes_ite_fail fun _ => ?_)
  refine definedTargets_names.first fun ds st₂ h₂ hds => ?_
  have hsame : st₂.scope.names = st₁.scope.names := h₂.scope.names
  rw [map_fst_zip_names hlen, ← hsame] at hds
  refine ((declareDefined_steps fun n hn => Scope.free_of_not_mem (hds.2 n hn)).turns ?_).last fun _ _ => emitAll_stays
  rw [Roster.define, ← Roster.addVars_filter, hds.1, Roster.addVars_filter]

theorem declaredConst_still : Goes env Eq st (declaredConst spec e t v c) fun _ _ => True := by
  refine goes_ite_fail fun _ => goes_ite_fail fun _ => ?_
  dsimp only
  split
  · exact goes_pure trivial
  · exact goes_fail

theorem namedConsts_names {ps : List (Ident × Surface.Expr)} : Goes env (Steps id) st (namedConsts spec ty ps) fun cs _ =>
    (cs.map NamedConst.name).filter isName = (ps.map fun p => p.1.name).filter isName := by
  induction ps generalizing st with
  | nil => exact goes_pure rfl
  | cons p ps ih =>
    refine constValue_stays.bind fun r st₁ _ _ => ?_
    have hrest : ∀ named : NamedConst, named.name = p.1.name → Goes env (Steps id) st₁ (do
        let more ← namedConsts spec ty ps
        return if p.1.name = "_" then more else named :: more) fun cs _ =>
          (cs.map NamedConst.name).filter isName = (p.1.name :: ps.map fun p => p.1.name).filter isName := by
      refine fun named hname => ih.bind fun more _ _ hnames => goes_pure ?_
      by_cases hblank : p.1.name = "_"
      · rw [if_pos hblank, hnames, hblank]
        rfl
      · rw [if_neg hblank, map_cons, filter_cons, filter_cons, hnames, hname]
    cases ty with
    | some t => exact declaredConst_still.then fun c _ => hrest ⟨p.1.name, t, c⟩ rfl
    | none => exact hrest ⟨p.1.name, r.1.ty, r.2⟩ rfl

theorem constSpec_names : Goes env (Steps id) st (constSpec spec) fun cs _ =>
    (cs.map NamedConst.name).filter isName = (spec.names.map Ident.name).filter isName := by
  refine goes_ite_fail fun hlen => declaredType?_stays.bind fun _ _ _ _ => namedConsts_names.weaken fun cs _ _ h =>
    h.trans ?_
  rw [not_not] at hlen
  have hfst : ((spec.names.zip spec.values).map Prod.fst).map Ident.name = spec.names.map Ident.name := by
    rw [map_fst_zip hlen.le]
  rw [List.map_map] at hfst
  exact congrArg (filter isName) hfst

theorem declareConsts_steps {cs : List NamedConst} :
    Goes env (Steps (·.addConsts (cs.map NamedConst.name))) st (declareConsts pos cs) fun _ _ => True := by
  induction cs generalizing st with
  | nil => exact Goes.turns (g := id) (goes_pure trivial) (Roster.addConsts_nil _).symm
  | cons c cs ih =>
    refine notRedeclared_free.then fun _ hfree => ?_
    have hone : Goes env (Steps (·.addConsts [c.name])) st (declareConst c) fun _ _ => True := by
      intro u st₁ hdecl
      have hscope : ({ st.scope with consts := st.scope.consts ++ [c] } : Scope) = st.scope.add { consts := [c] } := by
        simp [Scope.add]
      obtain rfl := declareConst_ok hdecl
      rw [hscope]
      exact ⟨⟨⟨st.scope.names_add_const c, fun hs => hs.add_const hfree⟩, keep_refl _⟩, trivial⟩
    exact hone.steps (fun _ _ _ _ => ih) (Roster.addConsts_addConsts _ _ _)

theorem localSpec_steps : Goes env (Steps (·.spec kind s)) st (localSpec kind s) fun _ _ => True := by
  have hnone : Goes env (Steps id) st (pure ()) fun _ _ => True := goes_pure trivial
  cases kind with
  | const =>
    cases s with
    | value s =>
      refine constSpec_names.first fun cs _ _ hnames => declareConsts_steps.turns ?_
      dsimp only [Roster.spec]
      rw [← Roster.addConsts_filter, hnames, Roster.addConsts_filter]
    | path _ | type _ => exact hnone
  | type =>
    cases s with
    | type s =>
      have htype : Stays env st (typeOf s.ty) := typeOf_glances.imp (·.looks.steps) fun _ _ _ => id
      refine htype.first fun t st₁ _ _ => notRedeclared_free.then fun _ hfree => ?_
      intro u st' h
      have hscope : ({ st₁.scope with types := st₁.scope.types ++ [(s.name.name, t)] } : Scope) =
          st₁.scope.add { types := [(s.name.name, t)] } := by
        simp [Scope.add]
      obtain rfl := declareType_ok h
      rw [hscope]
      exact ⟨⟨⟨st₁.scope.names_add_type _ t, fun hs => hs.add_type hfree⟩, keep_refl _⟩, trivial⟩
    | path _ | value _ => exact hnone
  | var =>
    cases s with
    | value s => exact varSpec_steps
    | path _ | type _ => exact hnone
  | imports => cases s <;> exact hnone

/-! ## Blocks -/

/-- Every one of the scopes declares different names. -/
def AllDistinct (S : List (List Surface.Stmt)) : Prop := ∀ ss ∈ S, (blockNames ss).Nodup

theorem AllDistinct.append {T : List (List Surface.Stmt)} (h : AllDistinct S) (h' : AllDistinct T) :
    AllDistinct (S ++ T) :=
  forall_mem_append.mpr ⟨h, h'⟩

theorem Leaves.steps {inner : State} (h : Leaves st inner st') (houter : Keep st.scopes inner.outer) :
    Steps id st st' := by
  have hne : inner.outer ≠ [] := by
    intro hnil
    rw [hnil] at houter
    cases houter
  exact steps_of_keep ((h hne).1 ▸ houter)

/-- **A block declares different names.** It takes none of the scopes around. -/
theorem Closes.hygiene {inner : State} {b : Code.Block} {ss : List Surface.Stmt} (h : Closes st inner b st')
    (hb : Steps (·.stmts ss) st.inner inner ∧ AllDistinct (stmtsScopes ss)) :
    Steps id st st' ∧ AllDistinct (ss :: stmtsScopes ss) := by
  obtain ⟨hsteps, hS⟩ := hb
  refine ⟨h.leaves.steps hsteps.outer, forall_mem_cons.mpr ⟨?_, hS⟩⟩
  have hnames : inner.scope.names = ({} : Roster).stmts ss := hsteps.scope.names
  have hlocals := ((hsteps.scope.tidy (Scope.tidy_empty _)).nodup_locals h.unused).1
  rwa [hnames] at hlocals

theorem AllDistinct.other {other : Option Surface.Stmt} {alt : List Surface.Stmt}
    (halt : Surface.Stmt.branch? other = some alt) (h : AllDistinct (alt :: stmtsScopes alt)) :
    AllDistinct (optScopes other) := by
  rcases Surface.Stmt.eq_some_of_branch? halt with ⟨pos, rfl⟩ | ⟨s, rfl, rfl⟩
  · rw [optScopes, Surface.Stmt.scopes, Surface.Block.scopes]
    exact forall_mem_cons.mpr ⟨nodup_nil, h⟩
  · rwa [stmtsScopes, stmtsScopes, append_nil] at h

/-- The head of a loop declares no more than its counter. -/
theorem nodup_loopStart {r : String × Pos × Surface.Expr} (h : loopStart? init = some r) :
    (blockNames init.toList).Nodup := by
  unfold loopStart? at h
  split at h
  · next at₁ l first =>
    have hone : ((definedIdents [l]).map Ident.name).Nodup := by
      cases l with
      | ident at₂ name => exact nodup_singleton name
      | _ => exact nodup_nil
    have hnames : blockNames (some (.assign at₁ [l] .define [first]) : Option Surface.Stmt).toList =
        (((definedIdents [l]).map Ident.name).filter fun n => n ∉ ([] : List String)).filter isName := by
      simp [blockNames, Roster.stmts, Roster.stmt, Roster.define, Roster.addVars, Roster.locals]
    rw [hnames]
    exact (hone.filter _).filter _
  · cases h

/-! ## Statements -/

theorem Steps.emit (h : Steps f st st₁) (he : emit c env st₁ = .ok (u, st')) : Steps f st st' :=
  h.trans (emit_stays.ok he).1

theorem scopes_of_isSingle {s : Surface.Stmt} (hs : s.IsSingle) : s.scopes = [] := by
  cases s with
  | block _ | cond _ _ _ _ _ | loop _ _ _ _ _ => exact absurd hs id
  | _ => simp only [Surface.Stmt.scopes]

theorem single_steps (hs : s.IsSingle) (h : stmt inLoop s env st = .ok ((), st')) :
    Steps (·.stmt s) st st' := by
  cases s with
  | decl g =>
    obtain ⟨spec, hspec, hone⟩ := decl_single hs h
    exact (localSpec_steps.ok hone).1.congr (by simp [Roster.stmt, Roster.specs, hspec])
  | assign pos lhs op rhs =>
    cases op with
    | define => exact (define_steps.ok h).1
    | assign => exact (assign_stays.ok h).1
    | compound op => exact (compound_stays.ok h).1
  | empty pos => exact (pure_ok h).2 ▸ steps_refl st
  | step pos e up => exact (step_stays.ok h).1
  | expr pos e => exact (exprStmt_stays.ok h).1
  | ret pos es => exact (returnStmt_stays.ok h).1
  | branch pos kind label => exact (branchStmt_stays.ok h).1
  | block _ | cond _ _ _ _ _ | loop _ _ _ _ _ => exact absurd hs id
  | range _ _ | labeled _ _ | spawn _ _ | defer _ _ | send _ | switch _ | select _ => exact absurd h fail_ne_ok

theorem stmts_split (d : Roster) (g : Surface.Group) (rest : List Surface.Stmt) :
    d.stmts (g.split ++ rest) = d.stmts (.decl g :: rest) := by
  simp [Roster.stmts, Roster.stmt, Roster.specs, Surface.Group.split, foldl_map]

theorem stmtsScopes_split (g : Surface.Group) (rest : List Surface.Stmt) :
    stmtsScopes (g.split ++ rest) = stmtsScopes rest := by
  unfold Surface.Group.split
  induction g.specs with
  | nil => rfl
  | cons spec specs ih => simpa only [map_cons, cons_append, stmtsScopes, Surface.Stmt.scopes, nil_append]

/-- **Statements declare what their text says, and no block in them declares a name twice.** -/
theorem Derives.hygiene {S : List Surface.Stmt} (h : Derives env inLoop S st st') :
    Steps (·.stmts S) st st' ∧ AllDistinct (stmtsScopes S) := by
  induction h with
  | nil =>
    rw [stmtsScopes]
    exact ⟨steps_refl _, forall_mem_nil _⟩
  | single hs hrun _ ih =>
    rw [stmtsScopes, scopes_of_isSingle hs]
    exact ⟨(single_steps hs hrun).trans ih.1, ih.2⟩
  | group _ ih =>
    rw [stmtsScopes_split] at ih
    simp only [stmtsScopes, Surface.Stmt.scopes, nil_append]
    exact ⟨ih.1.congr (stmts_split _ _ _), ih.2⟩
  | block _ hclose hemit _ ihb ih =>
    obtain ⟨hsteps, hd⟩ := hclose.hygiene ihb
    rw [stmtsScopes, Surface.Stmt.scopes, Surface.Block.scopes]
    exact ⟨(hsteps.emit hemit).trans ih.1, hd.append ih.2⟩
  | cond hv _ halt _ hclose hemit _ ihb ih =>
    obtain ⟨hsteps, hd⟩ := hclose.hygiene ihb
    obtain rfl := Surface.Stmt.eq_none_of_branch? halt
    rw [stmtsScopes, Surface.Stmt.scopes, Surface.Block.scopes, optScopes, nil_append, append_nil]
    exact ⟨(((value_hoists.stays.ok hv).1.trans hsteps).emit hemit).trans ih.1, hd.append ih.2⟩
  | condElse hv _ halt _ hclose _ hclose₂ hemit _ ihb iha ih =>
    obtain ⟨hsteps, hd⟩ := hclose.hygiene ihb
    obtain ⟨hsteps₂, hd₂⟩ := hclose₂.hygiene iha
    rw [stmtsScopes, Surface.Stmt.scopes, Surface.Block.scopes, optScopes, nil_append]
    exact ⟨((((value_hoists.stays.ok hv).1.trans hsteps).trans hsteps₂).emit hemit).trans ih.1,
      (hd.append (hd₂.other halt)).append ih.2⟩
  | condInit _ hclose hemit _ ihb ih =>
    -- the condition by itself declares nothing
    obtain ⟨hsteps, hd⟩ := hclose.hygiene ihb
    simp only [stmtsScopes, Surface.Stmt.scopes, optScopes, nil_append, append_nil] at hd ⊢
    obtain ⟨hfirst, hd⟩ := forall_mem_cons.mp hd
    refine ⟨(hsteps.emit hemit).trans ih.1, AllDistinct.append ?_ ih.2⟩
    rw [append_assoc]
    exact forall_mem_cons.mpr ⟨hfirst, hd⟩
  | loop hhead hdecl _ hclose hleaves hemit _ ihb ih =>
    obtain ⟨hhead, q, hstart⟩ := loopHeader_stays.ok hhead
    obtain ⟨-, rfl⟩ := declare_ok hdecl
    obtain ⟨hsteps, hd⟩ := hclose.hygiene ihb
    rw [stmtsScopes, Surface.Stmt.scopes, Surface.Block.scopes]
    -- the scopes around the head are those around the body, but for the head itself
    exact ⟨((hhead.trans (hleaves.steps hsteps.outer)).emit hemit).trans ih.1,
      AllDistinct.append (forall_mem_cons.mpr ⟨nodup_loopStart hstart, hd⟩) ih.2⟩

/-! ## Bodies -/

section

variable {options : CompileOptions} {file : Surface.File} {g g' : Globals} {sig : Signature} {cs : List CheckedFunc}
  {p : Program} {all fs : List FuncDecl}

def Signature.names (sig : Signature) : List String := ((sig.ins ++ sig.outs).map Param.name).filter isName

theorem isParam_bodyScope (sig : Signature) (readOnly : Bool) :
    ∀ v ∈ (bodyScope sig readOnly).vars, v.isParam = true := by
  intro v hv
  rcases mem_append.mp hv with hv | hv
  · obtain ⟨p, -, rfl⟩ := List.mem_map.mp hv
    rfl
  · obtain ⟨p, -, rfl⟩ := List.mem_map.mp hv
    rfl

theorem names_bodyScope (sig : Signature) (readOnly : Bool) :
    (bodyScope sig readOnly).names = { params := sig.names } := by
  have hall := isParam_bodyScope sig readOnly
  have hparams : (bodyScope sig readOnly).vars.filter Variable.isParam = (bodyScope sig readOnly).vars :=
    filter_eq_self.mpr hall
  have hvars : (bodyScope sig readOnly).vars.filter (fun v => !v.isParam) = [] :=
    filter_eq_nil_iff.mpr fun v hv => by simp [hall v hv]
  rw [Scope.names, hparams, hvars]
  simp [bodyScope, Signature.names, Function.comp_def]

theorem tidy_bodyScope (sig : Signature) (readOnly : Bool) : (bodyScope sig readOnly).Tidy where
  covered := pairwise_of_forall_mem_list fun v hv w hw _ _ =>
    .inr ⟨isParam_bodyScope sig readOnly v hv, isParam_bodyScope sig readOnly w hw⟩
  nodup := nodup_nil
  apart := forall_mem_nil _

/-- **A body declares different names, none of them a parameter's or result's.** -/
theorem body_hygiene {kind : BodyKind} (h : body g kind sig d = .ok b) :
    (({ params := sig.names } : Roster).stmts (bodyStmts d)).locals.Nodup ∧
      sig.names.Disjoint (({ params := sig.names } : Roster).stmts (bodyStmts d)).locals ∧
      AllDistinct (stmtsScopes (bodyStmts d)) := by
  obtain ⟨⟨_, st⟩, hcheck, -⟩ := rule_bind_ok h
  obtain ⟨⟨⟩, st₁, hrun, hcheck⟩ := bind_ok hcheck
  replace hcheck := get_bind_ok hcheck
  obtain ⟨rfl, hunused⟩ := checkUnused_ok hcheck
  obtain ⟨hsteps, hdistinct⟩ := (stmts_derives (bodyStmts d) hrun).hygiene
  have hnames : st₁.scope.names = ({ params := sig.names } : Roster).stmts (bodyStmts d) := by
    rw [hsteps.scope.names, ← names_bodyScope sig (kind != .helper)]
  obtain ⟨hnodup, hdisjoint⟩ := (hsteps.scope.tidy (tidy_bodyScope _ _)).nodup_locals hunused
  rw [hnames] at hnodup hdisjoint
  rw [Roster.params_stmts] at hdisjoint
  exact ⟨hnodup, hdisjoint, hdistinct⟩

/-! ## Signatures -/

theorem params_names {ps : List Param} (hu : isName unnamed = false)
    (h : params g unnamed fields = .ok ps) :
    (ps.map Param.name).filter isName = (fields.flatMap fun field => field.names.map Ident.name).filter isName := by
  induction fields generalizing ps with
  | nil =>
    cases h
    rfl
  | cons field fields ih =>
    obtain ⟨t, -, h⟩ := rule_bind_ok h
    obtain ⟨more, hmore, h⟩ := rule_bind_ok h
    cases h
    rw [map_append, filter_append, ih hmore, flatMap_cons, filter_append]
    congr 1
    cases hn : field.names with
    | nil => simp [hu]
    | cons n ns => simp [Function.comp_def]

theorem signature_names (h : signature g d = .ok sig) : sig.names = d.signatureNames := by
  obtain ⟨ins, hins, h⟩ := rule_bind_ok h
  obtain ⟨outs, houts, h⟩ := rule_bind_ok h
  have hins := params_names rfl hins
  have houts := params_names rfl houts
  have hplain : ((ins ++ outs).map Param.name).filter isName = d.signatureNames := by
    rw [map_append, filter_append, hins, houts, FuncDecl.signatureNames, flatMap_append,
      filter_append]
  rcases outs with _ | ⟨p, _ | ⟨q, outs⟩⟩
  · cases h
    exact hplain
  · by_cases hret : isReturned g d.name.name p = true
    -- what is returned has no name
    · simp only [hret, if_true] at h
      cases h
      have hname : p.name = "" := by
        simp only [isReturned, Bool.and_eq_true, beq_iff_eq] at hret
        exact hret.1.1
      rw [← hplain]
      simp [Signature.names, hname, isName]
    · simp only [hret] at h
      cases h
      exact hplain
  · cases h
    exact hplain

theorem names_completeFragment (flow : List Ty) (sig : Signature) : (completeFragment flow sig).names = sig.names := by
  have hnone : ∀ ts : List Ty, ((ts.map fun t => (⟨"_", t, sig.pos⟩ : Param)).map Param.name).filter isName = [] := by
    intro ts
    refine filter_eq_nil_iff.mpr fun n hn => ?_
    obtain ⟨p, hp, rfl⟩ := List.mem_map.mp hn
    obtain ⟨t, -, rfl⟩ := List.mem_map.mp hp
    simp [isName]
  simp only [Signature.names, completeFragment, map_append, filter_append, hnone, append_nil]
  split
  · next hempty =>
    rw [List.isEmpty_iff.mp hempty]
    rfl
  · rfl

def Globals.Lists (g : Globals) (sig : Signature) : Prop :=
  g.vertex = some sig ∨ g.fragment = some sig ∨ sig ∈ g.funcs

def Signed (all : List FuncDecl) (g : Globals) : Prop :=
  ∀ sig, g.Lists sig → ∃ f ∈ all, sig.name = f.name.name ∧ sig.names = f.signatureNames

theorem addFunc_signed (hd : d ∈ all) (hl : Listed options all g) (hs : Signed all g) (h : addFunc g d = .ok g') :
    Signed all g' := by
  obtain ⟨-, new, hnew, hname, hcases⟩ := addFunc_cases hl h
  have hnew : ∃ f ∈ all, new.name = f.name.name ∧ new.names = f.signatureNames := ⟨d, hd, hname, signature_names hnew⟩
  intro sig hsig
  rcases hcases with ⟨-, rfl⟩ | ⟨-, -, rfl⟩ | ⟨-, -, rfl⟩
  · rcases hsig with hv | hf | hm
    · exact Option.some.inj hv ▸ hnew
    · exact hs sig (.inr (.inl hf))
    · exact hs sig (.inr (.inr hm))
  · rcases hsig with hv | hf | hm
    · exact hs sig (.inl hv)
    · exact Option.some.inj hf ▸ hnew
    · exact hs sig (.inr (.inr hm))
  · rcases hsig with hv | hf | hm
    · exact hs sig (.inl hv)
    · exact hs sig (.inr (.inl hf))
    · rcases mem_append.mp hm with hm | hm
      · exact hs sig (.inr (.inr hm))
      · exact mem_singleton.mp hm ▸ hnew

theorem fileGlobals_signed (h : fileGlobals options file = .ok g) : Signed (funcDecls file.decls) g := by
  obtain ⟨g₁, g₂, -, hbare, hfuncs, -, rfl⟩ := fileGlobals_cases h
  have hstart : Signed (funcDecls file.decls) (sortUniforms g₁) := by
    simp [Signed, Globals.Lists, hbare.vertex, hbare.fragment, hbare.funcs]
  obtain ⟨-, hsigned⟩ := addFuncs_induction (P := fun _ => Signed (funcDecls file.decls)) [] (fun f hf => hf)
    addFunc_signed (hbare.listed _) hstart hfuncs
  intro sig hsig
  rcases hsig with hv | hf | hm
  · exact hsigned sig (.inl hv)
  -- what the fragment entry point gets to its inputs has no name
  · obtain ⟨sig', hsig', rfl⟩ := Option.map_eq_some_iff.mp hf
    rw [names_completeFragment]
    exact hsigned sig' (.inr (.inl hsig'))
  · exact hsigned sig (.inr (.inr hm))

/-- **The scopes of a function.** Only its parameters and results can share a name. -/
theorem Assembly.distinct (h : Assembly options file g cs p) (hd : d ∈ funcDecls file.decls) :
    d.localNames.Nodup ∧ d.signatureNames.Disjoint d.localNames ∧ AllDistinct (stmtsScopes (bodyStmts d)) := by
  obtain ⟨b, -, sig, hmade⟩ := h.made hd
  obtain ⟨d', hd', hname, hnames⟩ := fileGlobals_signed h.globals sig hmade.listed
  obtain rfl := h.eq_of_name hd hd' (hmade.named.symm.trans hname)
  have hbody := body_hygiene hmade.run
  rw [hnames] at hbody
  exact hbody

/-! ## Files -/

/-- Names come to a file's declarations that it does not have, and no two of them are the same. -/
structure Adds (ns : List String) (g g' : Globals) : Prop where
  nodup : (ns.filter isName).Nodup
  fresh : ∀ n ∈ ns.filter isName, g.declares n = false
  declares : ∀ n, isName n = true → (g'.declares n = true ↔ g.declares n = true ∨ n ∈ ns.filter isName)

theorem adds_nil (g : Globals) : Adds [] g g := ⟨nodup_nil, forall_mem_nil _, by simp⟩

theorem Adds.append {ns ms : List String} (h : Adds ns g g₁) (h' : Adds ms g₁ g') :
    Adds (ns ++ ms) g g' := by
  have hlater : ∀ n ∈ ms.filter isName, g.declares n = false ∧ n ∉ ns.filter isName := by
    intro n hn
    have hnot := h'.fresh n hn
    have hiff := h.declares n (mem_filter.mp hn).2
    rw [hnot] at hiff
    simpa using hiff
  constructor
  · rw [filter_append]
    exact h.nodup.append h'.nodup fun n hn hm => (hlater n hm).2 hn
  · rw [filter_append]
    exact forall_mem_append.mpr ⟨h.fresh, fun n hn => (hlater n hn).1⟩
  · intro n hn
    rw [h'.declares n hn, h.declares n hn, filter_append, mem_append, or_assoc]

theorem adds_one {n : String} (hn : g.declares n = false)
    (hg' : ∀ m, g'.declares m = true ↔ g.declares m = true ∨ n = m) : Adds [n] g g' := by
  refine ⟨(nodup_singleton n).filter _, fun m hm => ?_, fun m hm => ?_⟩
  · rw [mem_singleton.mp (mem_filter.mp hm).1]
    exact hn
  · rw [hg' m, mem_filter, mem_singleton, and_iff_left hm, @eq_comm _ n m]

theorem Adds.congr {ns ms : List String} (h : Adds ns g g') (hns : ns.filter isName = ms.filter isName) :
    Adds ms g g' :=
  ⟨hns ▸ h.nodup, hns ▸ h.fresh, hns ▸ h.declares⟩

theorem addUniforms_names {t : Ty} {ns : List Ident} (h : addUniforms g t ns = .ok g') :
    Adds (ns.map Ident.name) g g' := by
  induction ns generalizing g with
  | nil =>
    obtain rfl := ok.inj h
    exact adds_nil g
  | cons n ns ih =>
    obtain ⟨-, h⟩ := ite_complain_ok h
    obtain ⟨hnew, h⟩ := ite_complain_ok h
    refine (adds_one (by simpa using hnew) fun m => ?_).append (ih h)
    simp [Globals.declares, or_assoc]

theorem addConsts_names {cs : List NamedConst} (h : addConsts g pos cs = .ok g') :
    Adds (cs.map NamedConst.name) g g' := by
  induction cs generalizing g with
  | nil =>
    obtain rfl := ok.inj h
    exact adds_nil g
  | cons c cs ih =>
    obtain ⟨hnew, h⟩ := ite_complain_ok h
    refine (adds_one (by simpa using hnew) fun m => ?_).append (ih h)
    simp only [Globals.declares, any_append, any_cons, any_nil, Bool.or_eq_true, beq_iff_eq,
      Bool.or_false]
    tauto

theorem Brings.names (h : Brings g s g') : Adds (Surface.Spec.names s) g g' := by
  cases h with
  | uniforms _ _ h => exact addUniforms_names h
  | consts hcs h =>
    obtain ⟨st, hcs⟩ := atTop_ok hcs
    exact (addConsts_names h).congr (constSpec_names.ok hcs).2
  | type _ hnew =>
    refine adds_one hnew fun m => ?_
    simp only [Globals.declares, any_append, any_cons, any_nil, Bool.or_eq_true, beq_iff_eq,
      Bool.or_false]
    tauto
  | idle hidle =>
    have hnone : Surface.Spec.names s = [] := by
      unfold Surface.Spec.names
      split
      · exact hidle.elim
      · exact hidle.elim
      · exact hidle.elim
      · rfl
    rw [hnone]
    exact adds_nil g

theorem addGroups_names {ds : List Decl} (h : addGroups g ds = .ok g') :
    Adds ((globalSpecs ds).flatMap Surface.Spec.names) g g' := by
  replace h := addGroups_specs h
  generalize globalSpecs ds = specs at h ⊢
  induction specs generalizing g with
  | nil =>
    obtain rfl := ok.inj h
    exact adds_nil g
  | cons d ds ih =>
    rw [foldlM_cons] at h
    obtain ⟨g₁, hd, h⟩ := rule_bind_ok h
    exact (addSpec_brings hd).names.append (ih h)

theorem declares_sortUniforms (g : Globals) (name : String) : (sortUniforms g).declares name = g.declares name := by
  have hperm : (sortUniforms g).uniforms.Perm g.uniforms := filter_append_perm _ _
  have hany : (sortUniforms g).uniforms.any (·.1 == name) = g.uniforms.any (·.1 == name) := hperm.any_eq
  simp only [Globals.declares, hany]
  rfl

/-- **No name is declared twice outside functions.** -/
theorem Assembly.nodup_names (h : Assembly options file g cs p) : file.names.Nodup := by
  obtain ⟨g₁, g₂, hgroups, hbare, hfuncs, -⟩ := fileGlobals_cases h.globals
  have hadds := addGroups_names hgroups
  obtain ⟨hnodup, hnew⟩ := addFuncs_names (fun f hf => hf) (hbare.listed _) hfuncs
  rw [Surface.File.names, filter_append]
  refine hadds.nodup.append (hnodup.filter _) fun n hspec hfunc => ?_
  obtain ⟨hfunc, hn⟩ := mem_filter.mp hfunc
  obtain ⟨f, hf, rfl⟩ := List.mem_map.mp hfunc
  have hnot := (hnew f hf).2
  rw [declares_sortUniforms, (hadds.declares _ hn).mpr (.inr hspec)] at hnot
  cases hnot

end

end Check

open Check
open Surface (File blockNames stmtsScopes)

/-- **No two declarations in one scope share a name**: not outside functions, not in the scope of a function's parameters
and results, and not in a block. -/
structure Surface.File.Hygienic (file : File) : Prop where
  top : file.names.Nodup
  bodies : ∀ f ∈ funcDecls file.decls, (f.signatureNames ++ f.localNames).Nodup
  blocks : ∀ f ∈ funcDecls file.decls, ∀ ss ∈ stmtsScopes (bodyStmts f), (blockNames ss).Nodup

/-- No two declarations in one scope share a name, if they are not two parameters or results of a function. -/
structure Surface.File.NearlyHygienic (file : File) : Prop where
  top : file.names.Nodup
  locals : ∀ f ∈ funcDecls file.decls, f.localNames.Nodup
  apart : ∀ f ∈ funcDecls file.decls, f.signatureNames.Disjoint f.localNames
  blocks : ∀ f ∈ funcDecls file.decls, ∀ ss ∈ stmtsScopes (bodyStmts f), (blockNames ss).Nodup

theorem Surface.File.NearlyHygienic.hygienic_iff {file : File} (h : file.NearlyHygienic) :
    file.Hygienic ↔ ∀ f ∈ funcDecls file.decls, f.signatureNames.Nodup := by
  constructor
  · intro hall f hf
    exact (nodup_append.mp (hall.bodies f hf)).1
  · intro hsig
    exact ⟨h.top, fun f hf => (hsig f hf).append (h.locals f hf) (h.apart f hf), h.blocks⟩

/-- **Scopes of accepted sources have no double names.** A source is rejected, or no two declarations in one of its scopes
share a name, those of two parameters or results of a function apart. With these it is hygienic if and only if no function
has two parameters or results of one name. -/
theorem sources_hygienic (options : CompileOptions) {source : String} {file : File}
    (hfile : File.ofSource source = .ok file) :
    (∃ e, compile options source = .error e) ∨ file.NearlyHygienic ∧
      (file.Hygienic ↔ ∀ f ∈ funcDecls file.decls, f.signatureNames.Nodup) := by
  cases hcompile : compile options source with
  | error e => exact .inl ⟨e, rfl⟩
  | ok p =>
    obtain ⟨file', g, cs, hfile', hassembly⟩ := compile_assembly hcompile
    obtain rfl := Except.ok.inj (hfile.symm.trans hfile')
    have hnear : file.NearlyHygienic :=
      ⟨hassembly.nodup_names, fun f hf => (hassembly.distinct hf).1, fun f hf => (hassembly.distinct hf).2.1,
        fun f hf => (hassembly.distinct hf).2.2⟩
    exact .inr ⟨hnear, hnear.hygienic_iff⟩

/-- Names that come again in inner scopes, and one that is defined anew beside a new one. -/
def layeredSample : String := "package main
func f(p vec2) (q float) {
	const k = 0.5
	a, b := p.x, p.y
	if a := b; a < k {
		b = a
	}
	a, c := b, a
	return a + c
}
"

set_option maxRecDepth 2000 in
theorem layeredSample_hygienic : ∃ p, compile {} layeredSample = .ok p ∧
    ∃ file, File.ofSource layeredSample = .ok file ∧
      (∃ f ∈ funcDecls file.decls, f.signatureNames = ["p", "q"] ∧ f.localNames = ["a", "b", "c", "k"]) ∧
      file.Hygienic := by
  obtain ⟨p, hp, -⟩ : ∃ p, compile {} layeredSample = .ok p ∧ True := exists_compile (by decide +kernel)
  obtain ⟨file, hfile, hnames, hsigs⟩ : ∃ file, File.ofSource layeredSample = .ok file ∧
      (∃ f ∈ funcDecls file.decls, f.signatureNames = ["p", "q"] ∧ f.localNames = ["a", "b", "c", "k"]) ∧
      ∀ f ∈ funcDecls file.decls, f.signatureNames.Nodup := File.exists_ofSource (by decide +kernel)
  refine ⟨p, hp, file, hfile, hnames, ?_⟩
  rcases sources_hygienic {} hfile with ⟨e, he⟩ | ⟨-, hiff⟩
  · rw [hp] at he
    cases he
  · exact hiff.mpr hsigs

/-- Two parameters of one name. -/
def twinSample : String := "package main
func f(a float, a float) float {
	return a
}
"

/-- **Not every accepted source is hygienic.** -/
theorem twinSample_not_hygienic : ∃ p, compile {} twinSample = .ok p ∧
    ∃ file, File.ofSource twinSample = .ok file ∧ ¬file.Hygienic := by
  obtain ⟨p, hp, -⟩ : ∃ p, compile {} twinSample = .ok p ∧ True := exists_compile (by decide +kernel)
  obtain ⟨file, hfile, f, hf, hq⟩ : ∃ file, File.ofSource twinSample = .ok file ∧
      ∃ f ∈ funcDecls file.decls, ¬f.signatureNames.Nodup := File.exists_ofSource (by decide +kernel)
  exact ⟨p, hp, file, hfile, fun hall => hq (List.nodup_append.mp (hall.bodies f hf)).1⟩

end GameMedia.Shader
