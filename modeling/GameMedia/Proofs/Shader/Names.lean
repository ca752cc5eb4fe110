import GameMedia.Proofs.Shader.Hoisting
import GameMedia.Proofs.Shader.Programs

/-!
# The names of a scope

What the source declares in a scope can be read off its statements: declarations name variables, constants and types, and
a definition names those on its left that are no variables of the scope yet. The checker keeps the same names in the
scopes it has open.

A scope is tidy if no constant and no type has the name of anything else in it, and if a variable is unused that has the
name of a later one. It stays tidy: a mark goes to the last variable of a name, and only variables of one statement come
in without a look at each other. Where nothing is left unused the names are different.
-/

namespace GameMedia.Shader

open List

namespace Surface

open Check (bodyStmts definedIdents funcDecls globalSpecs)

/-! ## In the source -/

/-- Whether a name is more than the blank one. What has no name at all has the empty one. -/
def isName (name : String) : Bool := name != "" && name != "_"

/-- The names that a scope declares. -/
structure Roster where
  /-- Of parameters and results. -/
  params : List String := []
  vars : List String := []
  consts : List String := []
  types : List String := []

namespace Roster

/-- All names but those of parameters and results. -/
def locals (d : Roster) : List String := d.vars ++ d.consts ++ d.types

def addVars (d : Roster) (ns : List String) : Roster := { d with vars := d.vars ++ ns.filter isName }

def addConsts (d : Roster) (ns : List String) : Roster := { d with consts := d.consts ++ ns.filter isName }

def addTypes (d : Roster) (ns : List String) : Roster := { d with types := d.types ++ ns.filter isName }

def spec (d : Roster) : GroupKind → Spec → Roster
  | .var, .value s => d.addVars (s.names.map Ident.name)
  | .const, .value s => d.addConsts (s.names.map Ident.name)
  | .type, .type s => d.addTypes [s.name.name]
  | _, _ => d

def specs (d : Roster) (kind : GroupKind) (ss : List Spec) : Roster := ss.foldl (fun d s => d.spec kind s) d

/-- The names after a definition. It declares what is no variable of the scope yet. -/
def define (d : Roster) (lhs : List Expr) : Roster :=
  d.addVars (((definedIdents lhs).map Ident.name).filter fun n => n ∉ d.params ++ d.vars)

/-- The names after a statement. What a block in it declares is not among them. -/
def stmt (d : Roster) : Stmt → Roster
  | .decl g => d.specs g.kind g.specs
  | .assign _ lhs .define _ => d.define lhs
  | _ => d

def stmts (d : Roster) (ss : List Stmt) : Roster := ss.foldl stmt d

@[simp] theorem addVars_nil (d : Roster) : d.addVars [] = d := by simp [addVars]

@[simp] theorem addConsts_nil (d : Roster) : d.addConsts [] = d := by simp [addConsts]

theorem addVars_addVars (d : Roster) (ns ms : List String) : (d.addVars ns).addVars ms = d.addVars (ns ++ ms) := by
  simp [addVars]

theorem addConsts_addConsts (d : Roster) (ns ms : List String) :
    (d.addConsts ns).addConsts ms = d.addConsts (ns ++ ms) := by
  simp [addConsts]

theorem params_stmts (d : Roster) (ss : List Stmt) : (d.stmts ss).params = d.params := by
  have hspec : ∀ (d : Roster) kind s, (d.spec kind s).params = d.params := by
    intro d kind s
    unfold spec
    split <;> rfl
  have hspecs : ∀ kind (ss : List Spec) (d : Roster), (d.specs kind ss).params = d.params := by
    intro kind ss
    induction ss with
    | nil => exact fun _ => rfl
    | cons s ss ih => exact fun d => (ih _).trans (hspec d kind s)
  induction ss generalizing d with
  | nil => rfl
  | cons s ss ih =>
    refine (ih _).trans ?_
    unfold stmt
    split
    · exact hspecs _ _ d
    · rfl
    · rfl

theorem addVars_filter (d : Roster) (ns : List String) : d.addVars (ns.filter isName) = d.addVars ns := by simp [addVars]

theorem addConsts_filter (d : Roster) (ns : List String) : d.addConsts (ns.filter isName) = d.addConsts ns := by
  simp [addConsts]

end Roster

/-- The names that statements declare in a scope of their own. -/
def blockNames (ss : List Stmt) : List String := (({} : Roster).stmts ss).locals

mutual

/-- The scopes that a statement opens, each as the statements that stand directly in it. Heads of conditions and loops are
scopes of their own. -/
def Stmt.scopes : Stmt → List (List Stmt)
  | .block b => b.scopes
  | .cond _ init _ body other => optScopes init ++ body.scopes ++ optScopes other
  | .loop _ init _ _ body => init.toList :: body.scopes
  | _ => []

def optScopes : Option Stmt → List (List Stmt)
  | none => []
  | some s => [s] :: s.scopes

def Block.scopes : Block → List (List Stmt)
  | .mk _ ss => ss :: stmtsScopes ss

def stmtsScopes : List Stmt → List (List Stmt)
  | [] => []
  | s :: ss => s.scopes ++ stmtsScopes ss

end

def FuncDecl.signatureNames (f : FuncDecl) : List String :=
  ((f.params ++ f.results).flatMap fun field => field.names.map Ident.name).filter isName

def FuncDecl.localNames (f : FuncDecl) : List String :=
  (({ params := f.signatureNames } : Roster).stmts (bodyStmts f)).locals

/-- The names of a declaration outside functions. -/
def Spec.names : GroupKind × Spec → List String
  | (.var, .value s) | (.const, .value s) => s.names.map Ident.name
  | (.type, .type s) => [s.name.name]
  | _ => []

/-- The names that a file declares outside functions: uniforms, constants, types and functions. -/
def File.names (file : File) : List String :=
  ((globalSpecs file.decls).flatMap Spec.names ++ (funcDecls file.decls).map fun f => f.name.name).filter isName

end Surface

namespace Check

open Surface (Roster isName)

variable {s : Scope}

/-! ## In the checker -/

def Variable.isParam (v : Variable) : Bool :=
  match v.role with
  | .param _ => true
  | _ => false

@[simp] theorem Variable.unmarked_isParam (v : Variable) : v.unmarked.isParam = v.isParam := by
  obtain ⟨name, ty, pos, role⟩ := v
  cases role <;> rfl

def Variable.used (v : Variable) : Variable :=
  match v.role with
  | .declared _ => { v with role := .declared true }
  | _ => v

theorem Variable.used_name (v : Variable) : v.used.name = v.name := by
  unfold used
  split <;> rfl

theorem Variable.used_isParam (v : Variable) : v.used.isParam = v.isParam := by
  obtain ⟨name, ty, pos, role⟩ := v
  cases role <;> rfl

theorem Scope.markUsed_vars (s : Scope) (i : Nat) : (s.markUsed i).vars = s.vars.modify i Variable.used := rfl

def Scope.names (s : Scope) : Roster where
  params := ((s.vars.filter Variable.isParam).map Variable.name).filter isName
  vars := ((s.vars.filter fun v => !v.isParam).map Variable.name).filter isName
  consts := (s.consts.map NamedConst.name).filter isName
  types := (s.types.map Prod.fst).filter isName

namespace Scope

variable {s : Scope} {n : String}

theorem unmarked_names (s : Scope) : s.unmarked.names = s.names := by
  simp [names, unmarked, List.filter_map, Function.comp_def]

theorem names_markUsed (s : Scope) (i : Nat) : (s.markUsed i).names = s.names := by
  rw [← unmarked_names, unmarked_markUsed, unmarked_names]

theorem mem_names_vars (hn : isName n = true) :
    n ∈ s.names.params ++ s.names.vars ↔ ∃ v ∈ s.vars, v.name = n := by
  simp only [names, mem_append, mem_filter, List.mem_map, hn, and_true]
  constructor
  · rintro (⟨v, ⟨hv, -⟩, rfl⟩ | ⟨v, ⟨hv, -⟩, rfl⟩) <;> exact ⟨v, hv, rfl⟩
  · rintro ⟨v, hv, rfl⟩
    cases hp : v.isParam with
    | true => exact .inl ⟨v, ⟨hv, hp⟩, rfl⟩
    | false => exact .inr ⟨v, ⟨hv, by rw [hp]; rfl⟩, rfl⟩

theorem not_mem_names (hn : isName n = true) (h : s.declares n = false) :
    n ∉ s.names.params ++ s.names.vars ∧ n ∉ s.names.consts ++ s.names.types := by
  simp only [declares, Bool.or_eq_false_iff, List.any_eq_false, beq_iff_eq] at h
  obtain ⟨⟨hvars, hconsts⟩, htypes⟩ := h
  refine ⟨fun hmem => ?_, fun hmem => ?_⟩
  · obtain ⟨v, hv, heq⟩ := (mem_names_vars hn).mp hmem
    exact hvars v hv heq
  · rcases mem_append.mp hmem with hmem | hmem
    · obtain ⟨c, hc, heq⟩ := List.mem_map.mp (mem_filter.mp hmem).1
      exact hconsts c hc heq
    · obtain ⟨t, ht, heq⟩ := List.mem_map.mp (mem_filter.mp hmem).1
      exact htypes t ht heq

theorem findVar?_isSome (s : Scope) (n : String) : (s.findVar? n).isSome = true ↔ ∃ v ∈ s.vars, v.name = n := by
  obtain ⟨base, vars, consts, types, count⟩ := s
  induction vars using reverseRecOn with
  | nil => simp [findVar?]
  | append_singleton vars v ih =>
    rw [findVar?_concat { base, vars, consts, types, paramCount := count }]
    by_cases hv : v.name = n
    · rw [if_pos hv]
      exact ⟨fun _ => ⟨v, by simp, hv⟩, fun _ => rfl⟩
    · rw [if_neg hv, ih]
      simp [or_and_right, exists_or, hv]

/-- No variable of the name comes after the one that is found. -/
theorem findVar?_last (h : s.findVar? n = some k) (hj : k < j) (hv : s.vars[j]? = some v) : v.name ≠ n := by
  obtain ⟨base, vars, consts, types, count⟩ := s
  induction vars using reverseRecOn with
  | nil => cases hv
  | append_singleton vars w ih =>
    rw [findVar?_concat { base, vars, consts, types, paramCount := count }] at h
    have hlt : j < vars.length + 1 := by simpa using (List.getElem?_eq_some_iff.mp hv).1
    split at h
    · have := Option.some.inj h
      omega
    · next hw =>
      rcases Nat.lt_succ_iff_lt_or_eq.mp hlt with hlt | rfl
      · exact ih h (List.getElem?_append_left hlt ▸ hv)
      · rw [List.getElem?_append_right le_rfl, Nat.sub_self] at hv
        exact Option.some.inj hv ▸ hw

end Scope

/-! ## Tidy scopes -/

/-- Of two variables with one name the first is unused, parameters and results apart. -/
def Shadowed (v w : Variable) : Prop :=
  isName v.name = true → v.name = w.name → v.role = .declared false ∨ (v.isParam = true ∧ w.isParam = true)

def SharedByParams (v w : Variable) : Prop :=
  isName v.name = true → v.name = w.name → v.isParam = true ∧ w.isParam = true

instance : Std.Symm SharedByParams := ⟨fun _ _ h hn heq => (h (heq ▸ hn) heq.symm).symm⟩

structure Scope.Tidy (s : Scope) : Prop where
  covered : s.vars.Pairwise Shadowed
  nodup : (s.names.consts ++ s.names.types).Nodup
  apart : ∀ n ∈ s.names.consts ++ s.names.types, n ∉ s.names.params ++ s.names.vars

/-- A name that a variable can have: what has it already is an unused variable. -/
def Scope.Free (s : Scope) (n : String) : Prop :=
  isName n = true → (∀ v ∈ s.vars, v.name = n → v.role = .declared false) ∧ n ∉ s.names.consts ++ s.names.types

/-- A variable that can come into a scope: one of the source that is not used yet, or one without a name. -/
def Variable.IsNew (v : Variable) : Prop := isName v.name = true → v.role = .declared false

namespace Scope

variable {s : Scope} {n : String} {v : Variable}

theorem tidy_empty (base : Nat) : Tidy { base } := ⟨.nil, .nil, forall_mem_nil _⟩

theorem free_of_not_mem (h : isName n = true →
    n ∉ s.names.params ++ s.names.vars ∧ n ∉ s.names.consts ++ s.names.types) : s.Free n := by
  intro hn
  obtain ⟨hvars, hothers⟩ := h hn
  exact ⟨fun v hv heq => absurd ((mem_names_vars hn).mpr ⟨v, hv, heq⟩) hvars, hothers⟩

theorem free_of_not_declares (h : isName n = true → s.declares n = false) : s.Free n :=
  free_of_not_mem fun hn => not_mem_names hn (h hn)

theorem names_add_var (hv : v.IsNew) : (s.add { vars := [v] }).names = s.names.addVars [v.name] := by
  by_cases hn : isName v.name = true
  · have hp : v.isParam = false := by rw [Variable.isParam, hv hn]
    simp [names, Scope.add, Roster.addVars, hp]
  · rw [Bool.not_eq_true] at hn
    cases hp : v.isParam <;> simp [names, Scope.add, Roster.addVars, hp, hn]

theorem Free.add_var (hv : v.IsNew) (h : s.Free n) : (s.add { vars := [v] }).Free n := by
  intro hn
  obtain ⟨hvars, hothers⟩ := h hn
  refine ⟨forall_mem_append.mpr ⟨hvars, forall_mem_singleton.mpr fun heq => hv (heq ▸ hn)⟩, ?_⟩
  rw [names_add_var hv]
  exact hothers

theorem Tidy.add_var (hv : v.IsNew) (hfree : s.Free v.name) (h : s.Tidy) : (s.add { vars := [v] }).Tidy where
  covered := by
    refine pairwise_append.mpr ⟨h.covered, pairwise_singleton _ _, fun w hw u hu hn heq => ?_⟩
    obtain rfl := mem_singleton.mp hu
    exact .inl ((hfree (heq ▸ hn)).1 w hw heq)
  nodup := by
    rw [names_add_var hv]
    exact h.nodup
  apart := by
    rw [names_add_var hv]
    intro n hn hmem
    rcases mem_append.mp hmem with hmem | hmem
    · exact h.apart n hn (mem_append_left _ hmem)
    · rcases mem_append.mp hmem with hmem | hmem
      · exact h.apart n hn (mem_append_right _ hmem)
      · obtain ⟨hmem, hname⟩ := mem_filter.mp hmem
        obtain rfl := mem_singleton.mp hmem
        exact (hfree hname).2 hn

theorem Tidy.markUsed (hi : s.findVar? n = some i) (h : s.Tidy) : (s.markUsed i).Tidy where
  covered := by
    refine pairwise_iff_getElem.mpr fun j k hj hk hjk => ?_
    simp only [markUsed_vars, length_modify] at hj hk
    have hold := pairwise_iff_getElem.mp h.covered j k hj hk hjk
    simp only [markUsed_vars, getElem_modify]
    by_cases hij : i = j
    -- the variable that is marked is the last of its name
    · subst hij
      rw [if_pos rfl, if_neg (Nat.ne_of_lt hjk)]
      intro hn heq
      rw [Variable.used_name, findVar?_name hi (List.getElem?_eq_getElem hj)] at heq
      exact absurd heq.symm (findVar?_last hi hjk (List.getElem?_eq_getElem hk))
    · rw [if_neg hij]
      by_cases hik : i = k
      · subst hik
        rw [if_pos rfl]
        intro hn heq
        rw [Variable.used_name] at heq
        rw [Variable.used_isParam]
        exact hold hn heq
      · rw [if_neg hik]
        exact hold
  nodup := by
    rw [names_markUsed]
    exact h.nodup
  apart := by
    rw [names_markUsed]
    exact h.apart

/-- A constant or a type comes in whose name nothing has. -/
theorem Tidy.add_other {s' : Scope} (hn : isName n = true → s.declares n = false) (hvars : s'.vars = s.vars)
    (hothers : (s'.names.consts ++ s'.names.types).Perm ([n].filter isName ++ (s.names.consts ++ s.names.types)))
    (h : s.Tidy) : s'.Tidy := by
  have hsame : s'.names.params ++ s'.names.vars = s.names.params ++ s.names.vars := by simp [names, hvars]
  have hnew : ∀ m ∈ [n].filter isName,
      m ∉ s.names.params ++ s.names.vars ∧ m ∉ s.names.consts ++ s.names.types := by
    intro m hm
    obtain ⟨hm, hname⟩ := mem_filter.mp hm
    obtain rfl := mem_singleton.mp hm
    exact not_mem_names hname (hn hname)
  refine ⟨hvars ▸ h.covered, hothers.nodup_iff.mpr ?_, fun m hm => ?_⟩
  · exact ((nodup_singleton n).filter _).append h.nodup fun m hm hold => (hnew m hm).2 hold
  · rw [hsame]
    rcases mem_append.mp (hothers.mem_iff.mp hm) with hm | hm
    · exact (hnew m hm).1
    · exact h.apart m hm

theorem names_add_const (s : Scope) (c : NamedConst) : (s.add { consts := [c] }).names = s.names.addConsts [c.name] := by
  simp [names, Scope.add, Roster.addConsts]

theorem names_add_type (s : Scope) (n : String) (t : Ty) : (s.add { types := [(n, t)] }).names = s.names.addTypes [n] := by
  simp [names, Scope.add, Roster.addTypes]

theorem Tidy.add_const (hc : isName c.name = true → s.declares c.name = false) (h : s.Tidy) :
    (s.add { consts := [c] }).Tidy := by
  refine h.add_other hc (append_nil _) ?_
  rw [names_add_const, ← append_assoc]
  exact perm_append_comm.append_right _

theorem Tidy.add_type (hn : isName n = true → s.declares n = false) (h : s.Tidy) :
    (s.add { types := [(n, t)] }).Tidy := by
  refine h.add_other hn (append_nil _) ?_
  rw [names_add_type, Roster.addTypes, ← append_assoc]
  exact perm_append_comm

/-- **Where nothing is unused, names are different.** -/
theorem Tidy.nodup_locals (h : s.Tidy) (hused : s.unused = []) :
    s.names.locals.Nodup ∧ s.names.params.Disjoint s.names.locals := by
  have hrole : ∀ v ∈ s.vars, isName v.name = true → v.role ≠ .declared false := by
    intro v hv hn hrole
    have hnot := filter_eq_nil_iff.mp hused v hv
    simp only [isName, Bool.and_eq_true] at hn
    simp [hrole, hn] at hnot
  -- so two variables with one name can only be parameters
  have hpair : s.vars.Pairwise SharedByParams := by
    refine h.covered.imp_of_mem fun hv _ hcovers hn heq => ?_
    exact (hcovers hn heq).resolve_left (hrole _ hv hn)
  have hvars : s.names.vars.Nodup := by
    show (((s.vars.filter fun v => !v.isParam).map Variable.name).filter isName).Pairwise (· ≠ ·)
    rw [List.filter_map, pairwise_map, pairwise_filter, pairwise_filter]
    refine hpair.imp fun hboth hv _ hn _ heq => ?_
    rw [(hboth hn heq).1] at hv
    cases hv
  have hparams : s.names.params.Disjoint s.names.vars := by
    intro n hp hv
    obtain ⟨hp, hn⟩ := mem_filter.mp hp
    obtain ⟨v, hv', rfl⟩ := List.mem_map.mp hp
    obtain ⟨w, hw, heq⟩ := List.mem_map.mp (mem_filter.mp hv).1
    obtain ⟨hvmem, hvp⟩ := mem_filter.mp hv'
    obtain ⟨hwmem, hwp⟩ := mem_filter.mp hw
    have hne : v ≠ w := by
      rintro rfl
      simp [hvp] at hwp
    have hboth := hpair.forall hvmem hwmem hne hn heq.symm
    simp [hboth.2] at hwp
  rw [Roster.locals, append_assoc]
  refine ⟨hvars.append h.nodup fun n hv hother => ?_, fun n hp hmem => ?_⟩
  · exact h.apart n hother (mem_append_right _ hv)
  · rcases mem_append.mp hmem with hmem | hmem
    · exact hparams hp hmem
    · exact h.apart n hmem (mem_append_left _ hp)

end Scope

/-! ## Steps -/

/-- What becomes of a scope: it gets names, and it stays tidy. -/
structure Turns (f : Roster → Roster) (s s' : Scope) : Prop where
  names : s'.names = f s.names
  tidy : s.Tidy → s'.Tidy

theorem turns_refl (s : Scope) : Turns id s s := ⟨rfl, id⟩

theorem Turns.trans (h : Turns f s s₁) (h' : Turns g s₁ s') : Turns (fun d => g (f d)) s s' :=
  ⟨by rw [h'.names, h.names], fun hs => h'.tidy (h.tidy hs)⟩

def Keep (ss ss' : List Scope) : Prop := List.Forall₂ (Turns id) ss ss'

theorem keep_refl (ss : List Scope) : Keep ss ss := by
  induction ss with
  | nil => exact .nil
  | cons s ss ih => exact .cons (turns_refl s) ih

theorem Keep.trans (h : Keep ss ss₁) (h' : Keep ss₁ ss') : Keep ss ss' := by
  induction h generalizing ss' with
  | nil => exact h'
  | cons hs _ ih =>
    cases h' with
    | cons hs' hss' => exact .cons (hs.trans hs') (ih hss')

theorem keep_useVar (name : String) (ss : List Scope) : Keep ss (useVar name ss) := by
  induction ss with
  | nil => exact .nil
  | cons s ss ih =>
    unfold useVar
    split
    · next i hi => exact .cons ⟨s.names_markUsed i, fun hs => hs.markUsed hi⟩ (keep_refl ss)
    · split
      · exact keep_refl _
      · exact .cons (turns_refl s) ih

theorem turns_add_var (hv : v.IsNew) (hfree : s.Free v.name) : Turns (·.addVars [v.name]) s (s.add { vars := [v] }) :=
  ⟨Scope.names_add_var hv, fun hs => hs.add_var hv hfree⟩

theorem isNew_temporary (t : Ty) : Variable.IsNew ⟨"", t, default, .temporary⟩ := by
  intro hn
  cases hn

theorem free_unnamed (s : Scope) : s.Free "" := by
  intro hn
  cases hn

theorem Roster.addVars_unnamed (d : Roster) : d.addVars [""] = d := by simp [Roster.addVars, isName]

theorem turns_temporary (s : Scope) (t : Ty) : Turns id s (s.add (temps [t])) := by
  have h := turns_add_var (isNew_temporary t) (free_unnamed s)
  exact ⟨h.names.trans (Roster.addVars_unnamed _), h.tidy⟩

/-- **A look at scopes gives none of them a name.** -/
theorem Looks.keep (h : Looks ss ss') : Keep ss ss' := by
  induction h with
  | refl => exact keep_refl ss
  | use name _ ih => exact ih.trans (keep_useVar name _)
  | @temp ss' t _ ih =>
    refine ih.trans ?_
    cases ss' with
    | nil => exact .nil
    | cons s ss => exact .cons (turns_temporary s t) (keep_refl ss)

/-- A step that gives names to the innermost scope. -/
structure Steps (f : Roster → Roster) (st st' : State) : Prop where
  scope : Turns f st.scope st'.scope
  outer : Keep st.outer st'.outer

section

variable {st st₁ st' : State} {f g : Roster → Roster}

theorem steps_of_keep (h : Keep st.scopes st'.scopes) : Steps id st st' := by
  obtain ⟨hscope, houter⟩ := forall₂_cons.mp h
  exact ⟨hscope, houter⟩

theorem Looks.steps (h : Looks st.scopes st'.scopes) : Steps id st st' := steps_of_keep h.keep

theorem steps_refl (st : State) : Steps id st st := steps_of_keep (keep_refl _)

theorem Steps.trans (h : Steps f st st₁) (h' : Steps g st₁ st') : Steps (fun d => g (f d)) st st' :=
  ⟨h.scope.trans h'.scope, h.outer.trans h'.outer⟩

/-- Only what comes to the names that are there matters. -/
theorem Steps.congr (h : Steps f st st') (hfg : f st.scope.names = g st.scope.names) : Steps g st st' :=
  ⟨⟨h.scope.names.trans hfg, h.scope.tidy⟩, h.outer⟩

instance : Std.Refl (Steps id) := ⟨steps_refl⟩

instance : IsTrans State (Steps id) := ⟨fun _ _ _ h h' => h.trans h'⟩

theorem declare_steps (hv : v.IsNew) (hfree : st.scope.Free v.name) :
    Goes env (Steps (·.addVars [v.name])) st (declare v) fun _ st' => ∀ n, st.scope.Free n → st'.scope.Free n := by
  intro i st' h
  obtain ⟨-, rfl⟩ := declare_ok h
  have hscope : ({ st.scope with vars := st.scope.vars ++ [v] } : Scope) = st.scope.add { vars := [v] } := by
    simp [Scope.add]
  dsimp only
  rw [hscope]
  exact ⟨⟨turns_add_var hv hfree, keep_refl _⟩, fun n hn => hn.add_var hv⟩

theorem emitAll_steps :
    Goes env (Steps id) st (emitAll cs) fun _ st' => st'.scope = st.scope := by
  intro u st' h
  obtain rfl := emitAll_ok h
  exact ⟨steps_of_keep (keep_refl _), rfl⟩

theorem emit_steps : Goes env (Steps id) st (emit c) fun _ st' => st'.scope = st.scope :=
  show Goes env _ st (emitAll [c]) _ from emitAll_steps

theorem kept_steps :
    Goes env (Steps id) st (kept several t e) fun _ st' => ∀ n, st.scope.Free n → st'.scope.Free n := by
  have htemp : Goes env (Steps id) st (temporary t) fun _ st' => ∀ n, st.scope.Free n → st'.scope.Free n :=
    (declare_steps (isNew_temporary t) (free_unnamed _)).imp (·.congr (Roster.addVars_unnamed _)) fun _ _ _ => id
  exact goes_ite (fun _ => htemp.bind fun _ _ _ hfree => emit_steps.bind fun _ _ _ heq => goes_pure (heq ▸ hfree))
    fun _ => goes_pure fun _ => id

theorem notRedeclared_free :
    Goes env Eq st (notRedeclared pos name) fun _ _ => isName name = true → st.scope.declares name = false := by
  refine goes_get_bind (goes_ite_fail fun hnot => goes_pure fun hn => ?_)
  simp only [isName, Bool.and_eq_true, bne_iff_ne] at hn
  simpa [hn.2] using hnot

end

end Check

end GameMedia.Shader
