import GameMedia.Proofs.Shader.Identifiers
import GameMedia.Proofs.Shader.Programs

/-!
# Where single statements are checked

A statement that opens no scope may stand deep inside a body. Wherever it stands, the checker comes to it in a context
that is in order, and what it becomes is a run of statements in the code of the body. So what is to be said of single
statements can be said of the check of one statement, and it holds in all accepted sources.
-/

namespace GameMedia.Shader

open List

namespace Surface

mutual

/-- The statements that open no scope, in a statement and its blocks. Declarations of a group are taken one by one, and
heads of loops are left out. -/
def Stmt.singles : Stmt → List Stmt
  | .decl g => g.split
  | .block b => b.singles
  | .cond _ init _ body other => optSingles init ++ body.singles ++ optSingles other
  | .loop _ _ _ _ body => body.singles
  | s => [s]

def optSingles : Option Stmt → List Stmt
  | none => []
  | some s => s.singles

def Block.singles : Block → List Stmt
  | .mk _ ss => stmtsSingles ss

def stmtsSingles : List Stmt → List Stmt
  | [] => []
  | s :: ss => s.singles ++ stmtsSingles ss

end

theorem Group.words_split (h : s ∈ g.split) : s.words ⊆ (Stmt.decl g).words := by
  obtain ⟨spec, hspec, rfl⟩ := List.mem_map.mp h
  intro n hn
  simp only [Stmt.words, flatMap_cons, flatMap_nil, append_nil] at hn
  exact mem_flatMap.mpr ⟨spec, hspec, hn⟩

mutual

/-- A single statement has no names but those of the statement it stands in. -/
theorem Stmt.words_singles : (s : Stmt) → ∀ s₀ ∈ s.singles, s₀.words ⊆ s.words
  | .decl g, s₀, h => Group.words_split (by rwa [Stmt.singles] at h)
  | .block b, s₀, h => by
      rw [Stmt.singles] at h
      rw [Stmt.words]
      exact Block.words_singles b s₀ h
  | .cond _ init test body other, s₀, h => by
      rw [Stmt.singles] at h
      rw [Stmt.words]
      intro n hn
      rcases mem_append.mp h with h | h
      · rcases mem_append.mp h with h | h
        · simp [optWords_singles init s₀ h hn]
        · simp [Block.words_singles body s₀ h hn]
      · simp [optWords_singles other s₀ h hn]
  | .loop _ init _ _ body, s₀, h => by
      rw [Stmt.singles] at h
      rw [Stmt.words]
      intro n hn
      exact mem_append_right _ (Block.words_singles body s₀ h hn)
  | .empty _, s₀, h | .assign _ _ _ _, s₀, h | .step _ _ _, s₀, h | .expr _ _, s₀, h | .ret _ _, s₀, h
  | .range _ _, s₀, h | .branch _ _ _, s₀, h | .labeled _ _, s₀, h | .spawn _ _, s₀, h | .defer _ _, s₀, h
  | .send _, s₀, h | .switch _, s₀, h | .select _, s₀, h => by
      simp only [Stmt.singles, mem_singleton] at h
      rw [h]
      exact List.Subset.refl _

theorem optWords_singles : (o : Option Stmt) → ∀ s₀ ∈ optSingles o, s₀.words ⊆ optWords o
  | none, s₀, h => by simp [optSingles] at h
  | some s, s₀, h => by
      rw [optSingles] at h
      rw [optWords]
      exact Stmt.words_singles s s₀ h

theorem Block.words_singles : (b : Block) → ∀ s₀ ∈ b.singles, s₀.words ⊆ b.words
  | .mk _ ss, s₀, h => by
      rw [Block.singles] at h
      rw [Block.words]
      exact stmtsWords_singles ss s₀ h

theorem stmtsWords_singles : (ss : List Stmt) → ∀ s₀ ∈ stmtsSingles ss, s₀.words ⊆ stmtsWords ss
  | [], s₀, h => by simp [stmtsSingles] at h
  | s :: ss, s₀, h => by
      rw [stmtsSingles] at h
      rw [stmtsWords]
      intro n hn
      rcases mem_append.mp h with h | h
      · exact mem_append_left _ (Stmt.words_singles s s₀ h hn)
      · exact mem_append_right _ (stmtsWords_singles ss s₀ h hn)

end

end Surface

namespace Code

/-- The blocks directly inside a statement. -/
def Stmt.blocks : Stmt → List Block
  | .block b | .branch _ b none | .loop _ b => [b]
  | .branch _ t (some f) => [t, f]
  | _ => []

/-- Statements that stand one after another in a list, or in a block in it. -/
inductive Within (ds : List Stmt) : List Stmt → Prop
  | here {cs : List Stmt} : ds <:+: cs → Within ds cs
  | inside {cs : List Stmt} {c : Stmt} {b : Block} : c ∈ cs → b ∈ c.blocks → Within ds b.stmts → Within ds cs

theorem Within.mono (h : Within ds cs) (hcs : cs <:+: cs') : Within ds cs' := by
  cases h with
  | here h => exact .here (h.trans hcs)
  | inside hc hb h => exact .inside (hcs.subset hc) hb h

end Code

namespace Check

open Code (Within)
open Surface (optSingles stmtsSingles)

variable {env : Env} {inLoop : Bool} {st st₁ st' : State}

/-- A statement is checked in a context that is in order, and code is written for it. -/
structure Visit (env : Env) (inLoop : Bool) (s : Surface.Stmt) (st st' : State) (ds : List Code.Stmt) : Prop where
  inside : Inside env st.view
  counterless : Counterless st.view
  run : stmt inLoop s env st = .ok ((), st')
  out : st'.out = st.out ++ ds

/-- A statement is checked somewhere, and its code stands in the code of a body. -/
def Visited (env : Env) (cs : List Code.Stmt) (s : Surface.Stmt) : Prop :=
  ∃ inLoop st st' ds, Visit env inLoop s st st' ds ∧ Within ds cs

theorem Visited.mono (h : Visited env cs s) (hcs : cs <:+: cs') : Visited env cs' s := by
  obtain ⟨inLoop, st, st', ds, hv, hw⟩ := h
  exact ⟨inLoop, st, st', ds, hv, hw.mono hcs⟩

theorem Visited.inside (h : Visited env b.stmts s) (hc : c ∈ cs) (hb : b ∈ c.blocks) : Visited env cs s := by
  obtain ⟨inLoop, st, st', ds, hv, hw⟩ := h
  exact ⟨inLoop, st, st', ds, hv, .inside hc hb hw⟩

/-- Code is written between two states, and the code of all those statements is in it. -/
def Visits (env : Env) (S : List Surface.Stmt) (st st' : State) : Prop :=
  ∃ cs, st'.out = st.out ++ cs ∧ ∀ s ∈ S, Visited env cs s

theorem visits_nil (st : State) : Visits env [] st st := ⟨[], (append_nil _).symm, forall_mem_nil _⟩

theorem Visits.append (h : Visits env S st st₁) (h' : Visits env T st₁ st') :
    Visits env (S ++ T) st st' := by
  obtain ⟨cs, hout, hcs⟩ := h
  obtain ⟨ds, hout', hds⟩ := h'
  refine ⟨cs ++ ds, by rw [hout', hout, append_assoc], forall_mem_append.mpr ⟨fun s hs => ?_, fun s hs => ?_⟩⟩
  · exact (hcs s hs).mono (prefix_append _ _).isInfix
  · exact (hds s hs).mono (suffix_append _ _).isInfix

theorem singles_of_isSingle {s : Surface.Stmt} (hs : s.IsSingle) : s.singles = [s] := by
  cases s with
  | decl g =>
    obtain ⟨spec, hspec⟩ := length_eq_one_iff.mp hs
    rw [Surface.Stmt.singles, Surface.Group.split, hspec, map_singleton, ← hspec]
  | block _ | cond _ _ _ _ _ | loop _ _ _ _ _ => exact absurd hs id
  | _ => simp only [Surface.Stmt.singles]

theorem singles_split (g : Surface.Group) (rest : List Surface.Stmt) :
    stmtsSingles (g.split ++ rest) = g.split ++ stmtsSingles rest := by
  have hone : ∀ spec, (Surface.Stmt.decl { g with specs := [spec] }).singles = [.decl { g with specs := [spec] }] :=
    fun spec => singles_of_isSingle rfl
  unfold Surface.Group.split
  induction g.specs with
  | nil => rfl
  | cons spec specs ih => rw [map_cons, cons_append, stmtsSingles, hone, ih]; rfl

theorem optSingles_of_branch?
    (h : Surface.Stmt.branch? other = some alt) : optSingles other = stmtsSingles alt := by
  rcases Surface.Stmt.eq_some_of_branch? h with ⟨pos, rfl⟩ | ⟨s, rfl, rfl⟩
  · rw [optSingles, Surface.Stmt.singles, Surface.Block.singles]
  · rw [optSingles, stmtsSingles, stmtsSingles, append_nil]

theorem test_inside (hi : Inside env st.view) (hc : Counterless st.view)
    (h : value test env st = .ok (v, st₁)) : Inside env st₁.view ∧ Counterless st₁.view ∧ ∃ cs, st₁.out = st.out ++ cs := by
  have hr := ready_of false (.expr default test) hi hc
  obtain ⟨⟨⟨a, -, has, hview⟩, cs, hout, -⟩, -⟩ := (value_ok (List.Subset.refl _) hr).ok h
  rw [hview]
  exact ⟨hi.grow has, hc.grow has, cs, hout⟩

theorem visits_emit (hout : st₁.out = st.out)
    (h : emit c env st₁ = .ok ((), st')) (hv : ∀ s ∈ S, ∃ b ∈ c.blocks, Visited env b.stmts s) : Visits env S st st' := by
  refine ⟨[c], by rw [(emit_view h).2, hout], fun s hs => ?_⟩
  obtain ⟨b, hb, hs⟩ := hv s hs
  exact hs.inside (mem_singleton.mpr rfl) hb

theorem Closes.visits {S : List Surface.Stmt} {inner : State} (h : Closes st inner b st')
    (hv : Visits env S st.inner inner) : ∀ s ∈ S, Visited env b.stmts s := by
  obtain ⟨cs, hcs, hvisits⟩ := hv
  obtain rfl : inner.out = cs := hcs
  rw [h.block]
  exact hvisits

/-- **Every single statement is visited.** -/
theorem Derives.visits (h : Derives env inLoop S st st') (hi : Inside env st.view)
    (hc : Counterless st.view) : Visits env (stmtsSingles S) st st' := by
  induction h with
  | nil => exact visits_nil _
  | single hs hrun _ ih =>
    obtain ⟨⟨a, -, ha, hview⟩, cs, hout, -⟩ := single_moves hs hi hc hrun
    rw [stmtsSingles, singles_of_isSingle hs]
    refine Visits.append ⟨cs, hout, ?_⟩ (ih (hview ▸ hi.grow ha) (hview ▸ hc.grow ha))
    exact forall_mem_singleton.mpr ⟨_, _, _, cs, ⟨hi, hc, hrun, hout⟩, .here (infix_refl _)⟩
  | group _ ih =>
    rw [stmtsSingles, Surface.Stmt.singles, ← singles_split]
    exact ih hi hc
  | block hb hclose hemit _ ihb ih =>
    obtain ⟨hview, hout, -⟩ := hclose.lowers (hb.becomes hi.inner (counterless_inner _))
    have hrest := (emit_view hemit).1.trans hview
    rw [stmtsSingles, Surface.Stmt.singles, Surface.Block.singles]
    refine (visits_emit hout hemit fun s hs => ?_).append (ih (hrest ▸ hi) (hrest ▸ hc))
    exact ⟨_, mem_singleton.mpr rfl, hclose.visits (ihb hi.inner (counterless_inner _)) s hs⟩
  | cond hv _ halt hb hclose hemit _ ihb ih =>
    obtain ⟨hi₁, hc₁, cs, hout₁⟩ := test_inside hi hc hv
    obtain ⟨hview, hout, -⟩ := hclose.lowers (hb.becomes hi₁.inner (counterless_inner _))
    have hrest := (emit_view hemit).1.trans hview
    obtain rfl := Surface.Stmt.eq_none_of_branch? halt
    simp only [stmtsSingles, Surface.Stmt.singles, Surface.Block.singles, optSingles, nil_append, append_nil]
    refine Visits.append (S := [] ++ _) (.append ⟨cs, hout₁, forall_mem_nil _⟩ (visits_emit hout hemit ?_))
      (ih (hrest ▸ hi₁) (hrest ▸ hc₁))
    exact fun s hs => ⟨_, mem_singleton.mpr rfl, hclose.visits (ihb hi₁.inner (counterless_inner _)) s hs⟩
  | condElse hv _ halt hb hclose ha hclose₂ hemit _ ihb iha ih =>
    obtain ⟨hi₁, hc₁, cs, hout₁⟩ := test_inside hi hc hv
    obtain ⟨hview, hout, -⟩ := hclose.lowers (hb.becomes hi₁.inner (counterless_inner _))
    have hi₂ := hview ▸ hi₁
    obtain ⟨hview₂, hout₂, -⟩ := hclose₂.lowers (ha.becomes (Inside.inner hi₂) (counterless_inner _))
    have hrest := (emit_view hemit).1.trans (hview₂.trans hview)
    simp only [stmtsSingles, Surface.Stmt.singles, Surface.Block.singles, optSingles, nil_append,
      optSingles_of_branch? halt]
    refine Visits.append (S := [] ++ _)
      (.append ⟨cs, hout₁, forall_mem_nil _⟩ (visits_emit (hout₂.trans hout) hemit ?_)) (ih (hrest ▸ hi₁) (hrest ▸ hc₁))
    refine forall_mem_append.mpr ⟨fun s hs => ?_, fun s hs => ?_⟩
    · exact ⟨_, mem_cons_self, hclose.visits (ihb hi₁.inner (counterless_inner _)) s hs⟩
    · exact ⟨_, mem_cons_of_mem _ mem_cons_self,
        hclose₂.visits (iha (Inside.inner hi₂) (counterless_inner _)) s hs⟩
  | condInit hb hclose hemit _ ihb ih =>
    obtain ⟨hview, hout, -⟩ := hclose.lowers (hb.becomes hi.inner (counterless_inner _))
    have hrest := (emit_view hemit).1.trans hview
    have hv := hclose.visits (ihb hi.inner (counterless_inner _))
    simp only [stmtsSingles, Surface.Stmt.singles, optSingles, nil_append, append_nil,
      append_assoc] at hv ⊢
    rw [← append_assoc, ← append_assoc]
    refine (visits_emit hout hemit fun s hs => ?_).append (ih (hrest ▸ hi) (hrest ▸ hc))
    exact ⟨_, mem_singleton.mpr rfl, hv s (by simpa using hs)⟩
  | loop hhead hdecl hb hclose hleaves hemit _ ihb ih =>
    obtain ⟨⟨hm, hout₁⟩, htyped, -⟩ := (loopHeader_ok (ready_of false (.empty default) hi hc)).ok hhead
    obtain ⟨a, -, has, hview₁⟩ := hm.grows
    have hi₁ := hview₁ ▸ hi.grow has
    obtain ⟨-, hview, -⟩ := head_view hdecl
    have hid := hview ▸ hi₁.head htyped _ _
    obtain ⟨hview', -⟩ := hclose.lowers (hb.becomes (Inside.inner hid) (counterless_inner _))
    obtain ⟨hview₂, hout₂⟩ := hleaves.view (cons.inj (hview'.trans hview)).2
    have hrest := (emit_view hemit).1.trans hview₂
    simp only [stmtsSingles, Surface.Stmt.singles, Surface.Block.singles]
    refine (visits_emit (hout₂.trans hout₁) hemit fun s hs => ?_).append (ih (hrest ▸ hi₁) (hrest ▸ hview₁ ▸ hc.grow has))
    refine ⟨_, mem_singleton.mpr rfl, Visited.inside ?_ (mem_append_right _ (mem_singleton.mpr rfl))
      (mem_singleton.mpr rfl)⟩
    exact hclose.visits (ihb (Inside.inner hid) (counterless_inner _)) s hs

/-! ## Bodies -/

section

variable {options : CompileOptions} {file : Surface.File} {g g' : Globals} {sig : Signature} {f : Surface.FuncDecl}
  {cs : List CheckedFunc} {b : Body × Ty}

theorem Globals.declaresFunc_of_addFunc {all : List Surface.FuncDecl} (hl : Listed options all g)
    (h : addFunc g f = .ok g') (hname : name = f.name.name ∨ g.declaresFunc name = true) :
    g'.declaresFunc name = true := by
  obtain ⟨-, sig, -, hsig, hcases⟩ := addFunc_cases hl h
  simp only [declaresFunc, Bool.or_eq_true, List.any_eq_true, Option.any_eq_true, beq_iff_eq] at hname ⊢
  rcases hname with rfl | (⟨s, hs, rfl⟩ | ⟨s, hs, rfl⟩) | ⟨s, hs, rfl⟩
  · rcases hcases with ⟨-, rfl⟩ | ⟨-, -, rfl⟩ | ⟨-, -, rfl⟩
    · exact .inl (.inr ⟨sig, rfl, hsig⟩)
    · exact .inr ⟨sig, rfl, hsig⟩
    · exact .inl (.inl ⟨sig, mem_append_right _ (mem_singleton.mpr rfl), hsig⟩)
  · rcases hcases with ⟨-, rfl⟩ | ⟨-, -, rfl⟩ | ⟨-, -, rfl⟩
    · exact .inl (.inl ⟨s, hs, rfl⟩)
    · exact .inl (.inl ⟨s, hs, rfl⟩)
    · exact .inl (.inl ⟨s, mem_append_left _ hs, rfl⟩)
  · rcases hcases with ⟨hv, rfl⟩ | ⟨-, -, rfl⟩ | ⟨-, -, rfl⟩
    · exact .inl (.inr ⟨sig, rfl, by rw [hsig, hv, (hl.vertex s hs).2.1]⟩)
    · exact .inl (.inr ⟨s, hs, rfl⟩)
    · exact .inl (.inr ⟨s, hs, rfl⟩)
  · rcases hcases with ⟨-, rfl⟩ | ⟨-, hf, rfl⟩ | ⟨-, -, rfl⟩
    · exact .inr ⟨s, hs, rfl⟩
    · exact .inr ⟨sig, rfl, by rw [hsig, hf, (hl.fragment s hs).2.1]⟩
    · exact .inr ⟨s, hs, rfl⟩

theorem addFuncs_names {all fs : List Surface.FuncDecl} (hfs : ∀ f ∈ fs, f ∈ all) (hl : Listed options all g)
    (h : addFuncs g fs = .ok g') :
    (fs.map fun f => f.name.name).Nodup ∧
      ∀ f ∈ fs, g.declaresFunc f.name.name = false ∧ g.declares f.name.name = false := by
  induction fs generalizing g with
  | nil => exact ⟨nodup_nil, forall_mem_nil _⟩
  | cons f fs ih =>
    rw [forall_mem_cons] at hfs
    obtain ⟨g₁, hf, h⟩ := rule_bind_ok h
    obtain ⟨hnodup, hnew⟩ := ih hfs.2 (addFunc_ok hfs.1 hl hf) h
    have hold : ∀ f' ∈ fs, f'.name.name ≠ f.name.name ∧ g.declaresFunc f'.name.name = false := by
      intro f' hf'
      have hnot := (hnew f' hf').1
      constructor
      · intro heq
        rw [Globals.declaresFunc_of_addFunc hl hf (.inl heq)] at hnot
        cases hnot
      · by_contra hne
        rw [Globals.declaresFunc_of_addFunc hl hf (.inr (by simpa using hne))] at hnot
        cases hnot
    -- a function adds to the functions only
    have hsame : ∀ name, g₁.declares name = g.declares name := by
      obtain ⟨-, sig, -, -, ⟨-, rfl⟩ | ⟨-, -, rfl⟩ | ⟨-, -, rfl⟩⟩ := addFunc_cases hl hf
      all_goals exact fun _ => rfl
    refine ⟨nodup_cons.mpr ⟨fun hmem => ?_, hnodup⟩, forall_mem_cons.mpr ⟨(addFunc_cases hl hf).1, fun f' hf' => ?_⟩⟩
    · obtain ⟨f', hf', heq⟩ := List.mem_map.mp hmem
      exact (hold f' hf').1 heq
    · exact ⟨(hold f' hf').2, (hsame _).symm.trans (hnew f' hf').2⟩

structure Made (g : Globals) (f : Surface.FuncDecl) (sig : Signature) (b : Body × Ty) : Prop where
  listed : g.vertex = some sig ∨ g.fragment = some sig ∨ sig ∈ g.funcs
  named : sig.name = f.name.name
  sound : sig.Sound
  outs : sig.outs = [] ∨ sig.result = .none
  result : b.2 = sig.result
  run : body g b.1.kind sig f = .ok b.1.top

theorem Assembly.nodup (h : Assembly options file g cs p) :
    ((funcDecls file.decls).map fun f => f.name.name).Nodup := by
  obtain ⟨g₁, g₂, -, hbare, hfuncs, -⟩ := fileGlobals_cases h.globals
  exact (addFuncs_names (fun f hf => hf) (hbare.listed _) hfuncs).1

theorem Assembly.eq_of_name (h : Assembly options file g cs p) (hf : f ∈ funcDecls file.decls)
    (hf' : f' ∈ funcDecls file.decls) (heq : f.name.name = f'.name.name) : f = f' :=
  inj_on_of_nodup_map h.nodup hf hf' heq

/-- Every function of an accepted file has a body in the program. -/
theorem Assembly.made (h : Assembly options file g cs p) (hf : f ∈ funcDecls file.decls) :
    ∃ b ∈ p.bodies, ∃ sig, Made g f sig b := by
  have hd := h.declared
  obtain ⟨unit, hp⟩ := h.program
  obtain ⟨c, hc, hgives⟩ := h.given f hf
  cases c with
  | vertex b =>
    obtain ⟨sig, hsig, hname, -⟩ := hgives
    obtain ⟨b', hb'⟩ := Option.isSome_iff_exists.mp (vertexBody?_isSome hc)
    obtain ⟨f', hf', sig', hsig', hname', hbody⟩ := h.gives _ (mem_of_vertexBody? hb')
    -- only one function has the name, so the body that is found is its own
    obtain rfl := Option.some.inj (hsig.symm.trans hsig')
    obtain rfl := h.eq_of_name hf hf' (hname.symm.trans hname')
    obtain ⟨hsound, -, -, -, hresult⟩ := hd.vertex sig hsig
    refine ⟨(.ofVertex p b', .none), ?_, sig, .inl hsig, hname, hsound, .inr hresult, hresult.symm, hbody⟩
    have hvertex : p.vertex = some b' := by rw [hp]; exact hb'
    simp [Program.bodies, hvertex]
  | fragment b =>
    obtain ⟨sig, hsig, hname, -⟩ := hgives
    obtain ⟨b', hb'⟩ := Option.isSome_iff_exists.mp (fragmentBody?_isSome hc)
    obtain ⟨f', hf', sig', hsig', hname', hbody⟩ := h.gives _ (mem_of_fragmentBody? hb')
    obtain rfl := Option.some.inj (hsig.symm.trans hsig')
    obtain rfl := h.eq_of_name hf hf' (hname.symm.trans hname')
    obtain ⟨hsound, -, -, -, houts, hresult⟩ := hd.fragment sig hsig
    refine ⟨(.ofFragment p b', .vec4), ?_, sig, .inr (.inl hsig), hname, hsound, .inl houts, hresult.symm, hbody⟩
    have hfragment : p.fragment = some b' := by rw [hp]; exact hb'
    simp [Program.bodies, hfragment]
  | helper k =>
    obtain ⟨sig, hindex, hsig, htype, hbody⟩ := hgives
    have hmem := mem_of_getElem? hsig
    obtain ⟨-, -, houts, -⟩ := hd.funcs sig hmem
    obtain ⟨-, -, hresult⟩ := Code.FuncType.mk.inj htype
    refine ⟨(.ofFunc k, k.result), ?_, sig, .inr (.inr hmem), name_of_funcIndex? hindex hsig, hd.sound.funcs sig hmem, houts, hresult, hbody⟩
    have hfuncs : k ∈ p.funcs := by rw [hp]; exact mem_helpers.mpr hc
    exact mem_append_right _ (List.mem_map_of_mem hfuncs)

theorem mem_decls_of_funcDecls (hf : f ∈ funcDecls ds) : .func f ∈ ds := by
  induction ds with
  | nil => cases hf
  | cons d ds ih =>
    cases d with
    | group g => exact mem_cons_of_mem _ (ih hf)
    | func f' =>
      rcases mem_cons.mp hf with rfl | hf
      · exact mem_cons_self
      · exact mem_cons_of_mem _ (ih hf)

theorem clean_single (hfile : "" ∉ file.words) (hf : f ∈ funcDecls file.decls)
    (hs : s ∈ stmtsSingles (bodyStmts f)) : "" ∉ s.words := by
  intro hmem
  have hbody : "" ∈ f.words := by
    have hmem := Surface.stmtsWords_singles _ s hs hmem
    refine mem_append_right _ ?_
    rw [bodyStmts] at hmem
    cases hb : f.body with
    | none =>
      rw [hb] at hmem
      simp [Surface.stmtsWords] at hmem
    | some b =>
      obtain ⟨pos, body⟩ := b
      rw [hb] at hmem
      simpa [Surface.Block.words, Surface.Block.stmts] using hmem
  refine hfile (mem_flatMap.mpr ⟨.func f, ?_, mem_cons_of_mem _ hbody⟩)
  exact mem_decls_of_funcDecls hf

/-- The context that a body begins in is in order. -/
theorem inside_start (kind : BodyKind) (hg : g.Sound) (hs : sig.Sound) (readOnly : Bool) (out : List Code.Stmt) :
    Inside (bodyEnv g kind sig) (State.view { scope := bodyScope sig readOnly, out }) ∧
      Counterless (State.view { scope := bodyScope sig readOnly, out }) := by
  have hview : State.view { scope := bodyScope sig readOnly, out } = [bodyScope sig readOnly] := by
    rw [State.view_def, unmarked_bodyScope]
    rfl
  rw [hview]
  exact ⟨inside_body hg hs readOnly, counterless_body sig readOnly⟩

/-- **Every single statement of a function is visited on the way to its body.** -/
theorem Made.visits (hm : Made g f sig b) (hg : g.Sound) :
    ∀ s ∈ stmtsSingles (bodyStmts f), Visited (bodyEnv g b.1.kind sig) b.1.top.stmts s := by
  obtain ⟨⟨_, st⟩, hcheck, h⟩ := rule_bind_ok hm.run
  obtain ⟨⟨⟩, st₁, hrun, hcheck⟩ := bind_ok hcheck
  replace hcheck := get_bind_ok hcheck
  obtain ⟨rfl, -⟩ := checkUnused_ok hcheck
  obtain ⟨-, h⟩ := ite_complain_ok h
  have htop := Except.ok.inj h
  obtain ⟨hi, hc⟩ := inside_start b.1.kind hg hm.sound (b.1.kind != .helper) (zeroOutputs sig)
  obtain ⟨ds, hout, hv⟩ : Visits (bodyEnv g b.1.kind sig) (stmtsSingles (bodyStmts f)) _ st₁ :=
    (stmts_derives (bodyStmts f) hrun).visits hi hc
  intro s hs
  have hstmts : b.1.top.stmts = zeroOutputs sig ++ ds := by
    rw [← htop, ← hout]
    rfl
  rw [hstmts]
  exact (hv s hs).mono (suffix_append _ _).isInfix

end

end Check

end GameMedia.Shader
