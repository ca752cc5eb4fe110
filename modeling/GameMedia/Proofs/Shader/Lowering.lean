import GameMedia.Proofs.Shader.Derivations
import GameMedia.Proofs.Shader.Statements

/-!
# Lowering

How statements of the source become code, as a relation. A statement that opens no scope is the code of its site. One
that does becomes a block of its own, and the scope it opens is the one that this block declares the variables of. The
relation is open in what it says of single statements: a rule about them is a parameter, and the checker is shown to
follow the rule `Site.Written`. Results about bodies are then inductions over the relation, and none of them looks at the
checker again.
-/

namespace GameMedia.Shader

open List

namespace Surface

/-- The names that stand in a statement, blocks inside and types apart. -/
def Stmt.idents : Stmt → List String
  | .decl g => g.specs.flatMap Spec.idents
  | .assign _ lhs _ rhs => identsAll lhs ++ identsAll rhs
  | .step _ e _ | .expr _ e => e.idents
  | .cond _ _ test _ _ => test.idents
  | .ret _ es => identsAll es
  | _ => []

/-- The variables that a statement declares. -/
def Stmt.variables : Stmt → List Ident
  | .decl g => g.specs.flatMap (Spec.variables g.kind)
  | .assign _ lhs .define _ => Check.definedIdents lhs
  | _ => []

def Stmt.returns : Stmt → Bool
  | .ret _ _ => true
  | _ => false

end Surface

namespace Check

variable {ss : List Scope} {env : Env} {s : Scope}

/-! ## Scopes and blocks -/

def Site.of (env : Env) (inLoop : Bool) (s : Surface.Stmt) (ss : List Scope) : Site where
  env
  inLoop
  names := s.idents
  fresh := s.variables
  returns := s.returns
  start := ss

def opened (ss : List Scope) : List Scope := { base := stop ss } :: ss

/-- The scope of a loop's head, which has the counter and nothing else. -/
def headScope (name : String) (pos : Pos) (ty : Ty) (ss : List Scope) : Scope where
  base := stop ss
  vars := [⟨name, ty, pos, .counter⟩]

def Scope.block (s : Scope) (cs : List Code.Stmt) : Code.Block := .mk s.localTypes s.base cs

@[simp] theorem Scope.unmarked_block (s : Scope) (cs : List Code.Stmt) : s.unmarked.block cs = s.block cs := by
  rw [Scope.block, Scope.unmarked_localTypes, Scope.unmarked_base, Scope.block]

/-- What may be said of single statements: the site, the blocks around it, the scopes at its end, the code, and the
condition that the code leads to. -/
abbrev Rule : Type := Site → List Code.Block → List Scope → List Code.Stmt → Option Code.Expr → Prop

/-- Statements of the source and the code that they become. The scopes are those before and after, and the blocks those
that the open scopes become. Both have the innermost first. -/
inductive Lowers (R : Rule) (env : Env) :
    Bool → List Code.Block → List Scope → List Surface.Stmt → List Scope → List Code.Stmt → Prop
  | nil {inLoop : Bool} {chain : List Code.Block} {ss : List Scope} : Lowers R env inLoop chain ss [] ss []
  | single {inLoop : Bool} {chain : List Code.Block} {ss ss' : List Scope} {s : Surface.Stmt} {rest : List Surface.Stmt}
      {a : Added} {cs ds : List Code.Stmt} :
      s.IsSingle → (Site.of env inLoop s ss).Declares a → a.Sound →
      R (Site.of env inLoop s ss) chain (grow a ss) cs none →
      Lowers R env inLoop chain (grow a ss) rest ss' ds →
      Lowers R env inLoop chain ss (s :: rest) ss' (cs ++ ds)
  | group {inLoop : Bool} {chain : List Code.Block} {ss ss' : List Scope} {g : Surface.Group}
      {rest : List Surface.Stmt} {cs : List Code.Stmt} :
      Lowers R env inLoop chain ss (g.split ++ rest) ss' cs →
      Lowers R env inLoop chain ss (.decl g :: rest) ss' cs
  | block {inLoop : Bool} {chain : List Code.Block} {ss ss' : List Scope} {pos : Pos} {body rest : List Surface.Stmt}
      {s : Scope} {cs ds : List Code.Stmt} :
      Lowers R env inLoop (s.block cs :: chain) (opened ss) body (s :: ss) cs →
      Lowers R env inLoop chain ss rest ss' ds →
      Lowers R env inLoop chain ss (.block (.mk pos body) :: rest) ss' (.block (s.block cs) :: ds)
  | cond {inLoop : Bool} {chain : List Code.Block} {ss ss' : List Scope} {pos at₁ : Pos} {test : Surface.Expr}
      {body rest : List Surface.Stmt} {other : Option Surface.Stmt} {a : Added} {s : Scope} {c : Code.Expr}
      {cs ts ds : List Code.Stmt} :
      a.Temps → a.Sound →
      R (Site.of env inLoop (.cond pos none test (.mk at₁ body) other) ss) chain (grow a ss) cs (some c) →
      Surface.Stmt.branch? other = none →
      Lowers R env inLoop (s.block ts :: chain) (opened (grow a ss)) body (s :: grow a ss) ts →
      Lowers R env inLoop chain (grow a ss) rest ss' ds →
      Lowers R env inLoop chain ss (.cond pos none test (.mk at₁ body) other :: rest) ss'
        (cs ++ .branch c (s.block ts) none :: ds)
  | condElse {inLoop : Bool} {chain : List Code.Block} {ss ss' : List Scope} {pos at₁ : Pos} {test : Surface.Expr}
      {body alt rest : List Surface.Stmt} {other : Option Surface.Stmt} {a : Added} {s s' : Scope} {c : Code.Expr}
      {cs ts fs ds : List Code.Stmt} :
      a.Temps → a.Sound →
      R (Site.of env inLoop (.cond pos none test (.mk at₁ body) other) ss) chain (grow a ss) cs (some c) →
      Surface.Stmt.branch? other = some alt →
      Lowers R env inLoop (s.block ts :: chain) (opened (grow a ss)) body (s :: grow a ss) ts →
      Lowers R env inLoop (s'.block fs :: chain) (opened (grow a ss)) alt (s' :: grow a ss) fs →
      Lowers R env inLoop chain (grow a ss) rest ss' ds →
      Lowers R env inLoop chain ss (.cond pos none test (.mk at₁ body) other :: rest) ss'
        (cs ++ .branch c (s.block ts) (some (s'.block fs)) :: ds)
  | condInit {inLoop : Bool} {chain : List Code.Block} {ss ss' : List Scope} {pos : Pos} {init : Surface.Stmt}
      {test : Surface.Expr} {body : Surface.Block} {other : Option Surface.Stmt} {rest : List Surface.Stmt} {s : Scope}
      {cs ds : List Code.Stmt} :
      Lowers R env inLoop (s.block cs :: chain) (opened ss) [init, .cond pos none test body other] (s :: ss) cs →
      Lowers R env inLoop chain ss rest ss' ds →
      Lowers R env inLoop chain ss (.cond pos (some init) test body other :: rest) ss' (.block (s.block cs) :: ds)
  | loop {inLoop : Bool} {chain : List Code.Block} {ss ss' : List Scope} {pos namePos at₁ : Pos} {name : String}
      {init post : Option Surface.Stmt} {test : Option Surface.Expr} {first : Surface.Expr}
      {body rest : List Surface.Stmt} {a : Added} {head s : Scope} {c : Code.Counter} {cs ds : List Code.Stmt} :
      loopStart? init = some (name, namePos, first) → a.Temps → a.Sound → c.Typed → c.index = stop (grow a ss) →
      head = headScope name namePos c.ty (grow a ss) →
      Lowers R env true (s.block cs :: head.block [.loop c (s.block cs)] :: chain) (opened (head :: grow a ss)) body
        (s :: head :: grow a ss) cs →
      Lowers R env inLoop chain (grow a ss) rest ss' ds →
      Lowers R env inLoop chain ss (.loop pos init test post (.mk at₁ body) :: rest) ss'
        (.block (head.block [.loop c (s.block cs)]) :: ds)

/-- The innermost scope has got more, and the others stay. -/
def Grows (ss ss' : List Scope) : Prop := ∃ a : Added, a.Sound ∧ ss' = grow a ss

theorem Grows.refl (ss : List Scope) : Grows ss ss := ⟨{}, Added.sound_empty, (grow_empty ss).symm⟩

theorem Grows.of_grow (ha : a.Sound) (h : Grows (grow a ss) ss') : Grows ss ss' := by
  obtain ⟨b, hb, rfl⟩ := h
  exact ⟨a.append b, ha.append hb, grow_grow a b ss⟩

theorem Lowers.grows (h : Lowers R env inLoop chain ss S ss' cs) : Grows ss ss' := by
  induction h with
  | nil => exact Grows.refl _
  | single _ _ ha _ _ ih => exact ih.of_grow ha
  | group _ ih | block _ _ _ ih => exact ih
  | cond _ ha _ _ _ _ _ ih | condElse _ ha _ _ _ _ _ _ _ ih => exact ih.of_grow ha
  | condInit _ _ _ ih => exact ih
  | loop _ _ ha _ _ _ _ _ _ ih => exact ih.of_grow ha

/-- A variable keeps its number when a scope is opened. -/
theorem numbered?_cons (hn : Nested ss) (hs : s.base = stop ss) (hv : numbered? ss i = some v) :
    numbered? (s :: ss) i = some v := by
  have hlt := hn.lt_stop hv
  rw [numbered?, if_neg (by omega)]
  exact hv

/-! ## What the checker does -/

/-- What holds where a statement begins. In the head of a loop only the last is missing. -/
structure Inside (env : Env) (ss : List Scope) : Prop where
  globals : env.globals.Sound
  scopes : SoundScopes ss
  frame : env.frame.Fits ss

theorem Inside.grow (h : Inside env ss) (ha : a.Sound) : Inside env (grow a ss) :=
  ⟨h.globals, h.scopes.grow ha, h.frame.grow a⟩

theorem Frame.Fits.cons {f : Frame} (h : f.Fits ss) (hn : Nested ss) (hs : s.base = stop ss) : f.Fits (s :: ss) where
  outs := by
    intro k t hk
    obtain ⟨v, hv, hrest⟩ := h.outs k t hk
    exact ⟨v, numbered?_cons hn hs hv, hrest⟩
  result := h.result

theorem Inside.opened {env : Env} (h : Inside env ss) : Inside env (opened ss) :=
  ⟨h.globals, h.scopes.inner, h.frame.cons h.scopes.nested rfl⟩

theorem counterless_opened (ss : List Scope) : Counterless (opened ss) := nofun

/-- The scope of a counter is sound, as counters are integers or floats. -/
theorem Inside.head {c : Code.Counter} (h : Inside env ss) (hc : c.Typed) (name : String) (pos : Pos) :
    Inside env (headScope name pos c.ty ss :: ss) where
  globals := h.globals
  scopes := by
    have hst : c.ty.Storable := by rcases hc.1 with ht | ht <;> rw [ht] <;> decide
    have hn := h.scopes.nested
    refine ⟨?_, forall_mem_cons.mpr ⟨?_, h.scopes.vars⟩, forall_mem_cons.mpr ⟨nofun, h.scopes.consts⟩,
      forall_mem_cons.mpr ⟨nofun, h.scopes.types⟩⟩
    · match ss, hn with
      | s :: ss, hn => exact ⟨rfl, hn⟩
    · intro v hv
      obtain rfl := mem_singleton.mp hv
      exact hst
  frame := h.frame.cons h.scopes.nested rfl

/-- What the checker keeps true of a single statement's code. -/
def Site.Written : Rule := fun K _ ss cs c =>
  (∀ s ∈ cs, K.Writes ss s) ∧ ∀ e, c = some e → (K.judge ss).Good e .bool

def Becomes (env : Env) (inLoop : Bool) (S : List Surface.Stmt) (st st' : State) : Prop :=
  ∃ cs, st'.out = st.out ++ cs ∧ ∀ chain, Lowers Site.Written env inLoop chain st.view S st'.view cs

section

variable {env : Env} {inLoop : Bool} {st st₁ st' last : State} {S : List Surface.Stmt} {s : Surface.Stmt}

theorem ready_of (inLoop : Bool) (s : Surface.Stmt) (hi : Inside env st.view) (hc : Counterless st.view) :
    (Site.of env inLoop s st.view).Ready st :=
  ⟨⟨hi.globals, hi.scopes, hc, hi.frame, le_rfl⟩, {}, Added.temps_empty, (grow_empty _).symm⟩

/-! ### Single statements -/

theorem single_moves (hs : s.IsSingle) (hi : Inside env st.view) (hc : Counterless st.view)
    (h : stmt inLoop s env st = .ok ((), st')) :
    (Site.of env inLoop s st.view).Moves (Site.Declares (Site.of env inLoop s st.view)) st st' := by
  have hr := ready_of inLoop s hi hc
  cases s with
  | empty pos =>
    obtain ⟨-, rfl⟩ := pure_ok h
    exact (Site.moves_refl st).declares
  | decl g =>
    obtain ⟨spec, hspec, hone⟩ := decl_single hs h
    refine ((localSpec_ok ?_ ?_ hr).ok hone).1
    · simp [Site.of, Surface.Stmt.idents, hspec]
    · simp [Site.of, Surface.Stmt.variables, hspec]
  | assign pos lhs op rhs =>
    refine ((assignStmt_ok (subset_append_left _ _) (subset_append_right _ _) ?_ hr).ok h).1
    rintro rfl
    exact List.Subset.refl _
  | step pos e up => exact ((step_ok (List.Subset.refl _) hr).ok h).1
  | expr pos e => exact ((exprStmt_ok (List.Subset.refl _) hr).ok h).1
  | ret pos es => exact ((returnStmt_ok rfl (List.Subset.refl _) hr).ok h).1
  | branch pos kind label => exact ((branchStmt_ok (K := Site.of env inLoop _ _)).ok h).1
  | block _ | cond _ _ _ _ _ | loop _ _ _ _ _ => exact absurd hs id
  | range _ _ | labeled _ _ | spawn _ _ | defer _ _ | send _ | switch _ | select _ => exact absurd h fail_ne_ok

/-- The test of a condition is a site of its own. -/
theorem test_written
    (hi : Inside env st.view) (hc : Counterless st.view) (h : value test env st = .ok (v, st₁)) (hty : v.ty = .bool) :
    ∃ a cs, a.Temps ∧ a.Sound ∧ st₁.view = grow a st.view ∧ st₁.out = st.out ++ cs ∧ ∀ chain,
      Site.Written (Site.of env inLoop (.cond pos none test body other) st.view) chain (grow a st.view) cs
        (some v.expr) := by
  have hr := ready_of inLoop (.cond pos none test body other) hi hc
  obtain ⟨⟨⟨a, hat, has, hview⟩, cs, hout, hcs⟩, hok⟩ := (value_ok (List.Subset.refl _) hr).ok h
  have hgood := (hok.good_of_ty (by rw [hty]; rfl)).1
  rw [hview] at hcs hgood
  rw [hty] at hgood
  refine ⟨a, cs, hat, has, hview, hout, fun _ => ⟨hcs, fun e he => ?_⟩⟩
  cases he
  exact hgood

/-! ### Blocks -/

theorem State.view_inner (st : State) : st.inner.view = opened st.view := by
  rw [opened, State.stop_view]
  rfl

theorem Inside.inner (h : Inside env st.view) : Inside env st.inner.view := by
  rw [State.view_inner]
  exact h.opened

theorem counterless_inner (st : State) : Counterless st.inner.view := by
  rw [State.view_inner]
  exact counterless_opened st.view

/-- Scopes that are still there behind a check are those before it. -/
theorem Leaves.view (h : Leaves st last st') (houter : last.outer.map Scope.unmarked = st.view) :
    st'.view = st.view ∧ st'.out = st.out := by
  have hne : last.outer ≠ [] := fun hnil => State.view_ne_nil st (by rw [← houter, hnil, map_nil])
  obtain ⟨hscopes, hout⟩ := h hne
  exact ⟨by rw [State.view, hscopes, houter], hout⟩

/-- What is in a block becomes its code, and the scopes around it stay. -/
theorem Closes.lowers (h : Closes st last b st') (hb : Becomes env inLoop S st.inner last) :
    st'.view = st.view ∧ st'.out = st.out ∧ ∃ s cs, b = s.block cs ∧
      ∀ chain, Lowers Site.Written env inLoop chain (opened st.view) S (s :: st.view) cs := by
  obtain ⟨cs, hout, hl⟩ := hb
  obtain ⟨a, -, hview⟩ := (hl []).grows
  rw [State.view_inner] at hview hl
  obtain ⟨-, houter⟩ := cons.inj hview
  obtain ⟨hview', hout'⟩ := h.leaves.view houter
  obtain rfl : last.out = cs := hout
  refine ⟨hview', hout', last.scope.unmarked, last.out, by rw [Scope.unmarked_block, h.block, Scope.block], ?_⟩
  rwa [State.view_def last, houter] at hl

theorem emit_view (h : emit c env st = .ok ((), st')) :
    st'.view = st.view ∧ st'.out = st.out ++ [c] := by
  obtain rfl := emit_ok h
  exact ⟨State.view_with_out .., rfl⟩

/-- The head of a loop has a scope around that of the body, with the counter and nothing else. -/
theorem head_view {head : State}
    (h : declare ⟨name, t, namePos, .counter⟩ env st.inner = .ok (index, head)) :
    index = stop st.view ∧ head.view = headScope name namePos t st.view :: st.view ∧ head.out = [] := by
  obtain ⟨rfl, hview, hout⟩ := declare_view h
  rw [hview, State.view_inner]
  exact ⟨rfl, rfl, hout⟩

/-- **Statements that are checked become code.** -/
theorem Derives.becomes (h : Derives env inLoop S st st') (hi : Inside env st.view) (hc : Counterless st.view) :
    Becomes env inLoop S st st' := by
  induction h with
  | nil => exact ⟨[], (append_nil _).symm, fun _ => .nil⟩
  | single hs hrun _ ih =>
    obtain ⟨⟨a, hdecl, ha, hview⟩, cs, hout, hcs⟩ := single_moves hs hi hc hrun
    obtain ⟨ds, hout', hds⟩ := ih (hview ▸ hi.grow ha) (hview ▸ hc.grow ha)
    rw [hview] at hcs hds
    exact ⟨cs ++ ds, by rw [hout', hout, append_assoc], fun chain =>
      .single hs hdecl ha ⟨hcs, fun _ he => by cases he⟩ (hds chain)⟩
  | group _ ih =>
    obtain ⟨cs, hout, hl⟩ := ih hi hc
    exact ⟨cs, hout, fun chain => .group (hl chain)⟩
  | block _ hclose hemit _ ihb ih =>
    obtain ⟨hview₁, hout₁, s, cs, rfl, hl⟩ := hclose.lowers (ihb hi.inner (counterless_inner _))
    obtain ⟨hview₂, hout₂⟩ := emit_view hemit
    rw [hview₁] at hview₂
    obtain ⟨ds, hout, hds⟩ := ih (hview₂ ▸ hi) (hview₂ ▸ hc)
    rw [hview₂] at hds
    exact ⟨.block (s.block cs) :: ds, by simp [hout, hout₂, hout₁], fun chain => .block (hl _) (hds chain)⟩
  | cond hv hty halt _ hclose hemit _ ihb ih =>
    obtain ⟨a, cs, hat, has, hview₁, hout₁, hw⟩ := test_written hi hc hv hty
    have hi₁ := hview₁ ▸ hi.grow has
    obtain ⟨hview₂, hout₂, s, ts, rfl, hts⟩ := hclose.lowers (ihb (Inside.inner hi₁) (counterless_inner _))
    obtain ⟨hview₃, hout₃⟩ := emit_view hemit
    rw [hview₂, hview₁] at hview₃
    obtain ⟨ds, hout, hds⟩ := ih (hview₃ ▸ hi.grow has) (hview₃ ▸ hc.grow has)
    rw [hview₁] at hts
    rw [hview₃] at hds
    exact ⟨cs ++ .branch _ (s.block ts) none :: ds, by simp [hout, hout₃, hout₂, hout₁], fun chain =>
      .cond hat has (hw chain) halt (hts _) (hds chain)⟩
  | condElse hv hty halt _ hclose _ hclose₂ hemit _ ihb ihe ih =>
    obtain ⟨a, cs, hat, has, hview₁, hout₁, hw⟩ := test_written hi hc hv hty
    have hi₁ := hview₁ ▸ hi.grow has
    obtain ⟨hview₂, hout₂, s, ts, rfl, hts⟩ := hclose.lowers (ihb (Inside.inner hi₁) (counterless_inner _))
    rw [hview₁] at hview₂ hts
    have hi₂ := hview₂ ▸ hi.grow has
    obtain ⟨hview₃, hout₃, s', fs, rfl, hfs⟩ := hclose₂.lowers (ihe (Inside.inner hi₂) (counterless_inner _))
    obtain ⟨hview₄, hout₄⟩ := emit_view hemit
    rw [hview₃, hview₂] at hview₄
    obtain ⟨ds, hout, hds⟩ := ih (hview₄ ▸ hi.grow has) (hview₄ ▸ hc.grow has)
    rw [hview₂] at hfs
    rw [hview₄] at hds
    exact ⟨cs ++ .branch _ (s.block ts) (some (s'.block fs)) :: ds, by simp [hout, hout₄, hout₃, hout₂, hout₁],
      fun chain => .condElse hat has (hw chain) halt (hts _) (hfs _) (hds chain)⟩
  | condInit _ hclose hemit _ ihb ih =>
    obtain ⟨hview₁, hout₁, s, cs, rfl, hl⟩ := hclose.lowers (ihb hi.inner (counterless_inner _))
    obtain ⟨hview₂, hout₂⟩ := emit_view hemit
    rw [hview₁] at hview₂
    obtain ⟨ds, hout, hds⟩ := ih (hview₂ ▸ hi) (hview₂ ▸ hc)
    rw [hview₂] at hds
    exact ⟨.block (s.block cs) :: ds, by simp [hout, hout₂, hout₁], fun chain => .condInit (hl _) (hds chain)⟩
  | loop hhead hdecl _ hclose hleaves hemit _ ihb ih =>
    obtain ⟨⟨hm, hout₁⟩, htyped, first, hfirst⟩ := (loopHeader_ok (ready_of false (.empty default) hi hc)).ok hhead
    obtain ⟨a, hat, has, hview₁⟩ := hm.grows
    obtain ⟨rfl, hview, hout⟩ := head_view hdecl
    rw [hview₁] at hview
    have hid := hview ▸ (hi.grow has).head htyped _ _
    obtain ⟨hview', hout', s, cs, rfl, hcs⟩ := hclose.lowers (ihb (Inside.inner hid) (counterless_inner _))
    -- marks apart, the head is as it was when the body was checked
    obtain ⟨hscope, houter⟩ := cons.inj (hview'.trans hview)
    obtain ⟨hview₂, hout₂⟩ := hleaves.view (houter.trans hview₁.symm)
    obtain ⟨hview₃, hout₃⟩ := emit_view hemit
    rw [hview₂, hview₁] at hview₃
    obtain ⟨ds, hout₄, hds⟩ := ih (hview₃ ▸ hi.grow has) (hview₃ ▸ hc.grow has)
    rw [hview] at hcs
    rw [hview₃] at hds
    rw [hout₃, hout₂, hout₁, append_assoc] at hout₄
    refine ⟨_, hout₄, fun chain => ?_⟩
    rw [hout', hout, nil_append, ← Scope.block, ← Scope.unmarked_block, hscope, hview₁]
    exact .loop hfirst hat has htyped rfl rfl (hcs _) (hds chain)

end

end Check

end GameMedia.Shader
