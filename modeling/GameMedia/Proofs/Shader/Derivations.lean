import GameMedia.Proofs.Shader.Run
import GameMedia.Shader.Check.Stmt

/-!
# How statements are checked

A check of statements that succeeds is a derivation: each statement is checked where the one before it has ended, and
what a statement has inside is checked in scopes of its own. Results about the checker are inductions over derivations,
with one case for each kind of statement.
-/

namespace GameMedia.Shader

namespace Surface

/-- A statement that opens no scope, and is no group of several declarations. -/
def Stmt.IsSingle : Stmt → Prop
  | .decl g => g.specs.length = 1
  | .block _ | .cond _ _ _ _ _ | .loop _ _ _ _ _ => False
  | _ => True

def Group.split (g : Group) : List Stmt := g.specs.map fun s => .decl { g with specs := [s] }

/-- The statements of the other branch of a condition. -/
def Stmt.branch? : Option Stmt → Option (List Stmt)
  | none => none
  | some (.block (.mk _ ss)) => some ss
  | some s => some [s]

theorem Stmt.eq_none_of_branch? (h : branch? other = none) : other = none := by
  unfold branch? at h
  split at h
  · rfl
  · cases h
  · cases h

theorem Stmt.eq_some_of_branch? (h : branch? other = some alt) :
    (∃ pos, other = some (.block (.mk pos alt))) ∨ ∃ s, other = some s ∧ alt = [s] := by
  unfold branch? at h
  split at h
  · cases h
  · cases h
    exact .inl ⟨_, rfl⟩
  · exact .inr ⟨_, rfl, (Option.some.inj h).symm⟩

end Surface

namespace Check

open Surface (Stmt)

/-- A derivation of statements. What is inside a statement begins in the inner state, and is closed before the rest. -/
inductive Derives (env : Env) : Bool → List Stmt → State → State → Prop
  | nil {inLoop st} : Derives env inLoop [] st st
  | single {inLoop s rest st st₁ st'} :
      s.IsSingle → stmt inLoop s env st = .ok ((), st₁) → Derives env inLoop rest st₁ st' →
      Derives env inLoop (s :: rest) st st'
  | group {inLoop g rest st st'} : Derives env inLoop (g.split ++ rest) st st' →
      Derives env inLoop (.decl g :: rest) st st'
  | block {inLoop pos body rest st inner b st₁ st₂ st'} :
      Derives env inLoop body st.inner inner → Closes st inner b st₁ → emit (.block b) env st₁ = .ok ((), st₂) →
      Derives env inLoop rest st₂ st' → Derives env inLoop (.block (.mk pos body) :: rest) st st'
  | cond {inLoop pos test at₁ body other rest st v st₁ inner b st₂ st₃ st'} :
      value test env st = .ok (v, st₁) → v.ty = .bool → Stmt.branch? other = none →
      Derives env inLoop body st₁.inner inner → Closes st₁ inner b st₂ →
      emit (.branch v.expr b none) env st₂ = .ok ((), st₃) → Derives env inLoop rest st₃ st' →
      Derives env inLoop (.cond pos none test (.mk at₁ body) other :: rest) st st'
  | condElse {inLoop pos test at₁ body other alt rest st v st₁ inner b st₂ inner₂ b₂ st₃ st₄ st'} :
      value test env st = .ok (v, st₁) → v.ty = .bool → Stmt.branch? other = some alt →
      Derives env inLoop body st₁.inner inner → Closes st₁ inner b st₂ →
      Derives env inLoop alt st₂.inner inner₂ → Closes st₂ inner₂ b₂ st₃ →
      emit (.branch v.expr b (some b₂)) env st₃ = .ok ((), st₄) → Derives env inLoop rest st₄ st' →
      Derives env inLoop (.cond pos none test (.mk at₁ body) other :: rest) st st'
  | condInit {inLoop pos first test body other rest st inner b st₁ st₂ st'} :
      Derives env inLoop [first, .cond pos none test body other] st.inner inner → Closes st inner b st₁ →
      emit (.block b) env st₁ = .ok ((), st₂) → Derives env inLoop rest st₂ st' →
      Derives env inLoop (.cond pos (some first) test body other :: rest) st st'
  | loop {inLoop pos init test post at₁ body rest st name namePos c st₁ index head inner b head₁ st₂ st₃ st'} :
      loopHeader pos init test post env st = .ok ((name, namePos, c), st₁) →
      declare ⟨name, c.ty, namePos, .counter⟩ env st₁.inner = .ok (index, head) →
      Derives env true body head.inner inner → Closes head inner b head₁ →
      Leaves st₁ { head₁ with out := head₁.out ++ [.loop { c with index } b] } st₂ →
      emit (.block (.mk head₁.scope.localTypes head₁.scope.base (head₁.out ++ [.loop { c with index } b]))) env st₂ =
        .ok ((), st₃) → Derives env inLoop rest st₃ st' →
      Derives env inLoop (.loop pos init test post (.mk at₁ body) :: rest) st st'

variable {env : Env} {inLoop : Bool} {st st₁ st' : State} {rest : List Stmt} {g : Surface.Group}

/-- A declaration that stands by itself. -/
theorem decl_single (hs : (Stmt.decl g).IsSingle) (h : stmt inLoop (.decl g) env st = .ok ((), st')) :
    ∃ spec, g.specs = [spec] ∧ localSpec g.kind spec env st = .ok ((), st') := by
  obtain ⟨spec, hspec⟩ := List.length_eq_one_iff.mp hs
  obtain ⟨-, h⟩ := ite_fail_ok h
  rw [hspec] at h
  obtain ⟨⟨⟩, st₁, hone, h⟩ := bind_ok h
  obtain ⟨-, rfl⟩ := pure_ok h
  exact ⟨spec, hspec, hone⟩

/-- The declarations of a group are checked as if each stood by itself. -/
theorem derives_specs (hg : g.kind ≠ .imports)
    (h : localSpecs g.kind specs env st = .ok ((), st₁)) (hrest : Derives env inLoop rest st₁ st') :
    Derives env inLoop (Surface.Group.split { g with specs } ++ rest) st st' := by
  induction specs generalizing st with
  | nil =>
    obtain ⟨-, rfl⟩ := pure_ok h
    exact hrest
  | cons spec specs ih =>
    obtain ⟨⟨⟩, st₂, hspec, h⟩ := bind_ok h
    refine .single (s := .decl { g with specs := [spec] }) rfl ?_ (ih h)
    change localDecl { g with specs := [spec] } env st = .ok ((), st₂)
    rw [localDecl, if_neg hg]
    exact bind_of_ok hspec

/-- A condition without a statement before it. The check of the other branch is left open. -/
theorem derives_branches {test : Surface.Expr}
    (alternative : Check (Option Code.Block))
    (hbody : ∀ s s', stmts inLoop body env s = .ok ((), s') → Derives env inLoop body s s')
    (hother : ∀ s s' o, alternative env s = .ok (o, s') → (Stmt.branch? other = none ∧ o = none ∧ s = s') ∨
      ∃ alt inner b, Stmt.branch? other = some alt ∧ o = some b ∧ Derives env inLoop alt s.inner inner ∧
        Closes s inner b s')
    (h : (do
      let c ← value test
      if c.ty ≠ .bool then fail test.pos (.conditionType c.ty)
      else
        let onTrue ← block (stmts inLoop body)
        let onFalse ← alternative
        emit (.branch c.expr onTrue onFalse) : Check Unit) env st = .ok ((), st₁))
    (hrest : Derives env inLoop rest st₁ st') :
    Derives env inLoop (.cond pos none test (.mk at₁ body) other :: rest) st st' := by
  obtain ⟨v, s₁, hv, h⟩ := bind_ok h
  obtain ⟨hty, h⟩ := ite_fail_ok h
  obtain ⟨b, s₂, hb, h⟩ := bind_ok h
  obtain ⟨inner, hrun, hclose⟩ := block_ok hb
  obtain ⟨o, s₃, ho, h⟩ := bind_ok h
  rcases hother s₂ s₃ o ho with ⟨halt, rfl, rfl⟩ | ⟨alt, inner₂, b₂, halt, rfl, hrun₂, hclose₂⟩
  · exact .cond hv (not_not.mp hty) halt (hbody _ _ hrun) hclose h hrest
  · exact .condElse hv (not_not.mp hty) halt (hbody _ _ hrun) hclose hrun₂ hclose₂ h hrest

mutual

/-- **A check of a statement that succeeds begins a derivation.** -/
theorem stmt_derives (s : Stmt) {inLoop : Bool} {st st₁ st' : State} {rest : List Stmt}
    (h : stmt inLoop s env st = .ok ((), st₁)) (hrest : Derives env inLoop rest st₁ st') :
    Derives env inLoop (s :: rest) st st' := by
  cases s with
  | decl g =>
    obtain ⟨hg, h⟩ := ite_fail_ok h
    exact .group (derives_specs hg h hrest)
  | block b =>
    obtain ⟨pos, body⟩ := b
    obtain ⟨b, s₁, hb, h⟩ := bind_ok h
    obtain ⟨inner, hrun, hclose⟩ := block_ok hb
    exact .block (stmts_derives body hrun) hclose h hrest
  | cond pos init test body other =>
    obtain ⟨at₁, body⟩ := body
    -- the condition by itself; a statement before it puts this into a block of its own
    have hbare : ∀ s s₁ s' : State, ∀ rest, stmt inLoop (.cond pos none test (.mk at₁ body) other) env s = .ok ((), s₁) →
        Derives env inLoop rest s₁ s' → Derives env inLoop (.cond pos none test (.mk at₁ body) other :: rest) s s' := by
      intro s s₁ s' rest hrun
      cases other with
      | none =>
        exact derives_branches (pure none) (fun _ _ => stmts_derives body) (fun t t' o ho =>
          .inl ⟨rfl, (pure_ok ho).imp Eq.symm id⟩) hrun
      | some alt =>
        cases alt with
        | block b =>
          obtain ⟨at₂, alt⟩ := b
          refine derives_branches (some <$> block (stmts inLoop alt)) (fun _ _ => stmts_derives body) (fun t t' o ho => ?_)
            hrun
          obtain ⟨b, hb, rfl⟩ := map_ok ho
          obtain ⟨inner, hrun, hclose⟩ := block_ok hb
          exact .inr ⟨alt, inner, b, rfl, rfl, stmts_derives alt hrun, hclose⟩
        | empty _ | decl _ | assign _ _ _ _ | step _ _ _ | expr _ _ | cond _ _ _ _ _ | loop _ _ _ _ _ | range _ _
        | ret _ _ | branch _ _ _ | labeled _ _ | spawn _ _ | defer _ _ | send _ | switch _ | select _ =>
          refine derives_branches (some <$> block (stmt inLoop _)) (fun _ _ => stmts_derives body) (fun t t' o ho => ?_)
            hrun
          obtain ⟨b, hb, rfl⟩ := map_ok ho
          obtain ⟨inner, hrun, hclose⟩ := block_ok hb
          exact .inr ⟨[_], inner, b, rfl, rfl, stmt_derives _ hrun .nil, hclose⟩
    cases init with
    | none => exact hbare st st₁ st' rest h hrest
    | some first =>
      -- The check computes only where the form of the other branch is known.
      have h : (do
          let b ← block (do stmt inLoop first; stmt inLoop (.cond pos none test (.mk at₁ body) other))
          emit (.block b) : Check Unit) env st = .ok ((), st₁) := by
        cases other with
        | none => exact h
        | some alt =>
          cases alt with
          | block b =>
            obtain ⟨at₂, alt⟩ := b
            exact h
          | _ => exact h
      obtain ⟨b, s₁, hb, h⟩ := bind_ok h
      obtain ⟨inner, hrun, hclose⟩ := block_ok hb
      obtain ⟨⟨⟩, s₂, hfirst, hrun⟩ := bind_ok hrun
      exact .condInit (stmt_derives first hfirst (hbare _ _ _ _ hrun .nil)) hclose h hrest
  | loop pos init test post body =>
    obtain ⟨at₁, body⟩ := body
    obtain ⟨⟨name, namePos, c⟩, s₁, hhead, h⟩ := bind_ok h
    obtain ⟨⟨s₀, out⟩, s₂, hscope, h⟩ := bind_ok h
    obtain ⟨inner, hrun, rfl, rfl, hleaves⟩ := inScope_ok hscope
    obtain ⟨index, d, hdecl, hrun⟩ := bind_ok hrun
    obtain ⟨b, d', hb, hrun⟩ := bind_ok hrun
    obtain ⟨inner, hbody, hclose⟩ := block_ok hb
    obtain rfl := emit_ok hrun
    exact .loop hhead hdecl (stmts_derives body hbody) hclose hleaves h hrest
  | empty _ | assign _ _ _ _ | step _ _ _ | expr _ _ | ret _ _ | branch _ _ _ => exact .single trivial h hrest
  | range _ _ | labeled _ _ | spawn _ _ | defer _ _ | send _ | switch _ | select _ => exact absurd h fail_ne_ok

theorem stmts_derives (S : List Stmt) {inLoop : Bool} {st st' : State} (h : stmts inLoop S env st = .ok ((), st')) :
    Derives env inLoop S st st' := by
  cases S with
  | nil =>
    obtain ⟨-, rfl⟩ := pure_ok h
    exact .nil
  | cons s S =>
    obtain ⟨⟨⟩, st₁, hs, h⟩ := bind_ok h
    exact stmt_derives s hs (stmts_derives S h)

end

end Check

end GameMedia.Shader
