import Mathlib
import GameMedia.Shader.Check.Context

/-!
# Runs of a check

A check that succeeds is a chain of smaller checks that succeed. The lemmas here take such a chain apart, one for each
way in which checks are put together and one for each step that reads or changes the context. Later proofs obtain the
states between the steps from them and never look at the monad.
-/

namespace GameMedia.Shader.Check

variable {α β : Type} {env : Env} {st st' s : State} {pos : Pos} {x : Check α} {f : α → β} {r : α × State} {a : α}
  {b : β} {p : Prop} {u : Unit} {name : String}

/-! ## Putting checks together -/

theorem bind_ok {f : α → Check β} {r : β × State} (h : (x >>= f) env st = .ok r) :
    ∃ (a : α) (st₁ : State), x env st = .ok (a, st₁) ∧ f a env st₁ = .ok r := by
  change (x env st >>= fun p => f p.1 env p.2) = .ok r at h
  cases hx : x env st with
  | error ds =>
    rw [hx] at h
    exact absurd h (by simp [bind, Except.bind])
  | ok p =>
    rw [hx] at h
    exact ⟨p.1, p.2, rfl, h⟩

theorem bind_of_ok {f : α → Check β} (h : x env st = .ok (a, st')) : (x >>= f) env st = f a env st' := by
  show (x env st >>= fun p => f p.1 env p.2) = _
  rw [h]
  rfl

theorem ok_inj {b : α} (h : (Except.ok (a, st) : Except Complaints (α × State)) = .ok (b, st')) : a = b ∧ st = st' :=
  Prod.mk.inj (Except.ok.inj h)

theorem pure_ok {b : α} (h : (pure a : Check α) env st = .ok (b, st')) : a = b ∧ st = st' := ok_inj h

theorem throw_ne_ok : (throw ds : Check α) env st ≠ .ok r := nofun

theorem fail_ne_ok : (fail pos c : Check α) env st ≠ .ok r := throw_ne_ok

theorem ruled_ok {x : Except Complaint α} (h : ruled pos x env st = .ok (a, st')) : x = .ok a ∧ st = st' := by
  cases x with
  | error c => exact absurd h fail_ne_ok
  | ok b =>
    obtain ⟨rfl, rfl⟩ := pure_ok h
    exact ⟨rfl, rfl⟩

theorem bind_pure_ok (h : (x >>= fun a => pure (f a)) env st = .ok (b, st')) :
    ∃ a, x env st = .ok (a, st') ∧ f a = b := by
  obtain ⟨a, st₁, hx, hp⟩ := bind_ok h
  obtain ⟨rfl, rfl⟩ := pure_ok hp
  exact ⟨a, hx, rfl⟩

theorem map_ok (h : (f <$> x) env st = .ok (b, st')) : ∃ a, x env st = .ok (a, st') ∧ f a = b := by
  rw [← bind_pure_comp] at h
  exact bind_pure_ok h

theorem ruled_bind_ok {x : Except Complaint α} {f : α → Check β} {r : β × State}
    (h : (ruled pos x >>= f) env st = .ok r) : ∃ a, x = .ok a ∧ f a env st = .ok r := by
  obtain ⟨a, st₁, hrun, h⟩ := bind_ok h
  obtain ⟨hx, rfl⟩ := ruled_ok hrun
  exact ⟨a, hx, h⟩

theorem ruled_pure_ok {x : Except Complaint α} (h : (ruled pos x >>= fun a => pure (f a)) env st = .ok (b, st')) :
    ∃ a, x = .ok a ∧ f a = b ∧ st = st' := by
  obtain ⟨a, hx, h⟩ := ruled_bind_ok h
  exact ⟨a, hx, pure_ok h⟩

/-- A condition under which a check complains does not hold where it succeeds. -/
theorem ite_fail_ok [Decidable p] (h : (if p then fail pos c else x) env st = .ok r) : ¬p ∧ x env st = .ok r := by
  by_cases hp : p
  · rw [if_pos hp] at h
    exact absurd h fail_ne_ok
  · rw [if_neg hp] at h
    exact ⟨hp, h⟩

theorem ite_else_fail_ok [Decidable p] (h : (if p then x else fail pos c) env st = .ok r) : p ∧ x env st = .ok r := by
  by_cases hp : p
  · rw [if_pos hp] at h
    exact ⟨hp, h⟩
  · rw [if_neg hp] at h
    exact absurd h fail_ne_ok

theorem rule_bind_ok {ε : Type} {x : Except ε α} {f : α → Except ε β} (h : (x >>= f) = .ok b) :
    ∃ a, x = .ok a ∧ f a = .ok b := by
  cases x with
  | error c => cases h
  | ok a => exact ⟨a, rfl, h⟩

theorem rule_ite_ok [Decidable p] {x : Except Complaint α} (h : (if p then x else .error c) = .ok a) :
    p ∧ x = .ok a := by
  by_cases hp : p
  · rw [if_pos hp] at h
    exact ⟨hp, h⟩
  · rw [if_neg hp] at h
    cases h

theorem rule_ite_error_ok [Decidable p] {x : Except Complaint α} (h : (if p then .error c else x) = .ok a) :
    ¬p ∧ x = .ok a := by
  by_cases hp : p
  · rw [if_pos hp] at h
    cases h
  · rw [if_neg hp] at h
    exact ⟨hp, h⟩

/-! ## Steps -/

theorem get_ok (h : (get : Check State) env st = .ok (s, st')) : st = s ∧ st = st' := ok_inj h

theorem get_bind_ok {f : State → Check β} {r : β × State} (h : (get >>= f) env st = .ok r) : f st env st = .ok r := by
  obtain ⟨s, st₁, hs, h⟩ := bind_ok h
  obtain ⟨rfl, rfl⟩ := get_ok hs
  exact h

theorem modify_ok {f : State → State} (h : (modify f : Check Unit) env st = .ok (u, st')) : st' = f st :=
  (ok_inj h).2.symm

theorem set_ok (h : (set s : Check Unit) env st = .ok (u, st')) : s = st' := (ok_inj h).2

theorem globals_ok (h : globals env st = .ok (g, st')) : env.globals = g ∧ st = st' := ok_inj h

theorem frame_ok {f : Frame} (h : frame env st = .ok (f, st')) : env.frame = f ∧ st = st' := ok_inj h

theorem emit_ok {c : Code.Stmt} (h : emit c env st = .ok (u, st')) : st' = { st with out := st.out ++ [c] } :=
  modify_ok h

theorem emitAll_ok (h : emitAll cs env st = .ok (u, st')) : st' = { st with out := st.out ++ cs } :=
  modify_ok h

theorem declare_ok (h : declare v env st = .ok (i, st')) :
    i = st.scope.stop ∧ st' = { st with scope := { st.scope with vars := st.scope.vars ++ [v] } } :=
  (ok_inj h).imp Eq.symm Eq.symm

theorem declareConst_ok {c : NamedConst} (h : declareConst c env st = .ok (u, st')) :
    st' = { st with scope := { st.scope with consts := st.scope.consts ++ [c] } } :=
  modify_ok h

theorem declareType_ok (h : declareType name t env st = .ok (u, st')) :
    st' = { st with scope := { st.scope with types := st.scope.types ++ [(name, t)] } } :=
  modify_ok h

theorem findConst?_ok {r : Option NamedConst} (h : findConst? name env st = .ok (r, st')) :
    (lookupConst? name st.scopes).or (env.globals.consts.find? fun c => c.name == name) = r ∧ st = st' :=
  ok_inj h

theorem findType?_ok {r : Option Ty} (h : findType? name env st = .ok (r, st')) :
    ((lookupType? name st.scopes).or (env.globals.types.lookup name)).or (predeclared? name) = r ∧ st = st' :=
  ok_inj h

theorem builtinNamed?_ok {r : Option Builtin} (h : builtinNamed? name env st = .ok (r, st')) : st = st' := by
  obtain ⟨g, st₁, hg, h⟩ := bind_ok h
  obtain ⟨-, rfl⟩ := globals_ok hg
  replace h := get_bind_ok h
  split at h
  · exact (pure_ok h).2
  · exact (pure_ok h).2

/-- A name that means a variable marks it as used, and nothing else changes. -/
theorem findLocal?_ok {r : Option (Nat × Variable)} (h : findLocal? name env st = .ok (r, st')) :
    lookupVar? name st.scopes = r ∧ st.out = st'.out ∧
      (st.scopes = st'.scopes ∨ useVar name st.scopes = st'.scopes) := by
  replace h := get_bind_ok h
  cases hv : lookupVar? name st.scopes with
  | none =>
    rw [hv] at h
    obtain ⟨rfl, rfl⟩ := pure_ok h
    exact ⟨rfl, rfl, .inl rfl⟩
  | some found =>
    rw [hv] at h
    obtain ⟨u, hm, rfl⟩ := bind_pure_ok h
    have hm := modify_ok hm
    refine ⟨rfl, ?_⟩
    -- marking a variable keeps the number of scopes; the first case only makes the state total
    split at hm
    · subst hm
      exact ⟨rfl, .inl rfl⟩
    · next s ss hu =>
      subst hm
      exact ⟨rfl, .inr hu⟩

theorem checkUnused_ok {s : Scope} (h : checkUnused s env st = .ok (u, st')) : st = st' ∧ s.unused = [] := by
  unfold checkUnused at h
  cases hu : s.unused with
  | nil =>
    rw [hu] at h
    exact ⟨(pure_ok h).2, rfl⟩
  | cons v vs =>
    rw [hu] at h
    exact absurd h throw_ne_ok

/-- A check whose statements are dropped runs as if none were there before. -/
theorem withoutStmts_ok {p : Check α} (h : withoutStmts p env st = .ok ((a, wrote), st')) :
    ∃ st₁, p env { st with out := [] } = .ok (a, st₁) ∧ wrote = !st₁.out.isEmpty ∧ st' = { st₁ with out := st.out }
    := by
  replace h := get_bind_ok h
  obtain ⟨u, st₁, hm, h⟩ := bind_ok h
  have hm := modify_ok hm
  subst hm
  obtain ⟨b, st₁, hp, h⟩ := bind_ok h
  replace h := get_bind_ok h
  obtain ⟨u, st₃, hm, h⟩ := bind_ok h
  have hm := modify_ok hm
  obtain ⟨hr, rfl⟩ := pure_ok h
  obtain ⟨rfl, rfl⟩ := Prod.mk.inj hr
  exact ⟨_, hp, rfl, hm⟩

/-! ## Steps of one kind -/

/-- Where a check succeeds, `R` leads from its first state to its last, and `Q` says what its result is then. -/
def Goes (env : Env) (R : State → State → Prop) (st : State) (p : Check α) (Q : α → State → Prop) : Prop :=
  ∀ a st', p env st = .ok (a, st') → R st st' ∧ Q a st'

section

variable {R : State → State → Prop} {Q Q' : α → State → Prop} {S : β → State → Prop} {k : α → Check β}

theorem Goes.ok (h : Goes env R st x Q) (hx : x env st = .ok (a, st')) : R st st' ∧ Q a st' := h a st' hx

theorem Goes.imp (h : Goes env R st x Q) (hR : ∀ {st'}, R st st' → R' st st')
    (hQ : ∀ a st', R st st' → Q a st' → Q' a st') : Goes env R' st x Q' := by
  intro a st' hx
  obtain ⟨hst, ha⟩ := h.ok hx
  exact ⟨hR hst, hQ a st' hst ha⟩

theorem Goes.weaken (h : Goes env R st x Q) (hQ : ∀ a st', R st st' → Q a st' → Q' a st') : Goes env R st x Q' :=
  h.imp id hQ

theorem goes_fail : Goes env R st (fail pos c : Check α) Q := fun _ _ h => absurd h fail_ne_ok

theorem goes_ite_fail [Decidable p] (h : ¬p → Goes env R st x Q) : Goes env R st (if p then fail pos c else x) Q := by
  intro a st' hx
  obtain ⟨hp, hx⟩ := ite_fail_ok hx
  exact (h hp).ok hx

theorem goes_ite_else_fail [Decidable p] (h : p → Goes env R st x Q) :
    Goes env R st (if p then x else fail pos c) Q := by
  intro a st' hx
  obtain ⟨hp, hx⟩ := ite_else_fail_ok hx
  exact (h hp).ok hx

theorem goes_ite [Decidable p] (h : p → Goes env R st x Q) (h' : ¬p → Goes env R st y Q) :
    Goes env R st (if p then x else y) Q := by
  by_cases hp : p
  · rw [if_pos hp]
    exact h hp
  · rw [if_neg hp]
    exact h' hp

theorem Goes.map (h : Goes env R st x Q) (hf : ∀ a st', Q a st' → S (f a) st') : Goes env R st (f <$> x) S := by
  intro b st' hb
  obtain ⟨a, hx, rfl⟩ := map_ok hb
  exact (h.ok hx).imp_right (hf a st')

/-- Steps of one kind before steps of another that takes them in. -/
theorem Goes.before (h : Goes env R' st x Q)
    (hR : ∀ {st₁ st'}, R' st st₁ → R st₁ st' → R st st')
    (hk : ∀ a st₁, R' st st₁ → Q a st₁ → Goes env R st₁ (k a) S) : Goes env R st (x >>= k) S := by
  intro b st' hb
  obtain ⟨a, st₁, hx, hb⟩ := bind_ok hb
  obtain ⟨hfirst, ha⟩ := h.ok hx
  exact ((hk a st₁ hfirst ha).ok hb).imp_left (hR hfirst)

theorem Goes.bind [IsTrans State R] (h : Goes env R st x Q)
    (hk : ∀ a st₁, R st st₁ → Q a st₁ → Goes env R st₁ (k a) S) : Goes env R st (x >>= k) S :=
  h.before (IsTrans.trans _ _ _) hk

/-- Behind a step that leaves the state alone. -/
theorem Goes.then (h : Goes env Eq st x Q) (hk : ∀ a, Q a st → Goes env R st (k a) S) : Goes env R st (x >>= k) S := by
  refine h.before (fun heq hst => heq ▸ hst) ?_
  rintro a _ rfl ha
  exact hk a ha

theorem Goes.still [Std.Refl R] (h : Goes env Eq st x Q) (hQ : ∀ a, Q a st → Q' a st) : Goes env R st x Q' := by
  intro a st' hx
  obtain ⟨rfl, ha⟩ := h.ok hx
  exact ⟨refl st, hQ a ha⟩

theorem goes_pure [Std.Refl R] (h : Q a st) : Goes env R st (pure a) Q := by
  intro b st' hb
  obtain ⟨rfl, rfl⟩ := pure_ok hb
  exact ⟨refl st, h⟩

theorem goes_ruled {x : Except Complaint α} : Goes env Eq st (ruled pos x) fun a _ => x = .ok a :=
  fun _ _ h => (ruled_ok h).symm

theorem goes_get_bind {k : State → Check β} (h : Goes env R st (k st) S) : Goes env R st (get >>= k) S :=
  fun _ _ hb => h.ok (get_bind_ok hb)

theorem goes_globals_bind {k : Globals → Check β} (h : Goes env R st (k env.globals) S) :
    Goes env R st (globals >>= k) S :=
  Goes.then (fun _ _ hg => (globals_ok hg).symm) fun _ hg => hg ▸ h

theorem goes_frame_bind {k : Frame → Check β} (h : Goes env R st (k env.frame) S) : Goes env R st (frame >>= k) S :=
  Goes.then (fun _ _ hf => (frame_ok hf).symm) fun _ hf => hf ▸ h

/-- What a check gives where it succeeds, whatever it does to the state. -/
abbrev Returns (env : Env) (st : State) (p : Check α) (Q : α → State → Prop) : Prop := Goes env (fun _ _ => True) st p Q

instance : Std.Refl fun _ _ : State => True := ⟨fun _ => trivial⟩

theorem Goes.returns (h : Goes env R st x Q) (hk : ∀ a st₁, R st st₁ → Q a st₁ → Returns env st₁ (k a) S) :
    Returns env st (x >>= k) S :=
  h.before (fun _ _ => trivial) hk

theorem returns_bind (hk : ∀ a st₁, x env st = .ok (a, st₁) → Returns env st₁ (k a) S) :
    Returns env st (x >>= k) S := by
  intro b st' hb
  obtain ⟨a, st₁, hx, hb⟩ := bind_ok hb
  exact (hk a st₁ hx).ok hb

/-- A check that always complains in the end. -/
theorem goes_bind_fail {q : α → Pos} {d : α → Complaint} : Goes env R st (x >>= fun a => fail (q a) (d a)) S := by
  intro b st' hb
  obtain ⟨a, st₁, -, hb⟩ := bind_ok hb
  exact absurd hb fail_ne_ok

end

/-! ## Scopes of their own -/

/-- The state in which a check begins that has a scope of its own. -/
def State.inner (st : State) : State where
  scope := { base := st.scope.stop }
  outer := st.scopes
  out := []

/-- What a check in a scope of its own leaves: the scopes around, and the statements there were. Without a scope around
nothing is claimed; there always is one. -/
def Leaves (st inner st' : State) : Prop := inner.outer ≠ [] → st'.scopes = inner.outer ∧ st'.out = st.out

/-- A block is made of a check in a scope of its own. -/
structure Closes (st inner : State) (b : Code.Block) (st' : State) : Prop where
  block : b = .mk inner.scope.localTypes inner.scope.base inner.out
  unused : inner.scope.unused = []
  leaves : Leaves st inner st'

theorem inScope_ok {p : Check Unit} {s : Scope} (h : inScope p env st = .ok ((s, cs), st')) :
    ∃ inner, p env st.inner = .ok ((), inner) ∧ s = inner.scope ∧ cs = inner.out ∧ Leaves st inner st' := by
  replace h := get_bind_ok h
  obtain ⟨u, st₁, hm, h⟩ := bind_ok h
  have hm : st.inner = st₁ := set_ok hm
  subst hm
  obtain ⟨⟨⟩, inner, hp, h⟩ := bind_ok h
  replace h := get_bind_ok h
  refine ⟨inner, hp, ?_⟩
  unfold Leaves
  cases ho : inner.outer with
  | nil =>
    rw [ho] at h
    obtain ⟨u, hm, hr⟩ := bind_pure_ok h
    obtain ⟨rfl, rfl⟩ := Prod.mk.inj hr
    exact ⟨rfl, rfl, fun hne => absurd rfl hne⟩
  | cons o os =>
    rw [ho] at h
    obtain ⟨u, hm, hr⟩ := bind_pure_ok h
    obtain ⟨rfl, rfl⟩ := Prod.mk.inj hr
    obtain rfl := set_ok hm
    exact ⟨rfl, rfl, fun _ => ⟨rfl, rfl⟩⟩

theorem block_ok {p : Check Unit} {b : Code.Block} (h : block p env st = .ok (b, st')) :
    ∃ inner, p env st.inner = .ok ((), inner) ∧ Closes st inner b st' := by
  obtain ⟨⟨s, cs⟩, st₁, hs, h⟩ := bind_ok h
  obtain ⟨inner, hp, rfl, rfl, hleaves⟩ := inScope_ok hs
  obtain ⟨u, st₂, hu, h⟩ := bind_ok h
  obtain ⟨rfl, hunused⟩ := checkUnused_ok hu
  obtain ⟨rfl, rfl⟩ := pure_ok h
  exact ⟨inner, hp, rfl, hunused, hleaves⟩

end GameMedia.Shader.Check
