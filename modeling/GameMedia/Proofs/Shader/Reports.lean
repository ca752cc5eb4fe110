import GameMedia.Proofs.Shader.References

/-!
# Outcomes of a check

A check either writes statements and gives a result, or it complains. `Yields P p Q` says both at once, from any state:
if `p` succeeds, its result is as `Q` says, and what it has written is added behind what there was and is as `P` says at
any depth; if it fails, there is a complaint. The lemmas follow the ways in which checks are put together, so that a rule
of the checker has its outcome by the outcomes of its steps, and no rule can fail in silence.

Nothing is said about the scopes. What a name means is the matter of sites.
-/

namespace GameMedia.Shader

open List

namespace Code

/-! ## Statements at any depth -/

/-- The statement is of that kind, and so are all that stand in it. -/
def Stmt.All (P : Stmt → Prop) (s : Stmt) : Prop := ∀ chain, ∀ x ∈ s.places chain, P x.2

variable {P P' : Stmt → Prop} {s : Stmt} {b : Block}

theorem Stmt.All.mono (hP : ∀ s, P s → P' s) (h : s.All P) : s.All P' :=
  fun chain x hx => hP x.2 (h chain x hx)

theorem Stmt.IsSimple.all (hs : s.IsSimple) (h : P s) : s.All P := by
  intro chain x hx
  rw [hs.places chain] at hx
  obtain rfl := mem_singleton.mp hx
  exact h

theorem stmtsPlaces_all (h : ∀ s ∈ ss, s.All P) (chain : List Block) :
    ∀ x ∈ stmtsPlaces chain ss, P x.2 := by
  induction ss with
  | nil => exact nofun
  | cons s ss ih =>
    rw [forall_mem_cons] at h
    exact forall_mem_append.mpr ⟨h.1 chain, ih h.2⟩

theorem Block.places_all (h : ∀ s ∈ b.stmts, s.All P) (chain : List Block) : ∀ x ∈ b.places chain, P x.2 := by
  cases b with
  | mk vars offset ss => exact stmtsPlaces_all h _

theorem all_block (h : P (.block b)) (hb : ∀ s ∈ b.stmts, s.All P) : (Stmt.block b).All P :=
  fun chain => forall_mem_cons.mpr ⟨h, Block.places_all hb chain⟩

theorem all_loop (h : P (.loop c b)) (hb : ∀ s ∈ b.stmts, s.All P) : (Stmt.loop c b).All P :=
  fun chain => forall_mem_cons.mpr ⟨h, Block.places_all hb chain⟩

theorem all_branch (h : P (.branch c t f)) (ht : ∀ s ∈ t.stmts, s.All P)
    (hf : ∀ b, f = some b → ∀ s ∈ b.stmts, s.All P) : (Stmt.branch c t f).All P := by
  intro chain
  cases f with
  | none => exact forall_mem_cons.mpr ⟨h, Block.places_all ht chain⟩
  | some b =>
    exact forall_mem_cons.mpr
      ⟨h, forall_mem_append.mpr ⟨Block.places_all ht chain, Block.places_all (hf b rfl) chain⟩⟩

end Code

namespace Check

/-- Where outputs are set to zero, nothing else is done. -/
theorem zeroOutputs_places :
    ∀ x ∈ Code.stmtsPlaces chain (zeroOutputs sig), ∃ i, sig.ins.length ≤ i ∧ x.2 = .init i := by
  refine Code.stmtsPlaces_all (P := fun s => ∃ i, sig.ins.length ≤ i ∧ s = .init i) (fun s hs => ?_) chain
  obtain ⟨i, hi, rfl⟩ := mem_zeroOutputs hs
  exact Code.Stmt.IsSimple.all trivial ⟨i, hi, rfl⟩

variable {α β : Type} {env : Env} {P P' : Code.Stmt → Prop} {Q Q' : α → Prop}
variable {p : Check α} {a : α} {st : State} {ds : Complaints} {c : Prop} {x : Except Complaints α}

/-- **The outcome of a check.** -/
def Yields (env : Env) (P : Code.Stmt → Prop) (p : Check α) (Q : α → Prop) : Prop :=
  ∀ st, match p env st with
    | .ok (a, st') => Q a ∧ ∃ cs, st'.out = st.out ++ cs ∧ ∀ c ∈ cs, c.All P
    | .error ds => ds ≠ []

theorem Yields.ok (h : Yields env P p Q) (hp : p env st = .ok (a, st')) :
    Q a ∧ ∃ cs, st'.out = st.out ++ cs ∧ ∀ c ∈ cs, c.All P := by
  have hst := h st
  rw [hp] at hst
  exact hst

theorem Yields.error (h : Yields env P p Q) (hp : p env st = .error ds) : ds ≠ [] := by
  have hst := h st
  rw [hp] at hst
  exact hst

/-! ## Putting checks together -/

theorem yields_pure (h : Q a) : Yields env P (pure a) Q :=
  fun st => ⟨h, [], (append_nil st.out).symm, nofun⟩

theorem Yields.bind (hp : Yields env P p Q) (hf : ∀ a, Q a → Yields env P (f a) R) :
    Yields env P (p >>= f) R := by
  intro st
  have hbind : (p >>= f) env st = p env st >>= fun r => f r.1 env r.2 := rfl
  rw [hbind]
  cases hrun : p env st with
  | error ds => exact hp.error hrun
  | ok r =>
    obtain ⟨a, st₁⟩ := r
    obtain ⟨ha, cs, hout, hcs⟩ := hp.ok hrun
    change match f a env st₁ with
      | .ok (b, st') => R b ∧ ∃ cs, st'.out = st.out ++ cs ∧ ∀ c ∈ cs, c.All P
      | .error ds => ds ≠ []
    cases hrun' : f a env st₁ with
    | error ds => exact (hf a ha).error hrun'
    | ok r =>
      obtain ⟨hb, ds, hout', hds⟩ := (hf a ha).ok hrun'
      refine ⟨hb, cs ++ ds, by rw [hout', hout, append_assoc], forall_mem_append.mpr ⟨hcs, hds⟩⟩

theorem Yields.imp (h : Yields env P p Q) (hP : ∀ s, P s → P' s) (hQ : ∀ a, Q a → Q' a) : Yields env P' p Q' := by
  intro st
  cases hrun : p env st with
  | error ds => exact h.error hrun
  | ok r =>
    obtain ⟨ha, cs, hout, hcs⟩ := h.ok hrun
    exact ⟨hQ r.1 ha, cs, hout, fun c hc => (hcs c hc).mono hP⟩

theorem Yields.weaken (h : Yields env P p Q) (hQ : ∀ a, Q a → Q' a) : Yields env P p Q' :=
  h.imp (fun _ hs => hs) hQ

theorem Yields.map (h : Yields env P p Q) (hf : ∀ a, Q a → R (f a)) : Yields env P (f <$> p) R := by
  rw [← bind_pure_comp]
  exact h.bind fun a ha => yields_pure (hf a ha)

theorem yields_throw (h : ds ≠ []) : Yields env P (throw ds : Check α) Q := fun _ => h

theorem yields_fail {c : Complaint} : Yields env P (fail pos c : Check α) Q := yields_throw (cons_ne_nil _ _)

theorem yields_ruled {x : Except Complaint α} (h : ∀ a, x = .ok a → Q a) : Yields env P (ruled pos x) Q := by
  cases x with
  | error c => exact yields_fail
  | ok a => exact yields_pure (h a rfl)

theorem yields_single (h : Q a) : Yields env P (pure [a]) fun as => ∀ a ∈ as, Q a :=
  yields_pure (forall_mem_singleton.mpr h)

theorem yields_ruled_single {x : Except Complaint α} (h : ∀ a, x = .ok a → Q a) :
    Yields env P (do return [← ruled pos x]) fun as => ∀ a ∈ as, Q a := (yields_ruled h).bind fun _ => yields_single

/-- One more result before the others. -/
theorem Yields.cons {p : Check (List α)} (h : Yields env P p fun as => ∀ a ∈ as, Q a) (ha : Q a) :
    Yields env P (do return a :: (← p)) fun as => ∀ a ∈ as, Q a :=
  h.bind fun _ has => yields_pure (forall_mem_cons.mpr ⟨ha, has⟩)

theorem yields_ite [Decidable c] (hp : c → Yields env P p Q) (hq : ¬c → Yields env P q Q) :
    Yields env P (if c then p else q) Q := by
  by_cases hc : c
  · rw [if_pos hc]
    exact hp hc
  · rw [if_neg hc]
    exact hq hc

/-- A condition under which a check complains. -/
theorem yields_ite_fail [Decidable c] (hp : ¬c → Yields env P p Q) : Yields env P (if c then fail pos d else p) Q :=
  yields_ite (fun _ => yields_fail) hp

theorem yields_ite_else_fail [Decidable c] (hp : c → Yields env P p Q) : Yields env P (if c then p else fail pos d) Q :=
  yields_ite hp fun _ => yields_fail

/-! ## Steps -/

/-- A step that always succeeds and writes nothing. -/
theorem yields_of_quiet (h : ∀ st, ∃ a st', p env st = .ok (a, st') ∧ st'.out = st.out ∧ Q a) : Yields env P p Q := by
  intro st
  obtain ⟨a, st', hrun, hout, ha⟩ := h st
  rw [hrun]
  exact ⟨ha, [], by rw [hout, append_nil], nofun⟩

theorem yields_get : Yields env P (get : Check State) fun _ => True :=
  yields_of_quiet fun st => ⟨st, st, rfl, rfl, trivial⟩

theorem yields_globals : Yields env P globals fun g => g = env.globals :=
  yields_of_quiet fun st => ⟨env.globals, st, rfl, rfl, rfl⟩

theorem yields_frame : Yields env P frame fun f => f = env.frame :=
  yields_of_quiet fun st => ⟨env.frame, st, rfl, rfl, rfl⟩

theorem yields_modify (h : ∀ st, (f st).out = st.out) :
    Yields env P (modify f : Check Unit) fun _ => True :=
  yields_of_quiet fun st => ⟨(), f st, rfl, h st, trivial⟩

theorem yields_declare (v : Variable) : Yields env P (declare v) fun _ => True :=
  yields_of_quiet fun _ => ⟨_, _, rfl, rfl, trivial⟩

theorem yields_findConst? (name : String) : Yields env P (findConst? name) fun _ => True :=
  yields_of_quiet fun _ => ⟨_, _, rfl, rfl, trivial⟩

theorem yields_findType? (name : String) : Yields env P (findType? name) fun _ => True :=
  yields_of_quiet fun _ => ⟨_, _, rfl, rfl, trivial⟩

theorem yields_findLocal? (name : String) : Yields env P (findLocal? name) fun _ => True := by
  refine yields_get.bind fun st _ => ?_
  cases lookupVar? name st.scopes with
  | none => exact yields_pure trivial
  | some found =>
    refine (yields_modify fun st => ?_).bind fun _ _ => yields_pure trivial
    split
    · rfl
    · rfl

/-- No declaration hides a function that is built in. -/
theorem yields_builtinNamed? (name : String) :
    Yields env P (builtinNamed? name) fun r => r.isSome → env.globals.declaresFunc name = false := by
  refine yields_globals.bind fun g hg => yields_get.bind fun st _ => ?_
  subst hg
  refine yields_ite (fun _ => yields_pure nofun) fun hc => yields_pure fun _ => ?_
  simp only [Bool.or_eq_true, not_or, Bool.not_eq_true] at hc
  exact hc.2

theorem yields_emit {c : Code.Stmt} (h : c.All P) : Yields env P (emit c) fun _ => True :=
  fun _ => ⟨trivial, [c], rfl, fun _ hd => mem_singleton.mp hd ▸ h⟩

theorem yields_emitAll (h : ∀ c ∈ cs, c.All P) : Yields env P (emitAll cs) fun _ => True :=
  fun _ => ⟨trivial, cs, rfl, h⟩

theorem yields_checkUnused (s : Scope) : Yields env P (checkUnused s) fun _ => True := by
  unfold checkUnused
  cases s.unused with
  | nil => exact yields_pure trivial
  | cons v vs => exact yields_throw (cons_ne_nil _ _)

/-- Whatever would be written is dropped. -/
theorem Yields.withoutStmts (h : Yields env P' p Q) : Yields env P (withoutStmts p) fun r => Q r.1 := by
  intro st
  have hrun : Check.withoutStmts p env st =
      p env { st with out := [] } >>= fun r => .ok ((r.1, !r.2.out.isEmpty), { r.2 with out := st.out }) := rfl
  rw [hrun]
  cases hp : p env { st with out := [] } with
  | error ds => exact h.error hp
  | ok r => exact ⟨(h.ok hp).1, [], (append_nil st.out).symm, nofun⟩

/-- The statements there were are put back, with a scope around or without. -/
theorem inScope_eq {p : Check Unit} {inner : State} (hp : p env st.inner = .ok ((), inner)) :
    inScope p env st = match inner.outer with
      | [] => .ok ((inner.scope, inner.out), { st with scope := {} })
      | s :: ss => .ok ((inner.scope, inner.out), ⟨s, ss, st.out⟩) := by
  change (p env st.inner >>= fun _ => _) = _
  rw [hp]
  change (match inner.outer with | [] => _ | s :: ss => _ : Check _) env inner = _
  cases inner.outer with
  | nil | cons s ss => rfl

theorem Yields.inScope {p : Check Unit} {Q : Unit → Prop} (h : Yields env P' p Q) :
    Yields env P (inScope p) fun r => ∀ c ∈ r.2, c.All P' := by
  intro st
  cases hp : p env st.inner with
  | error ds =>
    have hrun : Check.inScope p env st = .error ds := by
      change (p env st.inner >>= fun _ => _) = .error ds
      rw [hp]
      rfl
    rw [hrun]
    exact h.error hp
  | ok r =>
    obtain ⟨⟨⟩, inner⟩ := r
    obtain ⟨-, cs, hout, hcs⟩ := h.ok hp
    have hinner : ∀ c ∈ inner.out, c.All P' := by
      rw [hout]
      exact hcs
    rw [inScope_eq hp]
    cases inner.outer with
    | nil | cons s ss => exact ⟨hinner, [], (append_nil st.out).symm, nofun⟩

theorem Yields.block {p : Check Unit} {Q : Unit → Prop} (h : Yields env P' p Q) :
    Yields env P (block p) fun b => ∀ c ∈ b.stmts, c.All P' :=
  h.inScope.bind fun r hr => (yields_checkUnused r.1).bind fun _ _ => yields_pure hr

/-! ## Outside functions -/

def Explained (x : Except Complaints α) : Prop := ∀ ds, x = .error ds → ds ≠ []

theorem explained_ok (a : α) : Explained (.ok a) := nofun

theorem explained_complain {c : Complaint} : Explained (complain pos c : Except Complaints α) :=
  fun _ h => Except.error.inj h ▸ cons_ne_nil _ _

theorem Explained.bind (hx : Explained x) (hf : ∀ a, x = .ok a → Explained (f a)) :
    Explained (x >>= f) := by
  cases x with
  | error ds => exact fun es h => hx es (congrArg Except.error (Except.error.inj h))
  | ok a => exact hf a rfl

theorem explained_ite [Decidable c] (hx : c → Explained x) (hy : ¬c → Explained y) :
    Explained (if c then x else y) := by
  by_cases hc : c
  · rw [if_pos hc]
    exact hx hc
  · rw [if_neg hc]
    exact hy hc

theorem explained_ite_complain [Decidable c] (hx : ¬c → Explained x) : Explained (if c then complain pos d else x) :=
  explained_ite (fun _ => explained_complain) hx

theorem Yields.explained (h : Yields env P p Q) (st : State) : Explained (p env st) :=
  fun _ hp => h.error hp

end Check

end GameMedia.Shader
