import GameMedia.Proofs.Shader.Meaning

/-!
# Values and the variables that keep them

A statement that stores several values computes all of them first. What is computed for one value is out of sight of the
others: it reads variables of the source and new ones of its own, and writes nothing but the latter. So each value is what
it would be if it were computed alone. Then all values that are not constant go to new variables, and only then anything
is stored to a target.
-/

namespace GameMedia.Shader

open List Option Prod

theorem exists_mem_of_forall₂ (h : List.Forall₂ R as bs) (ha : a ∈ as) : ∃ b ∈ bs, R a b := by
  induction h with
  | nil => cases ha
  | @cons a' b' as bs hab _ ih =>
    rcases mem_cons.mp ha with rfl | ha
    · exact ⟨b', mem_cons_self, hab⟩
    · obtain ⟨b, hb, hr⟩ := ih ha
      exact ⟨b, mem_cons_of_mem _ hb, hr⟩

namespace Code

open Meaning

variable {V : Type} {S : Setting} {M : Meaning V} {ρ ρ' : Vars V} {n m m' m₁ : Nat} {cs ds : List Stmt} {e : Expr}

/-! ## Out of sight -/

/-- Statements that compute something with new variables, those from `m` on and below `m'`. Of the others they read only
those below `n`. -/
structure Computes (S : Setting) (n m m' : Nat) (cs : List Stmt) : Prop where
  straight : ∀ c ∈ cs, c.IsStraight
  writes : ∀ c ∈ cs, ∀ i ∈ c.written S, m ≤ i ∧ i < m'
  reads : ∀ c ∈ cs, ∀ i, .localVar i ∈ c.reads → i < n ∨ m ≤ i

/-- An expression in the variables below `n` and the new ones from `m` on and below `m'`. -/
def Expr.Sees (n m m' : Nat) (e : Expr) : Prop := ∀ i, .localVar i ∈ e.nodes → i < n ∨ m ≤ i ∧ i < m'

/-- The variables below a number, and those from another on. -/
def Around (n m i : Nat) : Prop := i < n ∨ m ≤ i

theorem computes_nil : Computes S n m m' [] := ⟨forall_mem_nil _, forall_mem_nil _, forall_mem_nil _⟩

theorem Computes.append (h : Computes S n m m₁ cs) (h' : Computes S n m₁ m' ds) (hm : m ≤ m₁) (hm' : m₁ ≤ m') :
    Computes S n m m' (cs ++ ds) where
  straight := forall_mem_append.mpr ⟨h.straight, h'.straight⟩
  writes := by
    refine forall_mem_append.mpr ⟨fun c hc i hi => ?_, fun c hc i hi => ?_⟩
    · have hi := h.writes c hc i hi
      omega
    · have hi := h'.writes c hc i hi
      omega
  reads := by
    refine forall_mem_append.mpr ⟨h.reads, fun c hc i hi => ?_⟩
    rcases h'.reads c hc i hi with hlt | hle
    · exact .inl hlt
    · exact .inr (hm.trans hle)

/-- What is computed leaves the variables around it alone. -/
theorem Computes.agree (h : Computes S n m m' cs) (hn : n ≤ m) (ρ : Vars V) :
    Agree (Around n m') (M.effects S cs ρ) ρ := by
  intro i hi
  refine effects_of_notMem fun c hc hw => ?_
  have hw := h.writes c hc i hw
  rcases hi with hi | hi
  · omega
  · omega

theorem Expr.Sees.eval_congr (he : e.Sees n m m') (hD : ∀ i, i < n ∨ m ≤ i ∧ i < m' → D i)
    (h : Agree D ρ ρ') : M.eval ρ e = M.eval ρ' e :=
  Code.eval_congr e fun i hi => h i (hD i (he i hi))

/-- What is computed is the same wherever the variables around are the same. -/
theorem Computes.eval_eq (h : Computes S n m m' cs) (he : e.Sees n m m') (hρ : Agree (Around n m) ρ ρ') :
    M.eval (M.effects S cs ρ) e = M.eval (M.effects S cs ρ') e :=
  he.eval_congr (fun _ hi => hi.imp_right And.left) (hρ.effects h.reads)

/-- Statements that use later variables leave the value of an expression as it is. -/
theorem Computes.eval_later (h : Computes S n m₁ m' cs) (he : e.Sees n m m₁) (hn : n ≤ m₁) (ρ : Vars V) :
    M.eval (M.effects S cs ρ) e = M.eval ρ e := by
  refine he.eval_congr (D := fun i => i < n ∨ i < m₁) (fun i hi => hi.imp_right And.right) fun i hi => ?_
  refine effects_of_notMem fun c hc hw => ?_
  have hw := h.writes c hc i hw
  rcases hi with hi | hi
  · omega
  · omega

/-! ## Assignments that do not meet -/

def assigns (ps : List (Expr × Expr)) : List Stmt := ps.map fun p => .assign p.1 p.2

theorem straight_assigns (ps : List (Expr × Expr)) : ∀ c ∈ assigns ps, c.IsStraight := by
  intro c hc
  obtain ⟨p, -, rfl⟩ := List.mem_map.mp hc
  trivial

theorem written_assigns (h : ∀ p ∈ ps, p.1.root? ≠ some i) : ∀ c ∈ assigns ps, i ∉ c.written S := by
  intro c hc hw
  obtain ⟨p, hp, rfl⟩ := List.mem_map.mp hc
  exact h p hp (mem_toList.mp hw)

/-- Different variables that are not read on the way all get what was meant for them. -/
theorem effects_assigns (h : List.Forall₂ (fun i q => q.1 = .localVar i) is qs) (hnodup : is.Nodup)
    (hread : ∀ q ∈ qs, ∀ i ∈ is, .localVar i ∉ q.2.nodes) :
    List.Forall₂ (fun q i => q.1 = .localVar i ∧ M.effects S (assigns qs) ρ i = M.eval ρ q.2) qs is := by
  induction h generalizing ρ with
  | nil => exact .nil
  | @cons i q is qs hq hqs ih =>
    rw [nodup_cons] at hnodup
    rw [forall_mem_cons] at hread
    have hstep : M.effects S (assigns (q :: qs)) ρ = M.effects S (assigns qs) (Function.update ρ i (M.eval ρ q.2)) := by
      rw [assigns, map_cons, effects_cons, effect, hq, store]
      rfl
    rw [hstep]
    have hrest := ih (ρ := Function.update ρ i (M.eval ρ q.2)) hnodup.2 fun r hr j hj =>
      hread.2 r hr j (mem_cons_of_mem _ hj)
    refine .cons ⟨hq, ?_⟩ (((forall₂_and_left _ _).mpr ⟨hread.2, hrest⟩).imp ?_)
    -- the first one is set, and left alone from then on
    · rw [effects_of_notMem (written_assigns fun r hr hroot => ?_), Function.update_self]
      obtain ⟨j, hj, hrj⟩ := exists_mem_of_forall₂ hqs.flip hr
      rw [hrj] at hroot
      exact hnodup.1 (some.inj hroot ▸ hj)
    -- the others do not read it
    · rintro r j ⟨hr, hrj, heval⟩
      refine ⟨hrj, heval.trans (eval_congr r.2 fun k hk => Function.update_of_ne (fun heq => ?_) _ ρ)⟩
      exact hr i mem_cons_self (heq ▸ hk)

/-! ## Keeping values -/

/-- How targets and the values for them become assignments. A constant is stored as it is. Any other value is kept in a
new variable, and that is stored. The numbers say which variables are new. A target may be a new variable too, and all
other variables in it are below `start`. -/
inductive Kept (start : Nat) : Nat → List (Expr × Expr) → List (Expr × Expr) → List (Expr × Expr) → Nat → Prop
  | nil {b : Nat} : Kept start b [] [] [] b
  | const {b b₁ b' : Nat} {l e : Expr} {ps ts ss : List (Expr × Expr)} : e.constant?.isSome → b ≤ b₁ →
      (∀ i, .localVar i ∈ l.nodes → i < start ∨ b ≤ i ∧ i < b₁) → Kept start b₁ ps ts ss b' →
      Kept start b ((l, e) :: ps) ts ((l, e) :: ss) b'
  | temp {b b₁ b' : Nat} {l e : Expr} {ps ts ss : List (Expr × Expr)} : b < b₁ →
      (∀ i, .localVar i ∈ l.nodes → i < start ∨ b < i ∧ i < b₁) → Kept start b₁ ps ts ss b' →
      Kept start b ((l, e) :: ps) ((.localVar b, e) :: ts) ((l, .localVar b) :: ss) b'

theorem Expr.nodes_of_constant (h : e.constant?.isSome) (i : Nat) : .localVar i ∉ e.nodes := by
  cases e with
  | number c k => simp [Expr.nodes]
  | _ => cases h

theorem Expr.eval_of_constant (h : e.constant?.isSome) (ρ ρ' : Vars V) : M.eval ρ e = M.eval ρ' e :=
  eval_congr e fun i hi => absurd hi (Expr.nodes_of_constant h i)

section

variable {start b b' : Nat} {ps ts ss : List (Expr × Expr)}

/-- The variables that keep values are different and new, and the values are those for targets. -/
theorem Kept.temps (h : Kept start b ps ts ss b') : ∃ is, List.Forall₂ (fun i t => t.1 = .localVar i) is ts ∧ is.Nodup ∧
    (∀ i ∈ is, b ≤ i) ∧ ∀ t ∈ ts, ∃ l, (l, t.2) ∈ ps := by
  induction h with
  | nil => exact ⟨[], .nil, nodup_nil, forall_mem_nil _, forall_mem_nil _⟩
  | const _ hb _ _ ih =>
    obtain ⟨is, his, hnodup, hle, hps⟩ := ih
    exact ⟨is, his, hnodup, fun i hi => hb.trans (hle i hi), fun t ht => (hps t ht).imp fun _ => mem_cons_of_mem _⟩
  | @temp b b₁ b' l e _ _ _ hb _ _ ih =>
    obtain ⟨is, his, hnodup, hle, hps⟩ := ih
    refine ⟨b :: is, .cons rfl his, nodup_cons.mpr ⟨fun hmem => ?_, hnodup⟩,
      forall_mem_cons.mpr ⟨le_rfl, fun i hi => hb.le.trans (hle i hi)⟩,
      forall_mem_cons.mpr ⟨⟨l, mem_cons_self⟩, fun t ht => (hps t ht).imp fun _ => mem_cons_of_mem _⟩⟩
    have hle := hle b hmem
    omega

theorem Kept.le_temp (h : Kept start b ps ts ss b') (hmem : (.localVar i, e) ∈ ts) : b ≤ i := by
  obtain ⟨is, his, -, hle, -⟩ := h.temps
  obtain ⟨j, hj, hij⟩ := exists_mem_of_forall₂ his.flip hmem
  obtain rfl := Expr.localVar.inj hij
  exact hle _ hj

/-- What is stored to a target is the value for it if that is constant, and otherwise the variable that keeps it. -/
theorem Kept.stored (h : Kept start b ps ts ss b') :
    List.Forall₂ (fun p s => s.1 = p.1 ∧ (s.2 = p.2 ∧ p.2.constant?.isSome ∨
      ∃ t, s.2 = .localVar t ∧ (.localVar t, p.2) ∈ ts)) ps ss := by
  induction h with
  | nil => exact .nil
  | const he _ _ _ ih => exact .cons ⟨rfl, .inl ⟨rfl, he⟩⟩ ih
  | temp _ _ _ ih =>
    refine .cons ⟨rfl, .inr ⟨_, rfl, mem_cons_self⟩⟩ (ih.imp fun p s hps => ⟨hps.1, hps.2.imp_right ?_⟩)
    rintro ⟨t, ht, hmem⟩
    exact ⟨t, ht, mem_cons_of_mem _ hmem⟩

/-- No target has a variable in it that keeps a value. -/
theorem Kept.apart (h : Kept start b ps ts ss b') (hb : start ≤ b) :
    ∀ p ∈ ps, ∀ i, .localVar i ∈ p.1.nodes → (i < start ∨ b ≤ i) ∧ ∀ e, (.localVar i, e) ∉ ts := by
  induction h with
  | nil => exact forall_mem_nil _
  | @const b b₁ b' l e ps ts ss _ hbb hl hrest ih =>
    refine forall_mem_cons.mpr ⟨fun i hi => ?_, fun p hp i hi => ?_⟩
    · have hi := hl i hi
      refine ⟨by omega, fun e' hmem => ?_⟩
      have hle := hrest.le_temp hmem
      omega
    · obtain ⟨hi, hnot⟩ := ih (hb.trans hbb) p hp i hi
      exact ⟨by omega, hnot⟩
  | @temp b b₁ b' l e ps ts ss hbb hl hrest ih =>
    refine forall_mem_cons.mpr ⟨fun i hi => ?_, fun p hp i hi => ?_⟩
    · have hi := hl i hi
      refine ⟨by omega, fun e' hmem => ?_⟩
      rcases mem_cons.mp hmem with heq | hmem
      · have heq := Expr.localVar.inj (mk.inj heq).1
        omega
      · have hle := hrest.le_temp hmem
        omega
    · obtain ⟨hi, hnot⟩ := ih (hb.trans hbb.le) p hp i hi
      refine ⟨by omega, fun e' hmem => ?_⟩
      rcases mem_cons.mp hmem with heq | hmem
      · have heq := Expr.localVar.inj (mk.inj heq).1
        omega
      · exact hnot e' hmem

/-- Keeping values changes nothing but the new variables, and these hold the values. -/
theorem Kept.effects_temps (h : Kept start b ps ts ss b')
    (hreads : ∀ p ∈ ps, ∀ i, .localVar i ∈ p.2.nodes → i < b) (ρ : Vars V) :
    (∀ i < b, M.effects S (assigns ts) ρ i = ρ i) ∧
      ∀ t e, (.localVar t, e) ∈ ts → M.effects S (assigns ts) ρ t = M.eval ρ e := by
  obtain ⟨is, his, hnodup, hle, hps⟩ := h.temps
  constructor
  · intro i hi
    refine effects_of_notMem (written_assigns fun t ht hroot => ?_)
    obtain ⟨j, hj, htj⟩ := exists_mem_of_forall₂ his.flip ht
    rw [htj] at hroot
    cases hroot
    have hle := hle i hj
    omega
  · intro t e hmem
    -- the values are in the variables there were, and not in those that keep them
    have hread : ∀ q ∈ ts, ∀ i ∈ is, .localVar i ∉ q.2.nodes := by
      intro q hq i hi hin
      obtain ⟨l, hl⟩ := hps q hq
      have hlt := hreads _ hl i hin
      have hle := hle i hi
      omega
    obtain ⟨i, -, hi, heval⟩ := exists_mem_of_forall₂ (effects_assigns his hnodup hread) hmem
    obtain rfl := Expr.localVar.inj hi
    exact heval

/-- The value that is stored to a target is the one it had before any was kept. -/
theorem Kept.eval_stored (h : Kept start b ps ts ss b')
    (hreads : ∀ p ∈ ps, ∀ i, .localVar i ∈ p.2.nodes → i < b) (ρ : Vars V) :
    List.Forall₂ (fun p s => s.1 = p.1 ∧ M.eval (M.effects S (assigns ts) ρ) s.2 = M.eval ρ p.2 ∧
      ∀ i, .localVar i ∈ s.2.nodes → ∃ e, (.localVar i, e) ∈ ts) ps ss := by
  obtain ⟨-, htemps⟩ := h.effects_temps (S := S) (M := M) hreads ρ
  refine h.stored.imp fun p s hps => ⟨hps.1, ?_⟩
  rcases hps.2 with ⟨hs, hc⟩ | ⟨t, hs, hmem⟩
  · rw [hs]
    exact ⟨Expr.eval_of_constant hc _ _, fun i hi => absurd hi (Expr.nodes_of_constant hc i)⟩
  · rw [hs]
    refine ⟨by rw [eval]; exact htemps t p.2 hmem, fun i hi => ?_⟩
    obtain rfl := Expr.localVar.inj (mem_singleton.mp hi)
    exact ⟨p.2, hmem⟩

/-- **Stores are simultaneous.** Different variables get the values that the expressions for them had at the beginning,
and all other variables stay. -/
theorem Kept.simultaneous {sets : List (Nat × Expr)}
    (h : Kept start b (sets.map fun q => (.localVar q.1, q.2)) ts ss b') (hb : start ≤ b)
    (hnodup : (sets.map fst).Nodup) (hreads : ∀ q ∈ sets, ∀ i, .localVar i ∈ q.2.nodes → i < b) (ρ : Vars V) :
    (∀ q ∈ sets, M.effects S (assigns ts ++ assigns ss) ρ q.1 = M.eval ρ q.2) ∧
      ∀ i < b, i ∉ sets.map fst → M.effects S (assigns ts ++ assigns ss) ρ i = ρ i := by
  have hreads' : ∀ p ∈ sets.map (fun q => ((.localVar q.1, q.2) : Expr × Expr)), ∀ i, .localVar i ∈ p.2.nodes → i < b := by
    intro p hp
    obtain ⟨q, hq, rfl⟩ := List.mem_map.mp hp
    exact hreads q hq
  have hstored := h.eval_stored (S := S) (M := M) hreads' ρ
  obtain ⟨hkeeps, -⟩ := h.effects_temps (S := S) (M := M) hreads' ρ
  have hapart := h.apart hb
  rw [forall₂_map_left_iff] at hstored
  have htargets : List.Forall₂ (fun i s => s.1 = .localVar i) (sets.map fst) ss :=
    forall₂_map_left_iff.mpr (hstored.imp fun _ _ h => h.1)
  -- a target is no variable that keeps a value
  have hread : ∀ s ∈ ss, ∀ i ∈ sets.map fst, .localVar i ∉ s.2.nodes := by
    intro s hs i hi hin
    obtain ⟨-, -, -, -, hnodes⟩ := exists_mem_of_forall₂ hstored.flip hs
    obtain ⟨e, he⟩ := hnodes i hin
    obtain ⟨q, hq, rfl⟩ := List.mem_map.mp hi
    exact (hapart _ (List.mem_map_of_mem hq) q.1 (by simp [Expr.nodes])).2 e he
  refine ⟨fun q hq => ?_, fun i hi hnot => ?_⟩
  · obtain ⟨s, hs, hsq, heval, -⟩ := exists_mem_of_forall₂ hstored hq
    obtain ⟨i, -, hsi, hset⟩ := exists_mem_of_forall₂ (effects_assigns htargets hnodup hread) hs
    obtain rfl := Expr.localVar.inj (hsi.symm.trans hsq)
    rw [effects_append, hset, heval]
  · rw [effects_append, effects_of_notMem (written_assigns fun s hs hroot => ?_), hkeeps i hi]
    obtain ⟨q, hq, hsq, -⟩ := exists_mem_of_forall₂ hstored.flip hs
    rw [hsq] at hroot
    cases hroot
    exact hnot (List.mem_map_of_mem hq)

end

end Code

namespace Check

open Code (Meaning Vars Computes Agree Around Kept assigns)
open Surface (identsAll)

variable {env : Env} {st st₁ st' : State} {ss : List Scope} {e : Surface.Expr} {vs : List Sourced}
  {es rhs : List Surface.Expr} {v : Value} {n : Nat}

/-! ## The values of a statement -/

/-- A context in the middle of a statement. Since it began, in the scopes `ss`, only unnamed variables have come in. -/
structure Midway (env : Env) (ss : List Scope) (st : State) : Prop where
  inside : Inside env st.view
  counterless : Counterless st.view
  nested : Nested ss
  view : ∃ ts, st.view = grow (temps ts) ss

theorem midway_refl (hi : Inside env st.view) (hc : Counterless st.view) : Midway env st.view st :=
  ⟨hi, hc, hi.scopes.nested, [], (grow_empty _).symm⟩

theorem Midway.stop_le (h : Midway env ss st) : stop ss ≤ stop st.view := by
  obtain ⟨ts, hview⟩ := h.view
  rw [hview]
  exact stop_le_grow _ _

theorem Midway.lookup (h : Midway env ss st) (hn : name ≠ "") :
    lookupVar? name st.view = lookupVar? name ss := by
  obtain ⟨ts, hview⟩ := h.view
  rw [hview, lookupVar?_temps ts ss hn]

theorem Midway.moves {K : Site} (h : Midway env ss st) (hm : K.Moves P st st') (hl : Looks st.scopes st'.scopes) :
    Midway env ss st' := by
  obtain ⟨a, -, has, hgrow⟩ := hm.grows
  obtain ⟨ts, hview⟩ := h.view
  obtain ⟨us, hus⟩ := hl.view
  refine ⟨hgrow ▸ h.inside.grow has, hgrow ▸ h.counterless.grow has, h.nested, ts ++ us, ?_⟩
  have hview' : st'.view = grow (temps us) st.view := hus
  rw [hview', hview, grow_grow, temps_append]

/-- An expression is looked at in the middle of a statement. What is computed for it is out of sight, and what it means are
variables of the source and new ones of its own. -/
theorem Midway.sides (h : Midway env ss st) (hn : "" ∉ e.idents)
    (hm : (Site.of env false (.expr e.pos e) st.view).Moves Added.Temps st st') (hh : Hoists env st st') :
    Midway env ss st' ∧
      (∃ cs, st'.out = st.out ++ cs ∧ Computes env.setting (stop ss) (stop st.view) (stop st'.view) cs) ∧
      ∀ i, (Site.of env false (.expr e.pos e) st.view).Meant st'.view i →
        i < stop ss ∨ stop st.view ≤ i ∧ i < stop st'.view := by
  obtain ⟨hl, cs, hout, hcs⟩ := hh
  have h' : Midway env ss st' := h.moves hm hl
  -- what is meant is a variable that a name means from the beginning, or a new one
  have hmeant : ∀ i, (Site.of env false (.expr e.pos e) st.view).Meant st'.view i →
      i < stop ss ∨ stop st.view ≤ i ∧ i < stop st'.view := by
    rintro i ⟨v, ⟨name, hname, hlook⟩ | ⟨hle, hnum, -⟩⟩
    · have hne : name ≠ "" := fun heq => hn (heq ▸ hname)
      have hlook : lookupVar? name st.view = some (i, v) := hlook
      rw [h.lookup hne] at hlook
      exact .inl (h.nested.lt_stop (h.nested.numbered?_of_lookup hlook))
    · exact .inr ⟨hle, h'.inside.scopes.nested.lt_stop hnum⟩
  obtain ⟨ds, hout', hds⟩ := hm.writes
  obtain rfl : cs = ds := append_cancel_left (hout.symm.trans hout')
  refine ⟨h', ⟨cs, hout, fun c hc => (hcs c hc).1, fun c hc i hi => ⟨(hcs c hc).2 i hi, ?_⟩, fun c hc i hi => ?_⟩, hmeant⟩
  · obtain ⟨w, hw, -⟩ := (hds c hc).writable i hi
    exact h'.inside.scopes.nested.lt_stop hw
  · exact (hmeant i ((hds c hc).reads _ hi)).imp_right And.left

/-- A value, as it may be stored, is in variables of the source and in those that were made for it. -/
def Value.Sees (n m m' : Nat) (v : Value) : Prop :=
  ∀ t place c, t.Storable → settle v t place = .ok c → c.Sees n m m'

def Value.Plain (v : Value) : Prop := ∀ w, settleDefault v = .ok w → w.ty.Storable

/-- What is computed for the values of an expression is out of sight. -/
theorem values_sides {vs : List Value} (h : Midway env ss st) (hn : "" ∉ e.idents) (hne : vs ≠ [])
    (hrun : values e env st = .ok (vs, st')) :
    Midway env ss st' ∧ ∃ cs, st'.out = st.out ++ cs ∧
      Computes env.setting (stop ss) (stop st.view) (stop st'.view) cs ∧
      ∀ v ∈ vs, v.Plain ∧ v.Sees (stop ss) (stop st.view) (stop st'.view) := by
  have hr := ready_of false (.expr e.pos e) h.inside h.counterless
  obtain ⟨hm, hok⟩ := (values_ok e (List.Subset.refl _) hr).ok hrun
  obtain ⟨h', ⟨cs, hout, hcs⟩, hmeant⟩ := h.sides hn hm (((values_hoists e).ok hrun).2 hne)
  refine ⟨h', cs, hout, hcs, fun v hv => ⟨fun w hw => (settleDefault_ok rfl (hok v hv) hw).2, fun t place c ht hc i hi => ?_⟩⟩
  exact hmeant i ((settle_good rfl (hok v hv) ht hc).fine _ hi)

/-- A value of an expression where it is checked: what its code gives if nothing but what belongs to it has run. -/
def ValueIn {V : Type} (S : Code.Setting) (M : Meaning V) (env : Env) (st : State) (e : Surface.Expr) (j : Nat) (t : Ty)
    (ρ : Vars V) (x : V) : Prop :=
  ∃ vs st' cs v place c, values e env st = .ok (vs, st') ∧ st'.out = st.out ++ cs ∧ vs[j]? = some v ∧
    settle v t place = .ok c ∧ (M.run S cs ρ).map (fun ρ' => M.eval ρ' c) = some x

/-- The value for the target at a place, if there are so many: that of the expression there, which is checked behind those
before it, or a result of a call. -/
def SideValue {V : Type} (S : Code.Setting) (M : Meaning V) (env : Env) (st : State) (n : Nat)
    (rhs : List Surface.Expr) (k : Nat) (t : Ty) (ρ : Vars V) (x : V) : Prop :=
  if rhs.length = n then
    ∃ vs st₁ e, sourcedValues (rhs.take k) env st = .ok (vs, st₁) ∧ rhs[k]? = some e ∧ ValueIn S M env st₁ e 0 t ρ x
  else ∃ e, rhs = [e] ∧ ValueIn S M env st e k t ρ x

/-- All values of a statement have been computed, by statements that are out of sight of the source. Each value is what
it is if it is computed alone. -/
structure Sided (env : Env) (ss : List Scope) (st st' : State) (n : Nat) (rhs : List Surface.Expr) (vs : List Sourced)
    (cs : List Code.Stmt) : Prop where
  midway : Midway env ss st'
  out : st'.out = st.out ++ cs
  le : stop st.view ≤ stop st'.view
  computes : Computes env.setting (stop ss) (stop st.view) (stop st'.view) cs
  length : vs.length = n
  sees : ∀ p ∈ vs, p.2.Plain ∧ p.2.Sees (stop ss) (stop st.view) (stop st'.view)
  value : ∀ (k : Nat) (p : Sourced), vs[k]? = some p → ∀ t place c, t.Storable → settle p.2 t place = .ok c →
    ∀ {V : Type} (M : Meaning V) (ρ ρ' : Vars V), Agree (Around (stop ss) (stop st.view)) ρ ρ' →
      SideValue env.setting M env st n rhs k t ρ' (M.eval (M.effects env.setting cs ρ) c)

theorem sourcedValues_cons_ok (hv : value e env st = .ok (v, st₁)) (hvs : sourcedValues es env st₁ = .ok (vs, st')) :
    sourcedValues (e :: es) env st = .ok ((e.pos, v) :: vs, st') := by
  simp only [sourcedValues, bind, ReaderT.bind, StateT.bind, Except.bind, hv, hvs]
  rfl

theorem Value.Sees.mono (h : v.Sees n m m') (hk : k ≤ m) (hk' : m' ≤ k') : v.Sees n k k' := by
  intro t place c ht hc i hi
  have hi := h t place c ht hc i hi
  omega

theorem sourcedValues_sides (h : Midway env ss st) (hn : "" ∉ identsAll es)
    (hrun : sourcedValues es env st = .ok (vs, st')) : ∃ cs, Sided env ss st st' es.length es vs cs := by
  induction es generalizing st vs with
  | nil =>
    obtain ⟨rfl, rfl⟩ := pure_ok hrun
    refine ⟨[], h, (append_nil _).symm, le_rfl, Code.computes_nil, rfl, forall_mem_nil _, ?_⟩
    intro k p hk
    cases hk
  | cons e es ih =>
    rw [identsAll, mem_append, not_or] at hn
    obtain ⟨v, st₁, hv, hrun⟩ := bind_ok hrun
    obtain ⟨rest, hrest, rfl⟩ := bind_pure_ok hrun
    obtain ⟨ws, st₂, hws, hone⟩ := bind_ok hv
    obtain ⟨rfl, rfl⟩ := expectOne_ok hone
    obtain ⟨h₁, cs, hout, hcs, hsees⟩ := values_sides h hn.1 (cons_ne_nil _ _) hws
    obtain ⟨ds, hd⟩ := ih h₁ hn.2 hrest
    have hle : stop st.view ≤ stop st₂.view := ((values_hoists e).ok hws).1.stop_le
    obtain ⟨hplain, hv₀⟩ := hsees v mem_cons_self
    refine ⟨cs ++ ds, hd.midway, by rw [hd.out, hout, append_assoc], hle.trans hd.le,
      hcs.append hd.computes hle hd.le, by simp [hd.length], ?_, ?_⟩
    · refine forall_mem_cons.mpr ⟨⟨hplain, hv₀.mono le_rfl hd.le⟩, fun p hp => ?_⟩
      exact ⟨(hd.sees p hp).1, (hd.sees p hp).2.mono hle le_rfl⟩
    · intro k p hk t place c ht hc V M ρ ρ' hρ
      rw [SideValue, if_pos rfl, Code.effects_append]
      cases k with
      | zero =>
        cases hk
        have hc₀ := hv₀ t place c ht hc
        refine ⟨[], st, e, rfl, rfl, [v], st₂, cs, v, place, c, hws, hout, rfl, hc, ?_⟩
        rw [Code.run_eq_effects hcs.straight, map_some, hd.computes.eval_later hc₀ h₁.stop_le,
          hcs.eval_eq hc₀ hρ]
      | succ k =>
        -- what was computed before is out of sight, so the others go on as if it had not run
        have hρ₁ : Agree (Around (stop ss) (stop st₂.view)) (M.effects env.setting cs ρ) ρ' := by
          intro i hi
          rw [hcs.agree h.stop_le ρ i hi]
          exact hρ i (hi.imp_right hle.trans)
        have hside := hd.value k p hk t place c ht hc M _ ρ' hρ₁
        rw [SideValue, if_pos rfl] at hside
        obtain ⟨us, st₃, e', hus, he', hval⟩ := hside
        exact ⟨(e.pos, v) :: us, st₃, e', sourcedValues_cons_ok hv hus, he', hval⟩

theorem callValues_sides {vs : List Value} (h : Midway env ss st) (hn : "" ∉ e.idents) (hne : vs ≠ [])
    (hlen : vs.length ≠ 1) (hrun : values e env st = .ok (vs, st')) :
    ∃ cs, Sided env ss st st' vs.length [e] (vs.map fun v => (e.pos, v)) cs := by
  obtain ⟨h', cs, hout, hcs, hsees⟩ := values_sides h hn hne hrun
  refine ⟨cs, h', hout, ((values_hoists e).ok hrun).1.stop_le, hcs, length_map _, fun p hp => ?_,
    fun k p hk t place c ht hc V M ρ ρ' hρ => ?_⟩
  · obtain ⟨v, hv, rfl⟩ := List.mem_map.mp hp
    exact hsees v hv
  · rw [List.getElem?_map] at hk
    obtain ⟨v, hv, rfl⟩ := map_eq_some_iff.mp hk
    have hlen' : ¬[e].length = vs.length := fun heq => hlen heq.symm
    rw [SideValue, if_neg hlen']
    refine ⟨e, rfl, vs, st', cs, v, place, c, hrun, hout, hv, hc, ?_⟩
    rw [Code.run_eq_effects hcs.straight, map_some,
      hcs.eval_eq ((hsees v (mem_of_getElem? hv)).2 t place c ht hc) hρ]

theorem Gathers.sides (hrun : Gathers env n rhs st vs st') (h : Midway env ss st) (hn : "" ∉ identsAll rhs)
    (h2 : 2 ≤ n) : ∃ cs, Sided env ss st st' n rhs vs cs := by
  rcases hrun with ⟨rfl, hrun⟩ | ⟨e, ws, rfl, hone, hrun, rfl, rfl⟩
  · exact sourcedValues_sides h hn hrun
  · rw [identsAll, identsAll, append_nil] at hn
    exact callValues_sides h hn (length_pos_iff.mp (by omega)) hone hrun

/-! ## The check that keeps values -/

theorem stop_grow (hne : ss ≠ []) (a : Added) : stop (grow a ss) = stop ss + a.vars.length := by
  cases ss with
  | nil => exact absurd rfl hne
  | cons s ss => simp [grow, stop, Scope.stop, Scope.add, Nat.add_assoc]

/-- Where several values are stored, one that is not constant is kept in a new variable. -/
theorem kept_several {e e' : Code.Expr} (h : kept true t e env st = .ok (e', st')) :
    e.constant?.isSome ∧ e' = e ∧ st' = st ∨
      e' = .localVar (stop st.view) ∧ st'.view = grow (temps [t]) st.view ∧
        st'.out = st.out ++ [.assign (.localVar (stop st.view)) e] := by
  unfold kept at h
  cases hc : e.constant? with
  | some c =>
    rw [hc] at h
    obtain ⟨rfl, rfl⟩ := pure_ok h
    exact .inl ⟨rfl, rfl, rfl⟩
  | none =>
    rw [hc] at h
    obtain ⟨i, st₁, ht, h⟩ := bind_ok h
    obtain ⟨rfl, hview, hout⟩ := declare_view ht
    obtain ⟨u, st₂, he, h⟩ := bind_ok h
    obtain rfl := emit_ok he
    obtain ⟨rfl, rfl⟩ := pure_ok h
    refine .inr ⟨rfl, ?_, by rw [hout]⟩
    rw [State.view_with_out, hview]
    rfl

theorem stores_kept (hps : ∀ p ∈ ps, ∀ i, .localVar i ∈ p.1.expr.nodes → i < start)
    (h : stores true ps env st = .ok (cs, st')) :
    ∃ ts qs, Kept start (stop st.view) (ps.map fun p => (p.1.expr, p.2)) ts qs (stop st'.view) ∧
      cs = assigns qs ∧ st'.out = st.out ++ assigns ts := by
  induction ps generalizing st cs with
  | nil =>
    obtain ⟨rfl, rfl⟩ := pure_ok h
    exact ⟨[], [], .nil, rfl, (append_nil _).symm⟩
  | cons p ps ih =>
    rw [forall_mem_cons] at hps
    obtain ⟨e', st₁, hk, h⟩ := bind_ok h
    obtain ⟨rest, hrest, rfl⟩ := bind_pure_ok h
    obtain ⟨ts, qs, hkept, rfl, hout⟩ := ih hps.2 hrest
    rcases kept_several hk with ⟨hc, rfl, rfl⟩ | ⟨rfl, hview, hout₁⟩
    · exact ⟨ts, (p.1.expr, p.2) :: qs, .const hc le_rfl (fun i hi => .inl (hps.1 i hi)) hkept, rfl, hout⟩
    · rw [hview, stop_grow st.view_ne_nil] at hkept
      refine ⟨_, _, .temp (Nat.lt_succ_self _) (fun i hi => .inl (hps.1 i hi)) hkept, rfl, ?_⟩
      rw [hout, hout₁, append_assoc]
      rfl

end Check

end GameMedia.Shader
