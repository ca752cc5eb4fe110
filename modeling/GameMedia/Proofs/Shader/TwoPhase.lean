import GameMedia.Proofs.Shader.Sides
import GameMedia.Proofs.Shader.Visits

/-!
# Assignments in two phases

An assignment of several values is to find out first where each value goes and what it is, both with the variables as they
are where the statement begins, and then to store from left to right. Values are kept for that. Positions are not: they are
evaluated when the store is made. So the two phases come out as long as no position depends on a variable that has been
stored to further left, and they need not otherwise.
-/

namespace GameMedia.Shader

open List Option Prod

namespace Surface

/-- The name of the variable that a target is a part of. -/
def Expr.rootName? : Expr → Option String
  | .ident _ name => some name
  | .paren _ e | .index e _ | .selector e _ => e.rootName?
  | _ => none

def Expr.positionNames : Expr → List String
  | .index b i => b.positionNames ++ i.idents
  | .paren _ e | .selector e _ => e.positionNames
  | _ => []

/-- No name in a position of the second target is that of the first one's variable. -/
def Expr.NamesApart (l l' : Expr) : Prop := ∀ x ∈ l.rootName?, x ∉ l'.positionNames

instance (l l' : Expr) : Decidable (l.NamesApart l') := inferInstanceAs (Decidable (∀ x ∈ l.rootName?, _))

end Surface

namespace Code

variable {V : Type}

/-! ## Parts of variables -/

/-- A step from a value to a part of it. -/
inductive Access (V : Type) where
  | index (position : V)
  | swizzle (letters : String)

/-- A part of a variable, where all positions are known. -/
structure Location (V : Type) where
  root : Nat
  path : List (Access V)

namespace Meaning

variable (M : Meaning V)

/-- The part of a value at the end of a path. -/
def read : List (Access V) → V → V
  | [], v => v
  | .index p :: path, v => read path (M.index v p)
  | .swizzle letters :: path, v => read path (M.swizzle v letters)

/-- A value with another at the end of a path. -/
def put : List (Access V) → V → V → V
  | [], _, x => x
  | .index p :: path, v, x => M.setIndex v p (put path (M.index v p) x)
  | .swizzle letters :: path, v, x => M.setSwizzle v letters (put path (M.swizzle v letters) x)

/-- What an expression stands for as a target. -/
def location? (ρ : Vars V) : Expr → Option (Location V)
  | .localVar i => some ⟨i, []⟩
  | .index b p => (location? ρ b).map fun l => { l with path := l.path ++ [.index (M.eval ρ p)] }
  | .field b (.swizzle letters) => (location? ρ b).map fun l => { l with path := l.path ++ [.swizzle letters] }
  | _ => none

def perform (ρ : Vars V) (u : Location V × V) : Vars V :=
  Function.update ρ u.1.root (M.put u.1.path (ρ u.1.root) u.2)

/-- Stores values one after another. -/
def performs (ρ : Vars V) (us : List (Location V × V)) : Vars V := us.foldl M.perform ρ

end Meaning

open Meaning

variable {S : Setting} {M : Meaning V} {ρ ρ' : Vars V} {e : Expr} {l : Location V}

theorem read_append (path : List (Access V)) (a : Access V) (v : V) : M.read (path ++ [a]) v = M.read [a] (M.read path v) := by
  induction path generalizing v with
  | nil => rfl
  | cons b path ih =>
    cases b with
    | index p | swizzle letters => exact ih _

theorem put_append (path : List (Access V)) (a : Access V) (v x : V) :
    M.put (path ++ [a]) v x = M.put path v (M.put [a] (M.read path v) x) := by
  induction path generalizing v with
  | nil => rfl
  | cons b path ih =>
    cases b with
    | index p | swizzle letters => rw [cons_append, put, put, ih, Meaning.read]

/-- An expression that stands for a part of a variable has its value, and a store to it changes that part. -/
theorem store_of_location (h : M.location? ρ e = some l) :
    e.root? = some l.root ∧ M.eval ρ e = M.read l.path (ρ l.root) ∧ ∀ x, M.store ρ e x = M.perform ρ (l, x) := by
  fun_induction Meaning.location? M ρ e generalizing l with
  | case1 i =>
    cases h
    exact ⟨rfl, rfl, fun x => rfl⟩
  | case2 b p ih | case3 b letters ih =>
    obtain ⟨l₀, hb, rfl⟩ := map_eq_some_iff.mp h
    obtain ⟨hroot, heval, hstore⟩ := ih hb
    refine ⟨hroot, by rw [eval, heval, read_append]; rfl, fun x => ?_⟩
    rw [store, hstore, perform, perform, put_append, heval]
    rfl
  | case4 => cases h

def Expr.positions : Expr → List Expr
  | .index b p => b.positions ++ [p]
  | .field b _ => b.positions
  | _ => []

theorem nodes_of_positions (hp : p ∈ e.positions) : p.nodes ⊆ e.nodes := by
  fun_induction Expr.positions e with
  | case1 b q ih =>
    intro x hx
    rcases mem_append.mp hp with hp | hp
    · simp [Expr.nodes, ih hp hx]
    · obtain rfl := mem_singleton.mp hp
      simp [Expr.nodes, hx]
  | case2 b n ih =>
    intro x hx
    simp [Expr.nodes, ih hp hx]
  | case3 => cases hp

theorem nodes_of_root (h : e.root? = some i) : .localVar i ∈ e.nodes := by
  fun_induction Expr.root? e with
  | case1 j =>
    cases h
    exact mem_singleton.mpr rfl
  | case2 b p ih | case3 b n ih => simp [Expr.nodes, ih h]
  | case4 => cases h

/-- A target stays where it is as long as the variables in its positions do. -/
theorem location?_congr (h : ∀ p ∈ e.positions, ∀ i, .localVar i ∈ p.nodes → ρ i = ρ' i) :
    M.location? ρ e = M.location? ρ' e := by
  fun_induction Meaning.location? M ρ e with
  | case1 i => rfl
  | case2 b p ih =>
    rw [location?, ih fun q hq => h q (mem_append_left _ hq),
      eval_congr p (h p (mem_append_right _ (mem_singleton.mpr rfl)))]
  | case3 b letters ih => rw [location?, ih h]
  | case4 =>
    rw [location?] <;> assumption

/-! ## Stores one after another -/

theorem Agree.performs (h : Agree D ρ ρ') (us : List (Location V × V)) :
    Agree D (M.performs ρ us) (M.performs ρ' us) := by
  induction us generalizing ρ ρ' with
  | nil => exact h
  | cons u us ih =>
    refine ih fun i hi => ?_
    rw [perform, perform]
    by_cases hroot : i = u.1.root
    · rw [hroot, Function.update_self, Function.update_self, h _ (hroot ▸ hi)]
    · rw [Function.update_of_ne hroot, Function.update_of_ne hroot, h i hi]

/-- A store reads nothing later that it changes. -/
def Spares (q q' : Expr × Expr) : Prop :=
  ∀ i, q.1.root? = some i → .localVar i ∉ q'.2.nodes ∧ ∀ p ∈ q'.1.positions, .localVar i ∉ p.nodes

/-- Stores that spare each other have the places and values that they have at the beginning. -/
theorem effects_stores (hsep : qs.Pairwise Spares)
    (h : List.Forall₂ (fun q u => M.location? ρ q.1 = some u.1 ∧ M.eval ρ q.2 = u.2) qs us) :
    M.effects S (assigns qs) ρ = M.performs ρ us := by
  induction qs generalizing ρ us with
  | nil =>
    cases h
    rfl
  | cons q qs ih =>
    obtain ⟨hfirst, hsep⟩ := pairwise_cons.mp hsep
    cases h with
    | @cons _ u _ us hq hrest =>
      obtain ⟨hloc, heval⟩ := hq
      obtain ⟨hroot, -, hstore⟩ := store_of_location hloc
      have hstep : M.effect S ρ (.assign q.1 q.2) = M.perform ρ u := by rw [effect, heval, hstore]
      change M.effects S (assigns qs) (M.effect S ρ (.assign q.1 q.2)) = M.performs (M.perform ρ u) us
      rw [hstep]
      have hsame : ∀ i, i ≠ u.1.root → M.perform ρ u i = ρ i := fun i hi => Function.update_of_ne hi _ ρ
      refine ih hsep (((forall₂_and_left _ _).mpr ⟨hfirst, hrest⟩).imp ?_)
      rintro q' u' ⟨hspares, hloc', heval'⟩
      obtain ⟨hvalue, hpositions⟩ := hspares u.1.root hroot
      constructor
      · rw [← hloc']
        exact location?_congr fun p hp i hi => hsame i fun heq => hpositions p hp (heq ▸ hi)
      · rw [← heval']
        exact eval_congr q'.2 fun i hi => hsame i fun heq => hvalue (heq ▸ hi)

/-- No position in the second target depends on the variable of the first. -/
def Expr.Apart (l l' : Expr) : Prop := ∀ i, l.root? = some i → ∀ p ∈ l'.positions, .localVar i ∉ p.nodes

/-- What is computed for a target leads to the same place, whatever is computed besides. -/
theorem Computes.location?_eq (h : Computes S n m m₁ cs) (h' : Computes S n m₁ m' ds) (hn : n ≤ m₁)
    (he : e.Sees n m m₁) (hρ : Agree (Around n m) ρ ρ') :
    M.location? (M.effects S (cs ++ ds) ρ) e = M.location? (M.effects S cs ρ') e := by
  refine location?_congr fun p hp i hi => ?_
  have hi := he i (nodes_of_positions hp hi)
  have hlater : M.effects S (cs ++ ds) ρ i = M.effects S cs ρ i := by
    rw [effects_append]
    refine effects_of_notMem fun c hc hw => ?_
    have hw := h'.writes c hc i hw
    omega
  rw [hlater]
  exact hρ.effects h.reads i (hi.imp_right And.left)

end Code

namespace Check

open Code (Meaning Vars Computes Agree Around Kept assigns Location)
open Surface (identsAll stmtsSingles)

variable {env : Env} {st st₁ st₂ st' : State} {pos : Pos} {ss : List Scope} {n : Nat} {rhs lhs : List Surface.Expr}
  {cs : List Code.Stmt} {ps ts : List (Value × Code.Expr)} {t : Value} {l : Surface.Expr}

/-! ## Storing -/

theorem stores_single (h : stores false ps env st = .ok (cs, st')) :
    st = st' ∧ cs = assigns (ps.map fun p => (p.1.expr, p.2)) := by
  induction ps generalizing cs with
  | nil =>
    obtain ⟨rfl, rfl⟩ := pure_ok h
    exact ⟨rfl, rfl⟩
  | cons p ps ih =>
    obtain ⟨e, st₁, hk, h⟩ := bind_ok h
    obtain ⟨rfl, rfl⟩ := pure_ok hk
    obtain ⟨rest, hrest, rfl⟩ := bind_pure_ok h
    obtain ⟨rfl, rfl⟩ := ih hrest
    exact ⟨rfl, rfl⟩

theorem forall₂_comp {α β γ : Type} {R : α → β → Prop} {T : α → γ → Prop} {U : β → γ → Prop}
    (hU : ∀ a b c, R a b → T a c → U b c) {as : List α} {bs : List β} {cs : List γ} (h : List.Forall₂ R as bs)
    (h' : List.Forall₂ T as cs) : List.Forall₂ U bs cs := by
  induction h generalizing cs with
  | nil =>
    cases h'
    exact .nil
  | cons hab _ ih =>
    cases h' with
    | cons hac htail => exact .cons (hU _ _ _ hab hac) (ih htail)

/-- **Stores are made from left to right with the values there were before.** -/
theorem stores_performs (hps : ∀ p ∈ ps, (∀ i, .localVar i ∈ p.1.expr.nodes → i < stop st.view) ∧
      ∀ i, .localVar i ∈ p.2.nodes → i < stop st.view) (hapart : (ps.map fun p => p.1.expr).Pairwise Code.Expr.Apart)
    (h : stores (1 < ps.length) ps env st = .ok (cs, st')) :
    ∃ ts, st'.out = st.out ++ assigns ts ∧ (∀ c ∈ assigns ts ++ cs, c.IsStraight) ∧
      ∀ (V : Type) (M : Meaning V) (ρ : Vars V) (us : List (Location V × V)),
        List.Forall₂ (fun p u => M.location? ρ p.1.expr = some u.1 ∧ M.eval ρ p.2 = u.2) ps us →
        Agree (· < stop st.view) (M.effects env.setting (assigns ts ++ cs) ρ) (M.performs ρ us) := by
  by_cases hlen : 1 < ps.length
  · rw [decide_eq_true hlen] at h
    obtain ⟨ts, qs, hkept, rfl, hout⟩ := stores_kept (fun p hp => (hps p hp).1) h
    refine ⟨ts, hout, forall_mem_append.mpr ⟨Code.straight_assigns ts, Code.straight_assigns qs⟩, ?_⟩
    intro V M ρ us hus
    have hreads : ∀ p ∈ ps.map (fun p => (p.1.expr, p.2)), ∀ i, .localVar i ∈ p.2.nodes → i < stop st.view := by
      intro p hp
      obtain ⟨q, hq, rfl⟩ := List.mem_map.mp hp
      exact (hps q hq).2
    obtain ⟨hkeeps, -⟩ := hkept.effects_temps (S := env.setting) (M := M) hreads ρ
    have hstored := hkept.eval_stored (S := env.setting) (M := M) hreads ρ
    rw [forall₂_map_left_iff] at hstored
    have hfst : qs.map fst = ps.map fun p => p.1.expr := by
      have hmaps : List.Forall₂ (fun l l' => l = l') (qs.map fst) (ps.map fun p => p.1.expr) := by
        rw [forall₂_map_left_iff, forall₂_map_right_iff]
        exact hstored.flip.imp fun q p hqp => hqp.1
      rwa [forall₂_eq_eq_eq] at hmaps
    -- no store touches a variable that keeps a value
    have hspares : qs.Pairwise Code.Spares := by
      rw [← hfst, pairwise_map] at hapart
      refine hapart.imp_of_mem fun {q q'} hq hq' hpos i hroot => ⟨fun hi => ?_, hpos i hroot⟩
      obtain ⟨p, hp, hpq⟩ := List.mem_map.mp (hfst ▸ List.mem_map_of_mem hq : q.1 ∈ ps.map fun p => p.1.expr)
      have hlt := (hps p hp).1 i (Code.nodes_of_root (hpq ▸ hroot))
      obtain ⟨p', -, -, -, hnodes⟩ := exists_mem_of_forall₂ hstored.flip hq'
      obtain ⟨e, he⟩ := hnodes i hi
      have hle := hkept.le_temp he
      omega
    have hus := (forall₂_and_left _ _).mpr ⟨hps, hus⟩
    rw [Code.effects_append, Code.effects_stores hspares (forall₂_comp ?_ hstored hus)]
    · exact Agree.performs (fun i hi => hkeeps i hi) us
    · rintro p q u ⟨hq, heval, -⟩ ⟨⟨hnodes, -⟩, hloc, hu⟩
      refine ⟨?_, heval.trans hu⟩
      rw [hq, ← hloc]
      exact Code.location?_congr fun x hx i hi => hkeeps i (hnodes i (Code.nodes_of_positions hx hi))
  · rw [decide_eq_false hlen] at h
    obtain ⟨rfl, rfl⟩ := stores_single h
    refine ⟨[], (append_nil _).symm, Code.straight_assigns _, fun V M ρ us hus => ?_⟩
    have hspares : (ps.map fun p => (p.1.expr, p.2)).Pairwise Code.Spares := by
      rcases ps with _ | ⟨p, _ | ⟨p', ps⟩⟩
      · exact List.Pairwise.nil
      · exact pairwise_singleton _ _
      · exact absurd hlen (by simp)
    have heffects := Code.effects_stores (S := env.setting) hspares (forall₂_map_left_iff.mpr hus)
    intro i hi
    exact congrFun heffects i

/-! ## Finding the places -/

theorem swizzle_expr (h : swizzle b letters written = .ok t) :
    t.expr = .field b.expr (.swizzle letters) := by
  obtain ⟨u, -, rfl⟩ := swizzle_cases h
  rfl

theorem target_location (e : Surface.Expr) (M : Meaning V) (ρ : Vars V) :
    Goes env (Hoists env) st (target e) fun t _ => ∃ l, M.location? ρ t.expr = some l := by
  cases e with
  | paren pos e =>
    rw [target]
    exact target_location e M ρ
  | ident pos name =>
    rw [target]
    refine namedTarget_lookup.weaken fun v _ _ hv => ?_
    obtain ⟨i, w, -, rfl⟩ := hv
    exact ⟨⟨i, []⟩, rfl⟩
  | index base i =>
    rw [target]
    refine (target_location base M ρ).bind fun b _ _ hb => ?_
    obtain ⟨l, hl⟩ := hb
    split
    · exact goes_fail
    · exact value_hoists.bind fun _ _ _ _ => goes_ruled.then fun _ _ => goes_pure
        ⟨_, by rw [Value.expr, Meaning.location?, hl]; rfl⟩
  | selector base name =>
    rw [target]
    refine (target_location base M ρ).bind fun b _ _ hb => goes_ruled.still fun v hv => ?_
    obtain ⟨l, hl⟩ := hb
    exact ⟨_, by rw [swizzle_expr hv, Meaning.location?, hl]; rfl⟩
  | _ => exact goes_fail

/-- Where values go and what they are, for the targets from a place of the list on. A target is looked at behind the values
and the targets before it, and its positions are what they are if nothing but what belongs to it has run. -/
inductive Prepared {V : Type} (S : Code.Setting) (M : Meaning V) (env : Env) (start : State) (n : Nat)
    (rhs : List Surface.Expr) (ρ : Vars V) : Nat → State → List Surface.Expr → List (Location V × V) → Prop
  | nil {k : Nat} {st : State} : Prepared S M env start n rhs ρ k st [] []
  | blank {k : Nat} {st : State} {l : Surface.Expr} {ls : List Surface.Expr} {us : List (Location V × V)} :
      l.name? = some "_" → Prepared S M env start n rhs ρ (k + 1) st ls us →
      Prepared S M env start n rhs ρ k st (l :: ls) us
  | target {k : Nat} {st st' : State} {l : Surface.Expr} {ls : List Surface.Expr} {us : List (Location V × V)} {t : Value}
      {cs : List Code.Stmt} {u : Location V × V} : l.name? ≠ some "_" → target l env st = .ok (t, st') →
      st'.out = st.out ++ cs → (M.run S cs ρ).bind (fun ρ' => M.location? ρ' t.expr) = some u.1 →
      SideValue S M env start n rhs k t.ty ρ u.2 → Prepared S M env start n rhs ρ (k + 1) st' ls us →
      Prepared S M env start n rhs ρ k st (l :: ls) (u :: us)

/-- Targets are looked at out of sight. -/
theorem target_sides (h : Midway env ss st) (hn : "" ∉ l.idents) (hrun : target l env st = .ok (t, st')) :
    Midway env ss st' ∧ ∃ cs, st'.out = st.out ++ cs ∧
      Computes env.setting (stop ss) (stop st.view) (stop st'.view) cs ∧
      t.expr.Sees (stop ss) (stop st.view) (stop st'.view) ∧ t.ty.Storable := by
  have hr := ready_of false (.expr l.pos l) h.inside h.counterless
  obtain ⟨hm, hgood, hst, -⟩ := (target_ok l (List.Subset.refl _) hr).ok hrun
  obtain ⟨h', ⟨cs, hout, hcs⟩, hmeant⟩ := h.sides hn hm ((target_hoists l).ok hrun).1
  exact ⟨h', cs, hout, hcs, fun i hi => hmeant i (hgood.fine _ hi), hst⟩

/-- All targets of an assignment have been looked at. What the stores need is in the variables there are, and leads to the
places and values that were to be prepared. -/
structure Aimed (env : Env) (ss : List Scope) (st st' : State) (ps : List (Surface.Expr × Sourced))
    (ts : List (Value × Code.Expr)) (cs : List Code.Stmt) : Prop where
  midway : Midway env ss st'
  out : st'.out = st.out ++ cs
  le : stop st.view ≤ stop st'.view
  computes : Computes env.setting (stop ss) (stop st.view) (stop st'.view) cs
  below : ∀ q ∈ ts, (∀ i, .localVar i ∈ q.1.expr.nodes → i < stop st'.view) ∧
    ∀ i, .localVar i ∈ q.2.nodes → i < stop st'.view
  prepared : ∀ {V : Type} (M : Meaning V) (start : State) (n k : Nat) (rhs : List Surface.Expr) (σ ρ : Vars V),
    Agree (Around (stop ss) (stop st.view)) σ ρ →
    (∀ (j : Nat) (p : Surface.Expr × Sourced), ps[j]? = some p → ∀ t place c, t.Storable →
      settle p.2.2 t place = .ok c → SideValue env.setting M env start n rhs (k + j) t ρ (M.eval σ c)) →
    ∃ us, Prepared env.setting M env start n rhs ρ k st (ps.map Prod.fst) us ∧
      List.Forall₂ (fun q u => M.location? (M.effects env.setting cs σ) q.1.expr = some u.1 ∧
        M.eval (M.effects env.setting cs σ) q.2 = u.2) ts us

theorem targets_aimed {ps : List (Surface.Expr × Sourced)} (h : Midway env ss st)
    (hn : ∀ p ∈ ps, "" ∉ p.1.idents) (hsees : ∀ p ∈ ps, p.2.2.Sees (stop ss) m (stop st.view))
    (hrun : targets ps env st = .ok (ts, st')) : ∃ cs, Aimed env ss st st' ps ts cs := by
  induction ps generalizing st ts with
  | nil =>
    obtain ⟨rfl, rfl⟩ := pure_ok hrun
    exact ⟨[], h, (append_nil _).symm, le_rfl, Code.computes_nil, forall_mem_nil _,
      fun M start n k rhs σ ρ hσ hvalues => ⟨[], .nil, .nil⟩⟩
  | cons p ps ih =>
    obtain ⟨l, pos, v⟩ := p
    rw [forall_mem_cons] at hn hsees
    rw [targets] at hrun
    by_cases hblank : l.name? = some "_"
    · rw [if_pos hblank] at hrun
      obtain ⟨w, -, hrun⟩ := ruled_bind_ok hrun
      obtain ⟨cs, ha⟩ := ih h hn.2 hsees.2 hrun
      refine ⟨cs, ha.midway, ha.out, ha.le, ha.computes, ha.below, fun M start n k rhs σ ρ hσ hvalues => ?_⟩
      obtain ⟨us, hus, hall⟩ := ha.prepared M start n (k + 1) rhs σ ρ hσ fun j p hp => by
        rw [Nat.add_assoc, Nat.add_comm 1 j]
        exact hvalues (j + 1) p hp
      exact ⟨us, .blank hblank hus, hall⟩
    · rw [if_neg hblank] at hrun
      obtain ⟨t, st₁, ht, hrun⟩ := bind_ok hrun
      obtain ⟨h₁, cs, hout, hcs, htsees, hst⟩ := target_sides h hn.1 ht
      have hle : stop st.view ≤ stop st₁.view := ((target_hoists l).ok ht).1.looks.stop_le
      obtain ⟨e, he, hrun⟩ := ruled_bind_ok hrun
      obtain ⟨rest, hrest, rfl⟩ := bind_pure_ok hrun
      obtain ⟨ds, ha⟩ := ih h₁ hn.2 (fun p hp => (hsees.2 p hp).mono le_rfl hle) hrest
      have hcomputes := hcs.append ha.computes hle ha.le
      have hesees : e.Sees (stop ss) m (stop st.view) := hsees.1 t.ty .assignment e hst he
      have hstop := ha.midway.stop_le
      refine ⟨cs ++ ds, ha.midway, by rw [ha.out, hout, append_assoc], hle.trans ha.le, hcomputes,
        forall_mem_cons.mpr ⟨⟨fun i hi => ?_, fun i hi => ?_⟩, ha.below⟩, fun M start n k rhs σ ρ hσ hvalues => ?_⟩
      · have hi := htsees i hi
        have hle := ha.le
        omega
      · have hi := hesees i hi
        have hle := ha.le
        omega
      · -- what was computed for this target is out of sight of the others
        have hσ₁ : Agree (Around (stop ss) (stop st₁.view)) (M.effects env.setting cs σ) ρ := by
          intro i hi
          rw [hcs.agree h.stop_le σ i hi]
          exact hσ i (hi.imp_right hle.trans)
        obtain ⟨us, hus, hall⟩ := ha.prepared M start n (k + 1) rhs _ ρ hσ₁ fun j p hp t place c htst hc => by
          have hc' := (hsees.2 p (mem_of_getElem? hp)) t place c htst hc
          rw [hcs.eval_later hc' h.stop_le, Nat.add_assoc, Nat.add_comm 1 j]
          exact hvalues (j + 1) p hp t place c htst hc
        obtain ⟨-, loc, hloc⟩ := (target_location l M (M.effects env.setting cs ρ)).ok ht
        refine ⟨(loc, M.eval σ e) :: us, .target hblank ht hout ?_ ?_ hus, .cons ⟨?_, ?_⟩ ?_⟩
        · rw [Code.run_eq_effects hcs.straight]
          exact hloc
        · exact hvalues 0 _ rfl t.ty .assignment e hst he
        · rw [← hloc]
          exact hcs.location?_eq ha.computes h₁.stop_le htsees hσ
        · exact hcomputes.eval_later hesees h.stop_le σ
        · rwa [Code.effects_append]

/-! ## Assignments -/

/-- Where targets are looked at, no position in one of them depends on the variable of one further left. -/
def Steady (env : Env) (pos : Pos) (lhs rhs : List Surface.Expr) (st : State) : Prop :=
  ∀ vs st₁ ts st₂, valuesFor pos lhs.length rhs env st = .ok (vs, st₁) → targets (lhs.zip vs) env st₁ = .ok (ts, st₂) →
    (ts.map fun q => q.1.expr).Pairwise Code.Expr.Apart

/-- Code that was written for an assignment works in two phases: all places and values are found out with the variables as
they are at the beginning, and then the stores are made from left to right. -/
def TwoPhase (env : Env) (pos : Pos) (lhs rhs : List Surface.Expr) (st : State) (cs : List Code.Stmt) : Prop :=
  ∀ (V : Type) (M : Meaning V) (ρ : Vars V), ∃ ρ' vs st₁ us, M.run env.setting cs ρ = some ρ' ∧
    valuesFor pos lhs.length rhs env st = .ok (vs, st₁) ∧
    Prepared env.setting M env st lhs.length rhs ρ 0 st₁ lhs us ∧ ∀ i < stop st.view, ρ' i = M.performs ρ us i

/-- **A steady assignment works in two phases.** -/
theorem assign_twoPhase (hi : Inside env st.view) (hc : Counterless st.view) (hl : "" ∉ identsAll lhs)
    (hr : "" ∉ identsAll rhs) (h2 : 2 ≤ lhs.length) (hsteady : Steady env pos lhs rhs st)
    (h : assign pos lhs rhs env st = .ok ((), st')) :
    ∃ code, st'.out = st.out ++ code ∧ TwoPhase env pos lhs rhs st code := by
  obtain ⟨vs, st₁, hvs, h⟩ := bind_ok h
  obtain ⟨cs, hsided⟩ := (valuesFor_gathers hvs).sides (midway_refl hi hc) hr h2
  obtain ⟨ts, st₂, hts, h⟩ := bind_ok h
  have hnames : ∀ p ∈ lhs.zip vs, "" ∉ p.1.idents := fun p hp hmem =>
    hl (idents_subset_of_mem (of_mem_zip hp).1 hmem)
  obtain ⟨ds, haimed⟩ := targets_aimed hsided.midway hnames
    (fun p hp => (hsided.sees p.2 (of_mem_zip hp).2).2) hts
  obtain ⟨qs, st₃, hqs, h⟩ := bind_ok h
  obtain ⟨us, hout₃, hstraight, hperforms⟩ := stores_performs haimed.below (hsteady vs st₁ ts st₂ hvs hts) hqs
  obtain rfl := emitAll_ok h
  refine ⟨cs ++ ds ++ (assigns us ++ qs), by simp [hout₃, haimed.out, hsided.out], fun V M ρ => ?_⟩
  have hstraight' : ∀ c ∈ cs ++ ds ++ (assigns us ++ qs), c.IsStraight :=
    forall_mem_append.mpr ⟨forall_mem_append.mpr ⟨hsided.computes.straight, haimed.computes.straight⟩, hstraight⟩
  -- the values have been computed where the targets are looked at
  have hagree : Agree (Around (stop st.view) (stop st₁.view)) (M.effects env.setting cs ρ) ρ :=
    hsided.computes.agree le_rfl ρ
  obtain ⟨ups, hprepared, hall⟩ := haimed.prepared M st lhs.length 0 rhs (M.effects env.setting cs ρ) ρ hagree
    (fun j p hp t place c ht hcs => by
      rw [Nat.zero_add]
      exact hsided.value j p.2 (List.getElem?_zip_eq_some.mp hp).2 t place c ht hcs M ρ ρ fun _ _ => rfl)
  rw [map_fst_zip (by rw [hsided.length])] at hprepared
  refine ⟨_, vs, st₁, ups, Code.run_eq_effects hstraight', hvs, hprepared, fun i hi => ?_⟩
  have hle : stop st.view ≤ stop st₂.view := haimed.midway.stop_le
  have hmid : Agree (· < stop st.view) (M.effects env.setting ds (M.effects env.setting cs ρ)) ρ := by
    intro j hj
    rw [haimed.computes.agree hsided.midway.stop_le _ j (.inl hj), hagree j (.inl hj)]
  have hfinal := hperforms V M _ ups hall i (hi.trans_le hle)
  simp only [Code.effects_append] at hfinal ⊢
  rw [hfinal]
  exact hmid.performs ups i hi

/-- The variable of a target is the one that its name means, and its positions are in variables that names in them mean and
in new ones. -/
structure Named (ss : List Scope) (l : Surface.Expr) (e : Code.Expr) : Prop where
  root : ∀ i, e.root? = some i → ∃ x v, l.rootName? = some x ∧ lookupVar? x ss = some (i, v)
  positions : ∀ p ∈ e.positions, ∀ i, .localVar i ∈ p.nodes →
    (∃ x ∈ l.positionNames, ∃ v, lookupVar? x ss = some (i, v)) ∨ stop ss ≤ i

theorem target_named (l : Surface.Expr) {st st' : State} {t : Value} (h : Midway env ss st) (hn : "" ∉ l.idents)
    (hrun : target l env st = .ok (t, st')) : Named ss l t.expr := by
  cases l with
  | paren pos e =>
    rw [target] at hrun
    obtain ⟨hroot, hpos⟩ := target_named e h hn hrun
    exact ⟨hroot, hpos⟩
  | ident pos name =>
    rw [target] at hrun
    obtain ⟨-, i, w, hlook, rfl⟩ := namedTarget_lookup.ok hrun
    have hname : name ≠ "" := fun heq => hn (by simp [Surface.Expr.idents, heq])
    rw [h.lookup hname] at hlook
    refine ⟨fun j hj => ?_, forall_mem_nil _⟩
    cases hj
    exact ⟨name, w, rfl, hlook⟩
  | index base e =>
    rw [target] at hrun
    rw [Surface.Expr.idents, mem_append, not_or] at hn
    obtain ⟨b, st₁, hb, hrun⟩ := bind_ok hrun
    obtain ⟨hroot, hpos⟩ := target_named base h hn.1 hb
    obtain ⟨h₁, -⟩ := target_sides h hn.1 hb
    cases helems : elements? b.ty with
    | none =>
      rw [helems] at hrun
      exact absurd hrun fail_ne_ok
    | some p =>
      obtain ⟨elem, n⟩ := p
      rw [helems] at hrun
      obtain ⟨w, st₂, hw, hrun⟩ := bind_ok hrun
      have hr := ready_of false (.expr e.pos e) h₁.inside h₁.counterless
      obtain ⟨-, hwok⟩ := (value_ok (List.Subset.refl _) hr).ok hw
      obtain ⟨q, hq, rfl, rfl⟩ := ruled_pure_ok hrun
      refine ⟨hroot, forall_mem_append.mpr ⟨fun p hp i hi => ?_, forall_mem_singleton.mpr fun i hi => ?_⟩⟩
      · refine (hpos p hp i hi).imp_left ?_
        rintro ⟨x, hx, hv⟩
        exact ⟨x, mem_append_left _ hx, hv⟩
      · rcases (position_good rfl hwok hq).fine _ hi with ⟨v, ⟨name, hname, hlook⟩ | ⟨hle, -⟩⟩
        · have hne : name ≠ "" := fun heq => hn.2 (heq ▸ hname)
          have hlook : lookupVar? name st₁.view = some (i, v) := hlook
          rw [h₁.lookup hne] at hlook
          exact .inl ⟨name, mem_append_right _ hname, v, hlook⟩
        · exact .inr (h₁.stop_le.trans hle)
  | selector base name =>
    rw [target] at hrun
    obtain ⟨b, st₁, hb, hrun⟩ := bind_ok hrun
    obtain ⟨hroot, hpos⟩ := target_named base h hn hb
    obtain ⟨hv, rfl⟩ := ruled_ok hrun
    rw [swizzle_expr hv]
    exact ⟨hroot, hpos⟩
  | _ => exact absurd hrun fail_ne_ok

theorem Named.apart (hss : Nested ss) (h : Named ss l e) (h' : Named ss l' e') (hnames : l.NamesApart l') : e.Apart e' := by
  intro i hroot p hp hi
  obtain ⟨x, v, hx, hv⟩ := h.root i hroot
  have hnum := hss.numbered?_of_lookup hv
  rcases h'.positions p hp i hi with ⟨y, hy, w, hw⟩ | hle
  -- one variable has one name
  · have hvw : v = w := some.inj (hnum.symm.trans (hss.numbered?_of_lookup hw))
    have hxy : x = y := by rw [← lookupVar?_name hv, ← lookupVar?_name hw, hvw]
    exact hnames x hx (hxy ▸ hy)
  · have hlt := hss.lt_stop hnum
    omega

theorem targets_apart {ps : List (Surface.Expr × Sourced)} (h : Midway env ss st) (hn : ∀ p ∈ ps, "" ∉ p.1.idents)
    (hnames : (ps.map fst).Pairwise Surface.Expr.NamesApart) (hrun : targets ps env st = .ok (ts, st')) :
    (∀ q ∈ ts, ∃ l ∈ ps.map fst, Named ss l q.1.expr) ∧ (ts.map fun q => q.1.expr).Pairwise Code.Expr.Apart := by
  induction ps generalizing st ts with
  | nil =>
    obtain ⟨rfl, rfl⟩ := pure_ok hrun
    exact ⟨forall_mem_nil _, .nil⟩
  | cons p ps ih =>
    obtain ⟨l, pos, v⟩ := p
    rw [forall_mem_cons] at hn
    rw [map_cons, pairwise_cons] at hnames
    rw [targets] at hrun
    by_cases hblank : l.name? = some "_"
    · rw [if_pos hblank] at hrun
      obtain ⟨w, -, hrun⟩ := ruled_bind_ok hrun
      obtain ⟨hall, hpair⟩ := ih h hn.2 hnames.2 hrun
      refine ⟨fun q hq => ?_, hpair⟩
      obtain ⟨l', hl', hnamed⟩ := hall q hq
      exact ⟨l', mem_cons_of_mem _ hl', hnamed⟩
    · rw [if_neg hblank] at hrun
      obtain ⟨t, st₁, ht, hrun⟩ := bind_ok hrun
      obtain ⟨h₁, -⟩ := target_sides h hn.1 ht
      obtain ⟨e, -, hrun⟩ := ruled_bind_ok hrun
      obtain ⟨rest, hrest, rfl⟩ := bind_pure_ok hrun
      obtain ⟨hall, hpair⟩ := ih h₁ hn.2 hnames.2 hrest
      have hfirst : Named ss l t.expr := target_named l h hn.1 ht
      refine ⟨forall_mem_cons.mpr ⟨⟨l, mem_cons_self, hfirst⟩, fun q hq => ?_⟩, ?_⟩
      · obtain ⟨l', hl', hnamed⟩ := hall q hq
        exact ⟨l', mem_cons_of_mem _ hl', hnamed⟩
      · rw [map_cons, pairwise_cons]
        refine ⟨fun e' he' => ?_, hpair⟩
        obtain ⟨q, hq, rfl⟩ := List.mem_map.mp he'
        obtain ⟨l', hl', hnamed⟩ := hall q hq
        exact hfirst.apart h.nested hnamed (hnames.1 l' hl')

/-- An assignment is steady if no name in a position of a target is that of a variable further left. -/
theorem steady_of_names (hi : Inside env st.view) (hc : Counterless st.view) (hl : "" ∉ identsAll lhs)
    (hr : "" ∉ identsAll rhs) (h2 : 2 ≤ lhs.length) (hnames : lhs.Pairwise Surface.Expr.NamesApart) :
    Steady env pos lhs rhs st := by
  intro vs st₁ ts st₂ hvs hts
  obtain ⟨cs, hsided⟩ := (valuesFor_gathers hvs).sides (midway_refl hi hc) hr h2
  have hclean : ∀ p ∈ lhs.zip vs, "" ∉ p.1.idents := fun p hp hmem =>
    hl (idents_subset_of_mem (of_mem_zip hp).1 hmem)
  have hzip : (lhs.zip vs).map fst = lhs := map_fst_zip (by rw [hsided.length])
  exact (targets_apart hsided.midway hclean (hzip.symm ▸ hnames) hts).2

theorem Visit.twoPhase (h : Visit env inLoop (.assign pos lhs .assign rhs) st st' cs)
    (hl : "" ∉ identsAll lhs) (hr : "" ∉ identsAll rhs) (h2 : 2 ≤ lhs.length) (hsteady : Steady env pos lhs rhs st) :
    TwoPhase env pos lhs rhs st cs := by
  obtain ⟨code, hout, hphases⟩ := assign_twoPhase h.inside h.counterless hl hr h2 hsteady h.run
  obtain rfl : code = cs := append_cancel_left (hout.symm.trans h.out)
  exact hphases

end Check

open Check
open Code (Within)
open Surface (File Stmt stmtsSingles)

variable {s : Stmt}

/-- **Assignments work in two phases.** Each assignment of an accepted source to two targets or more has code in a body of
the program. If no position in a target depends on the variable of a target further left, running that code from any values
of the variables comes to the same as to find out all places and values first and then to store from left to right. It is
enough that no name in a position is that of a variable further left. -/
theorem assignments_twoPhase {options : CompileOptions} {source : String} {p : Program}
    (h : compile options source = .ok p) :
    ∃ file g, File.ofSource source = .ok file ∧ fileGlobals options file = .ok g ∧
      ∀ f ∈ funcDecls file.decls, ∃ b ∈ p.bodies, ∃ sig, Made g f sig b ∧
        ∀ pos lhs rhs, .assign pos lhs .assign rhs ∈ stmtsSingles (bodyStmts f) → 2 ≤ lhs.length →
          ∃ inLoop st st' cs, Visit (bodyEnv g b.1.kind sig) inLoop (.assign pos lhs .assign rhs) st st' cs ∧
            Within cs b.1.top.stmts ∧
            (lhs.Pairwise Surface.Expr.NamesApart → Steady (bodyEnv g b.1.kind sig) pos lhs rhs st) ∧
            (Steady (bodyEnv g b.1.kind sig) pos lhs rhs st → TwoPhase (bodyEnv g b.1.kind sig) pos lhs rhs st cs) := by
  obtain ⟨file, g, cs, hfile, hassembly⟩ := compile_assembly h
  refine ⟨file, g, hfile, hassembly.globals, fun f hf => ?_⟩
  obtain ⟨b, hb, sig, hmade⟩ := hassembly.made hf
  refine ⟨b, hb, sig, hmade, fun pos lhs rhs hs h2 => ?_⟩
  obtain ⟨inLoop, st, st', ds, hvisit, hwithin⟩ := hmade.visits hassembly.declared.sound _ hs
  have hclean := clean_single (File.clean_ofSource hfile) hf hs
  rw [Stmt.words, List.mem_append, not_or] at hclean
  refine ⟨inLoop, st, st', ds, hvisit, hwithin, fun hnames => ?_, fun hsteady => ?_⟩
  · exact steady_of_names hvisit.inside hvisit.counterless hclean.1 hclean.2 h2 hnames
  · exact hvisit.twoPhase hclean.1 hclean.2 h2 hsteady

/-- An element, its position, nothing and two components get values at once. -/
def rotatingSample : String := "package main
func f(a [2]int, i int, v vec4) (int, vec4) {
	a[i], i, _, v.yx = i, a[1-i], i, v.xy
	return i + a[0], v
}
"

/-- Whether a statement assigns to four targets with the names of each apart from those further left. -/
def assignsFour : Stmt → Bool
  | .assign _ lhs .assign _ => decide (lhs.length = 4 ∧ lhs.Pairwise Surface.Expr.NamesApart)
  | _ => false

theorem of_assignsFour (h : assignsFour s = true) :
    ∃ pos lhs rhs, s = .assign pos lhs .assign rhs ∧ lhs.length = 4 ∧ lhs.Pairwise Surface.Expr.NamesApart := by
  unfold assignsFour at h
  split at h
  · next pos lhs rhs => exact ⟨pos, lhs, rhs, rfl, of_decide_eq_true h⟩
  · cases h

set_option maxRecDepth 2000 in
theorem rotatingSample_twoPhase : ∃ p, compile {} rotatingSample = .ok p ∧
    ∃ file g, File.ofSource rotatingSample = .ok file ∧ fileGlobals {} file = .ok g ∧
      ∃ f ∈ funcDecls file.decls, ∃ b ∈ p.bodies, ∃ sig, Made g f sig b ∧
        ∃ pos lhs rhs, .assign pos lhs .assign rhs ∈ stmtsSingles (bodyStmts f) ∧ lhs.length = 4 ∧
          ∃ inLoop st st' cs, Visit (bodyEnv g b.1.kind sig) inLoop (.assign pos lhs .assign rhs) st st' cs ∧
            Within cs b.1.top.stmts ∧ Steady (bodyEnv g b.1.kind sig) pos lhs rhs st ∧
            TwoPhase (bodyEnv g b.1.kind sig) pos lhs rhs st cs := by
  obtain ⟨p, hp, -⟩ : ∃ p, compile {} rotatingSample = .ok p ∧ True := exists_compile (by decide +kernel)
  obtain ⟨file, g, hfile, hg, hall⟩ := assignments_twoPhase hp
  obtain ⟨file', hfile', f, hf, s, hs, hq⟩ : ∃ file, File.ofSource rotatingSample = .ok file ∧
      ∃ f ∈ funcDecls file.decls, ∃ s ∈ stmtsSingles (bodyStmts f), assignsFour s = true :=
    File.exists_ofSource (by decide +kernel)
  obtain rfl := Except.ok.inj (hfile.symm.trans hfile')
  obtain ⟨pos, lhs, rhs, rfl, hlen, hnames⟩ := of_assignsFour hq
  obtain ⟨b, hb, sig, hmade, hstmts⟩ := hall f hf
  obtain ⟨inLoop, st, st', cs, hvisit, hwithin, hsteady, hphases⟩ := hstmts pos lhs rhs hs (by omega)
  exact ⟨p, hp, file, g, hfile, hg, f, hf, b, hb, sig, hmade, pos, lhs, rhs, hs, hlen, inLoop, st, st', cs, hvisit, hwithin,
    hsteady hnames, hphases (hsteady hnames)⟩

/-- A position that the same statement assigns to, further left. -/
def movingSample : String := "package main
func f(a [2]int, i int) int {
	i, a[i] = 1, 2
	return a[0]
}
"

/-- Values where a store to an element leaves its position behind. -/
def positionLeft : Code.Meaning Nat where
  number _ _ := 1
  uniform _ := 0
  texture _ := 0
  member _ := 0
  unary _ _ := 0
  binary _ _ _ := 0
  select _ _ _ := 0
  builtin _ _ := 0
  call _ _ := 0
  output _ _ _ := 0
  index _ _ := 0
  swizzle _ _ := 0
  setIndex _ p _ := p
  setSwizzle _ _ _ := 0
  zero _ := 0
  nothing := 0

deriving instance DecidableEq for Code.Access, Code.Location

/-- The statement assigns to its second target at the position that it has assigned to its first. -/
def MovesPosition (env : Env) (st : State) : Stmt → Prop
  | .assign pos [l, l'] .assign rhs => l.name? ≠ some "_" ∧ l'.name? ≠ some "_" ∧ 0 < stop st.view ∧
    ∃ vs, valuesFor pos 2 rhs env st = .ok vs ∧
      ∃ t, target l env vs.2 = .ok t ∧ t.2.out = [] ∧
        positionLeft.location? (fun _ => 0) t.1.expr = some ⟨1, []⟩ ∧
        ∃ t', target l' env t.2 = .ok t' ∧ t'.2.out = [] ∧
          positionLeft.location? (fun _ => 0) t'.1.expr = some ⟨0, [.index 0]⟩ ∧
          ∃ r, assign pos [l, l'] rhs env st = .ok r ∧
            (positionLeft.run env.setting r.2.out fun _ => 0).map (· 0) = some 1
  | _ => False

instance {env : Env} {st : State} : Decidable (MovesPosition env st s) := by
  unfold MovesPosition
  split <;> infer_instance

theorem MovesPosition.not_twoPhase (h : MovesPosition env st s) :
    ∃ pos lhs rhs, s = .assign pos lhs .assign rhs ∧ lhs.length = 2 ∧
      ∃ st', assign pos lhs rhs env st = .ok ((), st') ∧ ¬TwoPhase env pos lhs rhs st st'.out := by
  unfold MovesPosition at h
  split at h
  · next pos l l' rhs =>
    obtain ⟨hl, hl', hstop, ⟨vs, st₁⟩, hvs, ⟨t₁, st₂⟩, ht₁, hout₁, hloc₁, ⟨t₂, st₃⟩, ht₂, hout₂, hloc₂, ⟨⟨⟩, st'⟩, hrun,
      hnew⟩ := h
    refine ⟨pos, _, rhs, rfl, rfl, st', hrun, fun htwo => ?_⟩
    obtain ⟨ρ', vs', st₁', us, hρ', hvs', hprepared, hρ⟩ := htwo Nat positionLeft fun _ => 0
    obtain ⟨rfl, rfl⟩ := mk.inj (Except.ok.inj (hvs.symm.trans hvs'))
    rw [hρ'] at hnew
    cases hprepared with
    | blank hname _ => exact absurd hname hl
    | @target _ _ _ _ _ _ _ cs₁ u₁ _ ht hout hloc _ hrest =>
      obtain ⟨rfl, rfl⟩ := mk.inj (Except.ok.inj (ht₁.symm.trans ht))
      obtain rfl : cs₁ = [] := (append_eq_nil_iff.mp (hout.symm.trans hout₁)).2
      cases hrest with
      | blank hname _ => exact absurd hname hl'
      | @target _ _ _ _ _ _ _ cs₂ u₂ _ ht hout hloc' _ hrest =>
        obtain ⟨rfl, rfl⟩ := mk.inj (Except.ok.inj (ht₂.symm.trans ht))
        obtain rfl : cs₂ = [] := (append_eq_nil_iff.mp (hout.symm.trans hout₂)).2
        cases hrest
        -- the element is looked for where the position was
        have hu₁ : u₁.1 = ⟨1, []⟩ := some.inj (hloc.symm.trans hloc₁)
        have hu₂ : u₂.1 = ⟨0, [.index 0]⟩ := some.inj (hloc'.symm.trans hloc₂)
        have hold : positionLeft.performs (fun _ => 0) [u₁, u₂] 0 = 0 := by
          simp [Code.Meaning.performs, Code.Meaning.perform, hu₁, hu₂, Code.Meaning.put, positionLeft]
        have hsame := (hρ 0 hstop).trans hold
        rw [map_some, hsame] at hnew
        cases hnew
  · exact h.elim

/-- **Not every assignment works in two phases.** In an accepted source the code of `i, a[i] = 1, 2` stores to the element
at the new position. -/
theorem movingSample_not_twoPhase : ∃ p, compile {} movingSample = .ok p ∧
    ∃ file g, File.ofSource movingSample = .ok file ∧ fileGlobals {} file = .ok g ∧
      ∃ f ∈ funcDecls file.decls, ∃ sig ∈ g.funcs, sig.name = f.name.name ∧
        ∃ pos lhs rhs, .assign pos lhs .assign rhs ∈ stmtsSingles (bodyStmts f) ∧ lhs.length = 2 ∧
          ∃ st', Visit (bodyEnv g .helper sig) false (.assign pos lhs .assign rhs) { scope := bodyScope sig false } st'
              st'.out ∧
            ¬TwoPhase (bodyEnv g .helper sig) pos lhs rhs { scope := bodyScope sig false } st'.out := by
  obtain ⟨p, hp, -⟩ : ∃ p, compile {} movingSample = .ok p ∧ True := exists_compile (by decide +kernel)
  obtain ⟨file, g, cs, hfile, hassembly⟩ := compile_assembly hp
  obtain ⟨file', hfile', ⟨g', hg', f, hf, sig, hsig, hname, s, hs, hmoves⟩⟩ :
      ∃ file, File.ofSource movingSample = .ok file ∧
        ∃ g, fileGlobals {} file = .ok g ∧ ∃ f ∈ funcDecls file.decls, ∃ sig ∈ g.funcs, sig.name = f.name.name ∧
          ∃ s ∈ stmtsSingles (bodyStmts f), MovesPosition (bodyEnv g .helper sig) { scope := bodyScope sig false } s :=
    File.exists_ofSource (by decide +kernel)
  obtain rfl := Except.ok.inj (hfile.symm.trans hfile')
  obtain rfl := Except.ok.inj (hassembly.globals.symm.trans hg')
  obtain ⟨pos, lhs, rhs, rfl, hlen, st', hrun, hnot⟩ := hmoves.not_twoPhase
  obtain ⟨hi, hc⟩ := inside_start .helper hassembly.declared.sound (hassembly.declared.sound.funcs sig hsig) false []
  exact ⟨p, hp, file, g, hfile, hassembly.globals, f, hf, sig, hsig, hname, pos, lhs, rhs, hs, hlen, st',
    ⟨hi, hc, hrun, rfl⟩, hnot⟩

end GameMedia.Shader
