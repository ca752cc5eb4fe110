import GameMedia.Proofs.Shader.Sides
import GameMedia.Proofs.Shader.Visits

/-!
# Storing several values at once

A definition, a declaration of variables and a return may store several values. Whatever the values read of what is
stored to, every target gets the value that the expression for it has where the statement begins, and all other variables
of the source stay as they are. Nothing is said of what operations do: the code is run over any values at all.
-/

namespace GameMedia.Shader

open List Prod

namespace Surface

/-- Values and what they are stored to. -/
structure Storing where
  /-- Names of variables, or `none` for the outputs of the function. -/
  names : Option (List Ident)
  /-- The type that is declared for all the variables. -/
  ty : Option Expr
  values : List Expr

/-- What a statement stores, if it defines or declares variables with values, or returns values. -/
def Stmt.storing? : Stmt → Option Storing
  | .assign _ lhs .define rhs => some ⟨some (Check.definedIdents lhs), none, rhs⟩
  | .decl ⟨.var, _, [.value s]⟩ => if s.values.isEmpty then none else some ⟨some s.names, s.ty, s.values⟩
  | .ret _ es => if es.isEmpty then none else some ⟨none, none, es⟩
  | _ => none

/-- How many targets there are, in a function with so many outputs. -/
def Storing.width (sto : Storing) (outs : Nat) : Nat := sto.names.elim outs List.length

/-- The value at that place is stored to nothing. -/
def Storing.IsBlank (sto : Storing) (k : Nat) : Prop := ∃ ns n, sto.names = some ns ∧ ns[k]? = some n ∧ n.name = "_"

/-- No name but the blank one stands there twice. -/
def Storing.Distinct (sto : Storing) : Prop :=
  (((sto.names.getD []).filter fun n => n.name ≠ "_").map Ident.name).Nodup

instance (sto : Storing) : Decidable sto.Distinct := inferInstanceAs (Decidable (List.Nodup _))

end Surface

namespace Check

open Code (Meaning Vars Kept assigns)
open Surface (Ident Storing ValueSpec identsAll stmtsSingles)

variable {env : Env} {st st₁ st₂ st' : State} {ss : List Scope} {n l k i : Nat} {sto : Storing} {vs : List Sourced}
  {cs : List Code.Stmt} {rhs : List Surface.Expr} {name : Ident} {t : Ty} {stored : Code.Expr} {d : Defined}
  {ds : List Defined} {x : String} {ps : List (Ident × Sourced)} {ns : List Ident} {ty : Option Ty}

/-- The number and the type of the target at a place. -/
def targetOf? (env : Env) (ss : List Scope) (sto : Storing) (k : Nat) : Option (Nat × Ty) :=
  match sto.names with
  | some ns => (ns[k]?).bind fun n =>
    if n.name = "_" then none else (lookupVar? n.name ss).map fun p => (p.1, p.2.ty)
  | none => (env.frame.outs[k]?).map fun t => (env.frame.inCount + k, t)

def Simultaneous (env : Env) (sto : Storing) (st st' : State) (cs : List Code.Stmt) : Prop :=
  ∀ (V : Type) (M : Meaning V) (ρ : Vars V), ∃ ρ', M.run env.setting cs ρ = some ρ' ∧
    (∀ k < sto.width env.frame.outs.length, ¬sto.IsBlank k → ∃ i t ty st₁,
      targetOf? env st'.view sto k = some (i, t) ∧ declaredType? sto.ty env st = .ok (ty, st₁) ∧
        SideValue env.setting M env st₁ (sto.width env.frame.outs.length) sto.values k t ρ (ρ' i)) ∧
    ∀ i < stop st.view, (∀ k t, targetOf? env st'.view sto k ≠ some (i, t)) → ρ' i = ρ i

/-- The expression is the value at that place as one of the target's type. -/
def Meets (env : Env) (ss : List Scope) (sto : Storing) (vs : List Sourced) (k : Nat) (q : Nat × Code.Expr) : Prop :=
  ∃ p t place, targetOf? env ss sto k = some (q.1, t) ∧ vs[k]? = some p ∧ t.Storable ∧ settle p.2 t place = .ok q.2

/-- Values that are computed on the side and then kept are stored at once. -/
theorem Sided.simultaneous {ty : Option Ty} {start b' : Nat} {sets : List (Nat × Code.Expr)}
    {ts qs : List (Code.Expr × Code.Expr)} {tail : List Code.Stmt}
    (h : Sided env st.view st₁ st₂ (sto.width env.frame.outs.length) sto.values vs cs)
    (hty : declaredType? sto.ty env st = .ok (ty, st₁)) (hle : stop st.view ≤ stop st₁.view)
    (hkept : Kept start (stop st₂.view) (sets.map fun q => (.localVar q.1, q.2)) ts qs b')
    (hstart : start ≤ stop st₂.view) (hnodup : (sets.map fst).Nodup)
    (hsets : ∀ q ∈ sets, ∃ k, Meets env st'.view sto vs k q)
    (hall : ∀ k < sto.width env.frame.outs.length, ¬sto.IsBlank k → ∃ q ∈ sets, Meets env st'.view sto vs k q)
    (htail : tail = [] ∨ tail = [.ret none]) :
    Simultaneous env sto st st' (cs ++ (assigns ts ++ assigns qs) ++ tail) := by
  intro V M ρ
  have hreads : ∀ q ∈ sets, ∀ i, .localVar i ∈ q.2.nodes → i < stop st₂.view := by
    intro q hq i hi
    obtain ⟨k, p, t, place, -, hp, ht, he⟩ := hsets q hq
    have hsees := (h.sees p (mem_of_getElem? hp)).2 t place q.2 ht he i hi
    have hstop := h.midway.stop_le
    omega
  obtain ⟨hvalues, hothers⟩ := hkept.simultaneous (S := env.setting) (M := M) hstart hnodup hreads
    (M.effects env.setting cs ρ)
  refine ⟨M.effects env.setting (assigns ts ++ assigns qs) (M.effects env.setting cs ρ), ?_, fun k hk hblank => ?_,
    fun i hi hnot => ?_⟩
  · have hstraight : ∀ c ∈ cs ++ (assigns ts ++ assigns qs), c.IsStraight :=
      forall_mem_append.mpr ⟨h.computes.straight,
        forall_mem_append.mpr ⟨Code.straight_assigns ts, Code.straight_assigns qs⟩⟩
    rw [Code.run_straight hstraight, Code.effects_append]
    rcases htail with rfl | rfl
    · rfl
    · rfl
  · obtain ⟨q, hq, p, t, place, htarget, hp, ht, he⟩ := hall k hk hblank
    refine ⟨q.1, t, ty, st₁, htarget, hty, ?_⟩
    rw [hvalues q hq]
    exact h.value k p hp t place q.2 ht he M ρ ρ fun _ _ => rfl
  · have hmem : i ∉ sets.map fst := by
      intro hmem
      obtain ⟨q, hq, rfl⟩ := mem_map.mp hmem
      obtain ⟨k, p, t, place, htarget, -⟩ := hsets q hq
      exact hnot k t htarget
    have hlt : i < stop st₂.view := hi.trans_le h.midway.stop_le
    rw [hothers i hlt hmem]
    exact h.computes.agree hle ρ i (.inl hi)

theorem Sided.of_view (h : Sided env ss st st₁ n rhs vs cs) (hview : st'.view = st₁.view) (hout : st'.out = st₁.out) :
    Sided env ss st st' n rhs vs cs where
  midway := ⟨hview ▸ h.midway.inside, hview ▸ h.midway.counterless, h.midway.nested, hview ▸ h.midway.view⟩
  out := hout.trans h.out
  le := hview ▸ h.le
  computes := hview ▸ h.computes
  length := h.length
  sees := hview ▸ h.sees
  value := h.value

/-! ## Variables with names -/

/-- What is stored for a name and a value: the value as one of a type, to a variable that the name means already, or to a
new one. -/
inductive Aims (ss : List Scope) : Ident × Sourced → Defined → Prop
  | new {name : Ident} {v : Sourced} {t : Ty} {e : Code.Expr} {place : Place} : t.Storable →
      settle v.2 t place = .ok e → Aims ss (name, v) (.new name t e)
  | old {name : Ident} {v : Sourced} {i : Nat} {w : Variable} {e : Code.Expr} {place : Place} :
      lookupVar? name.name ss = some (i, w) → w.ty.Storable → settle v.2 w.ty place = .ok e →
      Aims ss (name, v) (.old i w.ty e)

/-- One target is seen to: the value for it is kept in a variable if need be, and the target is declared if it is new. -/
structure Enters (d : Defined) (l : Nat) (stored : Code.Expr) (ts : List (Code.Expr × Code.Expr)) (st st' : State) :
    Prop where
  grows : ∃ a, st'.view = grow a st.view ∧ a.consts = [] ∧
    ∀ v ∈ a.vars, v.name = "" ∨ ∃ name t e, d = .new name t e ∧ v.name = name.name
  out : st'.out = st.out ++ assigns ts
  target : (∃ name t e v, d = .new name t e ∧ lookupVar? name.name st'.view = some (l, v) ∧ v.ty = t) ∨
    ∃ t e, d = .old l t e
  kept : ∀ {start b' : Nat} {ps us qs : List (Code.Expr × Code.Expr)}, (∀ t e, d = .old l t e → l < start) →
    Kept start (stop st'.view) ps us qs b' →
    Kept start (stop st.view) ((.localVar l, d.expr) :: ps) (ts ++ us) ((.localVar l, stored) :: qs) b'

theorem enters_new (hk : kept true t e env st = .ok (stored, st₁))
    (hd : declareLocal name.name t name.pos env st₁ = .ok (l, st')) :
    ∃ ts, Enters (.new name t e) l stored ts st st' := by
  obtain ⟨rfl, hview, hout⟩ := declare_view hd
  have hlook := lookupVar?_grow_new st₁.view_ne_nil ⟨name.name, t, name.pos, .declared false⟩
  have hstop : stop st'.view = stop st₁.view + 1 := by
    rw [hview, stop_grow st₁.view_ne_nil]
    rfl
  rcases kept_several hk with ⟨hc, rfl, rfl⟩ | ⟨rfl, hview₁, hout₁⟩
  · refine ⟨[], ⟨_, hview, rfl, ?_⟩, by rw [hout]; exact (append_nil _).symm,
      .inl ⟨name, t, _, _, rfl, hview ▸ hlook, rfl⟩, fun _ hkept => ?_⟩
    · simp
    · refine .const hc (by omega) (fun i hi => .inr ?_) hkept
      obtain rfl := Code.Expr.localVar.inj (mem_singleton.mp hi)
      omega
  · have hstop₁ : stop st₁.view = stop st.view + 1 := by
      rw [hview₁, stop_grow st.view_ne_nil]
      rfl
    refine ⟨[(.localVar (stop st.view), e)], ⟨_, by rw [hview, hview₁, grow_grow], rfl, ?_⟩, by rw [hout, hout₁]; rfl,
      .inl ⟨name, t, _, _, rfl, hview ▸ hlook, rfl⟩, fun _ hkept => ?_⟩
    · simp [temps, Added.append]
    · have hlt : stop st.view < stop st'.view := by omega
      refine .temp hlt (fun i hi => .inr ?_) hkept
      obtain rfl := Code.Expr.localVar.inj (mem_singleton.mp hi)
      omega

theorem enters_old (hk : kept true t e env st = .ok (stored, st')) :
    ∃ ts, Enters (.old l t e) l stored ts st st' := by
  have hbelow : ∀ {start b b₁ : Nat}, (∀ t' e', Defined.old l t e = .old l t' e' → l < start) →
      ∀ i, .localVar i ∈ (Code.Expr.localVar l).nodes → i < start ∨ b ≤ i ∧ i < b₁ := by
    intro start b b₁ hl i hi
    obtain rfl := Code.Expr.localVar.inj (mem_singleton.mp hi)
    exact .inl (hl t e rfl)
  rcases kept_several hk with ⟨hc, rfl, rfl⟩ | ⟨rfl, hview, hout⟩
  · exact ⟨[], ⟨{}, (grow_empty _).symm, rfl, forall_mem_nil _⟩, (append_nil _).symm, .inr ⟨t, _, rfl⟩,
      fun hl hkept => .const hc le_rfl (hbelow hl) hkept⟩
  · have hstop : stop st'.view = stop st.view + 1 := by
      rw [hview, stop_grow st.view_ne_nil]
      rfl
    refine ⟨[(.localVar (stop st.view), e)], ⟨_, hview, rfl, by simp [temps]⟩, hout, .inr ⟨t, e, rfl⟩, fun hl hkept => ?_⟩
    exact .temp (by omega) (hbelow hl) hkept

theorem declareDefined_cons_ok (h : declareDefined true (d :: ds) env st = .ok (cs, st')) :
    ∃ l stored ts st₁ rest, Enters d l stored ts st st₁ ∧ declareDefined true ds env st₁ = .ok (rest, st') ∧
      cs = .assign (.localVar l) stored :: rest := by
  cases d with
  | new name t e =>
    obtain ⟨stored, st₁, hk, h⟩ := bind_ok h
    obtain ⟨l, st₂, hd, h⟩ := bind_ok h
    obtain ⟨rest, hrest, rfl⟩ := bind_pure_ok h
    obtain ⟨ts, hts⟩ := enters_new hk hd
    exact ⟨l, stored, ts, st₂, rest, hts, hrest, rfl⟩
  | old l t e =>
    obtain ⟨stored, st₁, hk, h⟩ := bind_ok h
    obtain ⟨rest, hrest, rfl⟩ := bind_pure_ok h
    obtain ⟨ts, hts⟩ := enters_old hk
    exact ⟨l, stored, ts, st₁, rest, hts, hrest, rfl⟩

/-- A name that is not declared means what it meant. -/
theorem Enters.lookup (h : Enters d l stored ts st st') (hx : x ≠ "")
    (hd : ∀ name t e, d = .new name t e → name.name ≠ x) : lookupVar? x st'.view = lookupVar? x st.view := by
  obtain ⟨a, hview, hconsts, hvars⟩ := h.grows
  rw [hview]
  refine lookupVar?_grow_of_ne hconsts (fun v hv => ?_) st.view
  rcases hvars v hv with hempty | ⟨name, t, e, hnew, hname⟩
  · rw [hempty]
    exact Ne.symm hx
  · rw [hname]
    exact hd name t e hnew

theorem declareDefined_lookup (h : declareDefined true ds env st = .ok (cs, st')) (hx : x ≠ "")
    (hds : ∀ name t e, .new name t e ∈ ds → name.name ≠ x) : lookupVar? x st'.view = lookupVar? x st.view := by
  induction ds generalizing st cs with
  | nil =>
    obtain ⟨-, rfl⟩ := pure_ok h
    rfl
  | cons d ds ih =>
    obtain ⟨l, stored, ts, st₁, rest, hd, hrest, -⟩ := declareDefined_cons_ok h
    rw [ih hrest fun name t e hmem => hds name t e (mem_cons_of_mem _ hmem)]
    exact hd.lookup hx fun name t e hnew => hds name t e (hnew ▸ mem_cons_self)

/-- A name and a value, and the variable that the name means with the expression that is stored to it. -/
def Lands (ss : List Scope) (p : Ident × Sourced) (q : Nat × Code.Expr) : Prop :=
  ∃ v place, lookupVar? p.1.name ss = some (q.1, v) ∧ v.ty.Storable ∧ settle p.2.2 v.ty place = .ok q.2

theorem declareDefined_kept (hss : Nested ss) (haims : List.Forall₂ (Aims ss) ps ds) (hnames : ∀ p ∈ ps, p.1.name ≠ "")
    (hnodup : (ps.map fun p => p.1.name).Nodup) (hlook : ∀ p ∈ ps, lookupVar? p.1.name st.view = lookupVar? p.1.name ss)
    (h : declareDefined true ds env st = .ok (cs, st')) :
    ∃ sets ts qs, Kept (stop ss) (stop st.view) (sets.map fun q => (.localVar q.1, q.2)) ts qs (stop st'.view) ∧
      cs = assigns qs ∧ st'.out = st.out ++ assigns ts ∧ List.Forall₂ (Lands st'.view) ps sets := by
  induction haims generalizing st cs with
  | nil =>
    obtain ⟨rfl, rfl⟩ := pure_ok h
    exact ⟨[], [], [], .nil, rfl, (append_nil _).symm, .nil⟩
  | @cons p d ps ds haim haims ih =>
    rw [forall_mem_cons] at hnames hlook
    rw [map_cons, nodup_cons] at hnodup
    obtain ⟨l, stored, ts, st₁, rest, henters, hrest, rfl⟩ := declareDefined_cons_ok h
    have hnew : ∀ {p d}, Aims ss p d → ∀ name t e, d = .new name t e → name.name = p.1.name := by
      rintro p d haim name t e rfl
      cases haim
      rfl
    -- the other names are not touched
    have hlook₁ : ∀ q ∈ ps, lookupVar? q.1.name st₁.view = lookupVar? q.1.name ss := by
      intro q hq
      rw [henters.lookup (hnames.2 q hq) fun name t e hd hname => ?_, hlook.2 q hq]
      refine hnodup.1 (mem_map.mpr ⟨q, hq, ?_⟩)
      rw [← hname, hnew haim name t e hd]
    obtain ⟨sets, us, qs, hkept, rfl, hout, hlands⟩ := ih hnames.2 hnodup.2 hlook₁ hrest
    -- nor is this one from now on
    have hlater : lookupVar? p.1.name st'.view = lookupVar? p.1.name st₁.view := by
      refine declareDefined_lookup hrest hnames.1 fun name t e hmem hname => ?_
      obtain ⟨q, hq, hqd⟩ := exists_mem_of_forall₂ haims.flip hmem
      refine hnodup.1 (mem_map.mpr ⟨q, hq, ?_⟩)
      rw [← hname, hnew hqd name t e rfl]
    refine ⟨(l, d.expr) :: sets, ts ++ us, (.localVar l, stored) :: qs, henters.kept ?_ hkept, rfl, ?_, .cons ?_ hlands⟩
    · rintro t e rfl
      cases haim with
      | old hv _ _ => exact hss.lt_stop (hss.numbered?_of_lookup hv)
    · rw [hout, henters.out, append_assoc, assigns, assigns, assigns, map_append]
    · cases haim with
      | new ht he =>
        rcases henters.target with ⟨name', t', e', v, hd, hv, hty⟩ | ⟨t', e', hd⟩
        · cases hd
          exact ⟨v, _, hlater.trans hv, hty ▸ ht, hty ▸ he⟩
        · cases hd
      | old hv ht he =>
        rcases henters.target with ⟨name', t', e', v, hd, -⟩ | ⟨t', e', hd⟩
        · cases hd
        · cases hd
          have hsame := henters.lookup hnames.1 fun name t e hd => by cases hd
          exact ⟨_, _, (hlater.trans hsame).trans (hlook.1.trans hv), ht, he⟩

/-- The names with their values, without those for the blank name. -/
def named (ns : List Ident) (vs : List Sourced) : List (Ident × Sourced) := (ns.zip vs).filter fun p => p.1.name ≠ "_"

theorem targetOf?_name (hns : sto.names = some ns) (hk : ns[k]? = some name) (hblank : name.name ≠ "_")
    (hv : lookupVar? name.name ss = some (i, v)) : targetOf? env ss sto k = some (i, v.ty) := by
  simp [targetOf?, hns, hk, hblank, hv]

theorem mem_named :
    p ∈ named ns vs ↔ p.1.name ≠ "_" ∧ ∃ k : Nat, ns[k]? = some p.1 ∧ vs[k]? = some p.2 := by
  rw [named, mem_filter, decide_eq_true_eq, and_comm, mem_iff_getElem?]
  simp only [List.getElem?_zip_eq_some]

/-- Where names and values belong together, the numbers are as different as the names. -/
theorem nodup_of_lands (hss : Nested ss) (h : List.Forall₂ (Lands ss) ps sets)
    (hnodup : (ps.map fun p => p.1.name).Nodup) : (sets.map fst).Nodup := by
  have hnames : (sets.map fst).map (fun i => (numbered? ss i).map Variable.name) =
      (ps.map fun p => p.1.name).map some := by
    clear hnodup
    induction h with
    | nil => rfl
    | cons hland _ ih =>
      obtain ⟨v, place, hv, -⟩ := hland
      rw [map_cons, map_cons, map_cons, map_cons, ih, hss.numbered?_of_lookup hv,
        Option.map_some, lookupVar?_name hv]
  refine List.Nodup.of_map (fun i => (numbered? ss i).map Variable.name) ?_
  rw [hnames]
  exact hnodup.map (Option.some_injective _)

/-- **Values for names are stored at once.** -/
theorem Sided.named_simultaneous (h : Sided env st.view st₁ st₂ ns.length sto.values vs cs) (hns : sto.names = some ns)
    (hty : declaredType? sto.ty env st = .ok (ty, st₁)) (hle : stop st.view ≤ stop st₁.view)
    (hnames : ∀ n ∈ ns, n.name ≠ "") (hdistinct : sto.Distinct) (haims : List.Forall₂ (Aims st₂.view) (named ns vs) ds)
    {qs : List Code.Stmt} {st₃ : State} (hrun : declareDefined true ds env st₂ = .ok (qs, st₃))
    (hnested : Nested st₃.view) (hview : st'.view = st₃.view) (hout : st'.out = st₃.out ++ qs) :
    ∃ code, st'.out = st₁.out ++ code ∧ Simultaneous env sto st st' code := by
  have hwidth : sto.width env.frame.outs.length = ns.length := by rw [Storing.width, hns]; rfl
  have hzip : (ns.zip vs).map fst = ns := map_fst_zip (by rw [h.length])
  have hnodup : ((named ns vs).map fun p => p.1.name).Nodup := by
    have hsame : (named ns vs).map (fun p => p.1.name) = (ns.filter fun n => n.name ≠ "_").map Ident.name := by
      conv_rhs => rw [← hzip]
      rw [filter_map, List.map_map]
      rfl
    rw [Storing.Distinct, hns] at hdistinct
    rw [hsame]
    exact hdistinct
  have hne : ∀ p ∈ named ns vs, p.1.name ≠ "" := by
    intro p hp
    obtain ⟨-, k, hk, -⟩ := mem_named.mp hp
    exact hnames p.1 (mem_of_getElem? hk)
  obtain ⟨sets, ts, us, hkept, rfl, hout₃, hlands⟩ :=
    declareDefined_kept h.midway.inside.scopes.nested haims hne hnodup (fun _ _ => rfl) hrun
  rw [← hview] at hlands hnested
  have hmeets : ∀ k p q, ns[k]? = some p.1 → vs[k]? = some p.2 → p.1.name ≠ "_" → Lands st'.view p q →
      Meets env st'.view sto vs k q := by
    rintro k p q hk hv hblank ⟨v, place, hlook, hst, he⟩
    exact ⟨p.2, v.ty, place, targetOf?_name hns hk hblank hlook, hv, hst, he⟩
  refine ⟨cs ++ (assigns ts ++ assigns us) ++ [], ?_, ?_⟩
  · rw [hout, hout₃, h.out]
    simp
  · refine Sided.simultaneous (hwidth ▸ h) hty hle hkept le_rfl (nodup_of_lands hnested hlands hnodup) (fun q hq => ?_)
      (fun k hk hblank => ?_) (.inl rfl)
    · obtain ⟨p, hp, hland⟩ := exists_mem_of_forall₂ hlands.flip hq
      obtain ⟨hblank, k, hk, hv⟩ := mem_named.mp hp
      exact ⟨k, hmeets k p q hk hv hblank hland⟩
    · rw [hwidth] at hk
      have hget : ns[k]? = some ns[k] := List.getElem?_eq_getElem hk
      have hvget : vs[k]? = some (vs.get ⟨k, h.length ▸ hk⟩) := List.getElem?_eq_getElem _
      have hname : ns[k].name ≠ "_" := fun heq => hblank ⟨ns, ns[k], hns, hget, heq⟩
      obtain ⟨q, hq, hland⟩ := exists_mem_of_forall₂ hlands
        (mem_named (p := (ns[k], vs.get ⟨k, h.length ▸ hk⟩)).mpr ⟨hname, k, hget, hvget⟩)
      exact ⟨q, hq, hmeets k _ q hget hvget hname hland⟩

/-! ## Definitions and declarations -/

/-- The type that a value has by itself is one it can be stored as. -/
theorem settle_of_settleDefault (place : Place) (h : settleDefault v = .ok w) :
    settle v w.ty place = .ok w.expr := by
  rcases settleDefault_cases h with ⟨c, c', rfl, hc, rfl⟩ | ⟨e, t, rfl, hs, -⟩
  · simp only [settle, settleShift, bind, Except.bind, Value.ty, hc]
    rfl
  · obtain ⟨-, rfl | ⟨op, n, count, rfl, -, hw⟩⟩ := settleShift_cases hs
    · exact if_pos rfl
    · cases hw
      rfl

theorem definedTargets_aims (hi : Inside env st.view) (hps : ∀ p ∈ ps, p.2.2.Plain)
    (h : definedTargets ps env st = .ok (ds, st')) :
    st'.view = st.view ∧ st'.out = st.out ∧ List.Forall₂ (Aims st.view) (ps.filter fun p => p.1.name ≠ "_") ds := by
  induction ps generalizing st ds with
  | nil =>
    obtain ⟨rfl, rfl⟩ := pure_ok h
    exact ⟨rfl, rfl, .nil⟩
  | cons p ps ih =>
    obtain ⟨name, pos, v⟩ := p
    rw [forall_mem_cons] at hps
    rw [definedTargets] at h
    by_cases hblank : name.name = "_"
    · rw [if_pos hblank] at h
      rw [filter_cons_of_neg (by simpa using hblank)]
      exact ih hi hps.2 h
    rw [if_neg hblank] at h
    rw [filter_cons_of_pos (by simpa using hblank)]
    replace h := get_bind_ok h
    have hrest : ∀ (s₁ : State) (d : Defined), s₁.view = st.view → s₁.out = st.out → Aims st.view (name, pos, v) d →
        (do return d :: (← definedTargets ps) : Check _) env s₁ = .ok (ds, st') →
        st'.view = st.view ∧ st'.out = st.out ∧
          List.Forall₂ (Aims st.view) ((name, pos, v) :: ps.filter fun p => p.1.name ≠ "_") ds := by
      intro s₁ d hview hout hd h
      obtain ⟨rest, hrun, rfl⟩ := bind_pure_ok h
      obtain ⟨hview', hout', hds⟩ := ih (hview ▸ hi) hps.2 hrun
      exact ⟨hview'.trans hview, hout'.trans hout, .cons hd (hview ▸ hds)⟩
    cases hfind : st.scope.findVar? name.name with
    | some i =>
      rw [hfind] at h
      obtain ⟨⟨index, t⟩, st₁, hred, h⟩ := bind_ok h
      obtain ⟨hscopes, hout, w, hlook, rfl, -⟩ := redefined_lookup hfind hred
      have hst : w.ty.Storable := hi.scopes.numbered (hi.scopes.nested.numbered?_of_lookup hlook)
      obtain ⟨e, he, h⟩ := ruled_bind_ok h
      refine hrest st₁ (.old index w.ty e) ?_ hout (.old hlook hst he) h
      rw [State.view, hscopes, map_unmarked_useVar, ← State.view]
    | none =>
      rw [hfind] at h
      obtain ⟨u, st₁, hnot, h⟩ := bind_ok h
      obtain rfl := notRedeclared_ok hnot
      obtain ⟨w, hw, h⟩ := ruled_bind_ok h
      exact hrest st (.new name w.ty w.expr) rfl rfl
        (.new (hps.1 w hw) (settle_of_settleDefault .assignment hw)) h

/-- A variable of a declaration with values, as one of a definition. -/
def Fresh.defined? (f : Fresh) : Option Defined :=
  if f.name.name = "_" then none else f.start.map fun e => .new f.name f.ty e

theorem freshValues_aims (ss : List Scope) (hty : ∀ t, ty = some t → t.Storable) (hps : ∀ p ∈ ps, p.2.2.Plain)
    (h : freshValues ty ps env st = .ok (fs, st')) :
    st = st' ∧ fs.length = ps.length ∧ (∀ f ∈ fs, f.start.isSome) ∧
      List.Forall₂ (Aims ss) (ps.filter fun p => p.1.name ≠ "_") (fs.filterMap Fresh.defined?) := by
  induction ps generalizing fs with
  | nil =>
    obtain ⟨rfl, rfl⟩ := pure_ok h
    exact ⟨rfl, rfl, forall_mem_nil _, .nil⟩
  | cons p ps ih =>
    obtain ⟨name, pos, v⟩ := p
    rw [forall_mem_cons] at hps
    obtain ⟨u, st₁, hr, h⟩ := bind_ok h
    obtain rfl := notRedeclared_ok hr
    have hrest : ∀ (t : Ty) (e : Code.Expr) (place : Place), t.Storable → settle v t place = .ok e → (do
        return ⟨name, t, some e⟩ :: (← freshValues ty ps) : Check _) env st = .ok (fs, st') →
        st = st' ∧ fs.length = ps.length + 1 ∧ (∀ f ∈ fs, f.start.isSome) ∧
          List.Forall₂ (Aims ss) (((name, pos, v) :: ps).filter fun p => p.1.name ≠ "_")
            (fs.filterMap Fresh.defined?) := by
      intro t e place ht he h
      obtain ⟨rest, hrun, rfl⟩ := bind_pure_ok h
      obtain ⟨rfl, hlen, hstart, haims⟩ := ih hps.2 hrun
      refine ⟨rfl, congrArg (· + 1) hlen, forall_mem_cons.mpr ⟨rfl, hstart⟩, ?_⟩
      by_cases hblank : name.name = "_"
      · have hnone : Fresh.defined? ⟨name, t, some e⟩ = none := if_pos hblank
        rw [filter_cons_of_neg (by simpa using hblank), filterMap_cons_none hnone]
        exact haims
      · have hsome : Fresh.defined? ⟨name, t, some e⟩ = some (.new name t e) := if_neg hblank
        rw [filter_cons_of_pos (by simpa using hblank), filterMap_cons_some hsome]
        exact .cons (.new ht he) haims
    cases ty with
    | some t =>
      obtain ⟨e, he, h⟩ := ruled_bind_ok h
      exact hrest t e .varDecl (hty t rfl) he h
    | none =>
      obtain ⟨w, hw, h⟩ := ruled_bind_ok h
      exact hrest w.ty w.expr .varDecl (hps.1 w hw) (settle_of_settleDefault _ hw) h

theorem declareFresh_eq (h : ∀ f ∈ fs, f.start.isSome) :
    declareFresh several fs = declareDefined several (fs.filterMap Fresh.defined?) := by
  induction fs with
  | nil => rfl
  | cons f fs ih =>
    rw [List.forall_mem_cons] at h
    obtain ⟨name, t, start⟩ := f
    obtain ⟨e, rfl⟩ := Option.isSome_iff_exists.mp h.1
    rw [declareFresh]
    by_cases hblank : name.name = "_"
    · have hnone : Fresh.defined? ⟨name, t, some e⟩ = none := if_pos hblank
      rw [if_pos hblank, List.filterMap_cons_none hnone, ih h.2]
    · have hsome : Fresh.defined? ⟨name, t, some e⟩ = some (.new name t e) := if_neg hblank
      rw [if_neg hblank, List.filterMap_cons_some hsome, declareDefined, ← ih h.2]
      simp only [map_eq_pure_bind, bind_assoc, pure_bind]

theorem declareDefined_nested (hn : Nested st.view) (h : declareDefined true ds env st = .ok (cs, st')) :
    Nested st'.view := by
  induction ds generalizing st cs with
  | nil =>
    obtain ⟨-, rfl⟩ := pure_ok h
    exact hn
  | cons d ds ih =>
    obtain ⟨l, stored, ts, st₁, rest, hd, hrest, -⟩ := declareDefined_cons_ok h
    obtain ⟨a, hview, -⟩ := hd.grows
    exact ih (hview ▸ hn.grow a) hrest

/-- **A definition stores its values at once.** -/
theorem define_simultaneous (hi : Inside env st.view) (hc : Counterless st.view)
    (hl : "" ∉ identsAll lhs) (hr : "" ∉ identsAll rhs) (hsto : sto = ⟨some (definedIdents lhs), none, rhs⟩)
    (h2 : 2 ≤ sto.width env.frame.outs.length) (hdistinct : sto.Distinct)
    (h : define pos lhs rhs env st = .ok ((), st')) :
    ∃ code, st'.out = st.out ++ code ∧ Simultaneous env sto st st' code := by
  obtain rfl := hsto
  have h2 : 2 ≤ (definedIdents lhs).length := h2
  obtain ⟨ns, st₁, hns, h⟩ := bind_ok h
  obtain ⟨rfl, rfl, hnames⟩ := definedNames_ok hns
  obtain ⟨vs, st₁, hvs, h⟩ := bind_ok h
  obtain ⟨cs, hsided⟩ := (valuesFor_gathers hvs).sides (midway_refl hi hc) hr h2
  replace h := get_bind_ok h
  obtain ⟨-, h⟩ := ite_fail_ok h
  obtain ⟨ds, st₂, hds, h⟩ := bind_ok h
  obtain ⟨hview₂, hout₂, haims⟩ := definedTargets_aims hsided.midway.inside
    (fun p hp => (hsided.sees p.2 (of_mem_zip hp).2).1) hds
  obtain ⟨qs, st₃, hdecl, h⟩ := bind_ok h
  obtain rfl := emitAll_ok h
  rw [decide_eq_true (by omega : 1 < (definedIdents lhs).length)] at hdecl
  -- looking at the targets only marks variables
  have hsided : Sided env st.view st st₂ (definedIdents lhs).length rhs vs cs :=
    hsided.of_view hview₂ hout₂
  have hnested : Nested st₃.view := declareDefined_nested hsided.midway.inside.scopes.nested hdecl
  refine hsided.named_simultaneous rfl rfl le_rfl (fun n hn heq => ?_) hdistinct (hview₂ ▸ haims) hdecl hnested rfl rfl
  exact hl (heq ▸ hnames n hn)

theorem declaredType?_midway (hi : Inside env st.view) (hc : Counterless st.view)
    (h : declaredType? e env st = .ok (ty, st')) :
    Midway env st.view st' ∧ st'.out = st.out ∧ ∀ t, ty = some t → t.Storable := by
  have hr := ready_of false (.empty default) hi hc
  obtain ⟨hm, hst⟩ := (declaredType?_ok hr).ok h
  obtain ⟨hlooks, hout⟩ := (declaredType?_glances.ok h).1
  exact ⟨(midway_refl hi hc).moves hm hlooks, hout, hst⟩

/-- **A declaration of variables stores its values at once.** -/
theorem varSpec_simultaneous (hi : Inside env st.view) (hc : Counterless st.view)
    (hn : ∀ n ∈ spec.names, n.name ≠ "") (hr : "" ∉ identsAll spec.values) (hne : spec.values ≠ [])
    (hsto : sto = ⟨some spec.names, spec.ty, spec.values⟩) (h2 : 2 ≤ sto.width env.frame.outs.length)
    (hdistinct : sto.Distinct) (h : varSpec spec env st = .ok ((), st')) :
    ∃ code, st'.out = st.out ++ code ∧ Simultaneous env sto st st' code := by
  obtain rfl := hsto
  have h2 : 2 ≤ spec.names.length := h2
  obtain ⟨ty, st₁, hty, h⟩ := bind_ok h
  obtain ⟨hmid, hout₁, hst⟩ := declaredType?_midway hi hc hty
  obtain ⟨-, h⟩ := ite_fail_ok h
  have h : (do
      let vs ← valuesFor spec.pos spec.names.length spec.values
      let fresh ← freshValues ty (spec.names.zip vs)
      emitAll (← declareFresh (1 < fresh.length) fresh) : Check Unit) env st₁ = .ok ((), st') := by
    generalize spec.values = rhs at h hne ⊢
    cases rhs with
    | nil => exact absurd rfl hne
    | cons e es => exact h
  obtain ⟨vs, st₂, hvs, h⟩ := bind_ok h
  obtain ⟨cs, hsided⟩ := (valuesFor_gathers hvs).sides hmid hr h2
  obtain ⟨fs, st₃, hfresh, h⟩ := bind_ok h
  obtain ⟨rfl, hlen, hstart, haims⟩ := freshValues_aims st₂.view hst
    (fun p hp => (hsided.sees p.2 (of_mem_zip hp).2).1) hfresh
  obtain ⟨qs, st₄, hdecl, h⟩ := bind_ok h
  obtain rfl := emitAll_ok h
  rw [length_zip, hsided.length, Nat.min_self] at hlen
  rw [decide_eq_true (by omega : 1 < fs.length), declareFresh_eq hstart] at hdecl
  have hnested : Nested st₄.view := declareDefined_nested hsided.midway.inside.scopes.nested hdecl
  rw [← hout₁]
  exact hsided.named_simultaneous rfl hty hmid.stop_le hn hdistinct haims hdecl hnested rfl rfl

/-! ## Returns -/

/-- The outputs are taken in order, each with the value for it. -/
theorem outputStores_lands {ps : List (Sourced × Ty)}
    (h : outputStores i ps env st = .ok (ts, st')) :
    st = st' ∧ ∃ sets : List (Nat × Code.Expr), ts.map (fun p => (p.1.expr, p.2)) = sets.map (fun q => (.localVar q.1, q.2)) ∧
      sets.map fst = range' i ps.length ∧
      ∀ (k : Nat) (q : Nat × Code.Expr), sets[k]? = some q →
        ∃ p, ps[k]? = some p ∧ q.1 = i + k ∧ settle p.1.2 p.2 .returnStmt = .ok q.2 := by
  induction ps generalizing i ts with
  | nil =>
    obtain ⟨rfl, rfl⟩ := pure_ok h
    exact ⟨rfl, [], rfl, rfl, fun k p hk => by cases hk⟩
  | cons p ps ih =>
    obtain ⟨⟨place, v⟩, t⟩ := p
    obtain ⟨e, he, h⟩ := ruled_bind_ok h
    obtain ⟨more, hmore, rfl⟩ := bind_pure_ok h
    obtain ⟨rfl, sets, hts, hfst, hsets⟩ := ih hmore
    refine ⟨rfl, (i, e) :: sets, ?_, ?_, fun k q hk => ?_⟩
    · rw [map_cons, map_cons, hts]
      rfl
    · rw [map_cons, hfst]
      rfl
    · cases k with
      | zero =>
        cases hk
        exact ⟨_, rfl, rfl, he⟩
      | succ k =>
        obtain ⟨p, hp, hqi, hqe⟩ := hsets k q hk
        exact ⟨p, hp, by omega, hqe⟩

theorem output_meets (ss : List Scope) (es : List Surface.Expr) (hi : Inside env st.view)
    (hp : (vs.zip env.frame.outs)[k]? = some p) (hq : q.1 = env.frame.inCount + k)
    (he : settle p.1.2 p.2 .returnStmt = .ok q.2) : q.1 < stop st.view ∧ Meets env ss ⟨none, none, es⟩ vs k q := by
  obtain ⟨hv, ht⟩ := List.getElem?_zip_eq_some.mp hp
  obtain ⟨v, hnum, hty, -⟩ := hi.frame.outs k p.2 ht
  refine ⟨?_, p.1, p.2, .returnStmt, ?_, hv, hty ▸ hi.scopes.numbered hnum, he⟩
  · rw [hq]
    exact hi.scopes.nested.lt_stop hnum
  · simp [targetOf?, ht, hq]

/-- **A return stores its values at once.** -/
theorem returnStmt_simultaneous {es : List Surface.Expr} (hi : Inside env st.view) (hc : Counterless st.view)
    (hr : "" ∉ identsAll es) (hne : es ≠ []) (hresult : env.frame.result = .none) (hsto : sto = ⟨none, none, es⟩)
    (h2 : 2 ≤ sto.width env.frame.outs.length) (h : returnStmt pos es env st = .ok ((), st')) :
    ∃ code, st'.out = st.out ++ code ∧ Simultaneous env sto st st' code := by
  obtain rfl := hsto
  have h2 : 2 ≤ env.frame.outs.length := h2
  obtain ⟨f, st₁, hf, h⟩ := bind_ok h
  obtain ⟨rfl, rfl⟩ := frame_ok hf
  rw [hresult, if_neg (by decide), if_neg (by simpa using hne)] at h
  obtain ⟨-, h⟩ := ite_fail_ok h
  obtain ⟨vs, st₁, hvs, h⟩ := bind_ok h
  obtain ⟨cs, hsided⟩ := (returnedValues_gathers hvs).sides (midway_refl hi hc) hr h2
  obtain ⟨ts, st₂, hts, h⟩ := bind_ok h
  obtain ⟨rfl, sets, hmap, hfst, hsets⟩ := outputStores_lands hts
  rw [length_zip, hsided.length, Nat.min_self] at hfst
  have hlen : sets.length = env.frame.outs.length := by
    have hlen := congrArg length hfst
    rwa [length_map, length_range'] at hlen
  have hlen' : ts.length = sets.length := by
    have hlen := congrArg length hmap
    rwa [length_map, length_map] at hlen
  have hmeets : ∀ k q, sets[k]? = some q →
      q.1 < stop st₁.view ∧ ∀ ss, Meets env ss ⟨none, none, es⟩ vs k q := by
    intro k q hq
    obtain ⟨p, hp, hqi, he⟩ := hsets k q hq
    have hout := fun ss => output_meets ss es hsided.midway.inside hp hqi he
    exact ⟨(hout []).1, fun ss => (hout ss).2⟩
  obtain ⟨qs, st₂, hstores, h⟩ := bind_ok h
  rw [decide_eq_true (by omega : 1 < ts.length)] at hstores
  have hbelow : ∀ p ∈ ts, ∀ i, .localVar i ∈ p.1.expr.nodes → i < stop st₁.view := by
    intro p hp i hmem
    have hp : (p.1.expr, p.2) ∈ ts.map fun p => (p.1.expr, p.2) := mem_map_of_mem hp
    rw [hmap] at hp
    obtain ⟨q, hq, hpair⟩ := mem_map.mp hp
    obtain ⟨hvar, -⟩ := mk.inj hpair
    rw [← hvar] at hmem
    obtain rfl := Code.Expr.localVar.inj (mem_singleton.mp hmem)
    obtain ⟨k, hk⟩ := mem_iff_getElem?.mp hq
    exact (hmeets k q hk).1
  obtain ⟨us, rs, hkept, rfl, hout₂⟩ := stores_kept hbelow hstores
  rw [hmap] at hkept
  obtain ⟨⟨⟩, st₃, hall, h⟩ := bind_ok h
  obtain rfl := emitAll_ok hall
  obtain rfl := emit_ok h
  refine ⟨cs ++ (assigns us ++ assigns rs) ++ [.ret none], ?_, ?_⟩
  · simp [hout₂, hsided.out]
  · refine hsided.simultaneous rfl le_rfl hkept le_rfl (hfst ▸ nodup_range') (fun q hq => ?_) (fun k hk _ => ?_)
      (.inr rfl)
    · obtain ⟨k, hk⟩ := mem_iff_getElem?.mp hq
      exact ⟨k, (hmeets k q hk).2 _⟩
    · have hk : k < sets.length := hlen ▸ hk
      exact ⟨sets[k], getElem_mem hk, (hmeets k _ (List.getElem?_eq_getElem hk)).2 _⟩

/-! ## Statements of a program -/

/-- A statement that stores several values stores them at once, wherever it is visited. -/
theorem Visit.simultaneous {ds : List Code.Stmt} (h : Visit env inLoop s st st' ds)
    (hclean : "" ∉ s.words) (hsto : s.storing? = some sto) (hresult : env.frame.outs = [] ∨ env.frame.result = .none)
    (h2 : 2 ≤ sto.width env.frame.outs.length) (hdistinct : sto.Distinct) : Simultaneous env sto st st' ds := by
  suffices hcode : ∃ code, st'.out = st.out ++ code ∧ Simultaneous env sto st st' code by
    obtain ⟨code, hout, hsim⟩ := hcode
    obtain rfl : code = ds := append_cancel_left (hout.symm.trans h.out)
    exact hsim
  have hrun := h.run
  unfold Surface.Stmt.storing? at hsto
  split at hsto
  · rw [Surface.Stmt.words, mem_append, not_or] at hclean
    exact define_simultaneous h.inside h.counterless hclean.1 hclean.2 (Option.some.inj hsto).symm h2 hdistinct hrun
  · next gpos spec =>
    by_cases hempty : spec.values.isEmpty
    · rw [if_pos hempty] at hsto
      cases hsto
    rw [if_neg hempty] at hsto
    have hrun : localSpecs .var [.value spec] env st = .ok ((), st') := hrun
    obtain ⟨⟨⟩, hspec, -⟩ := bind_pure_ok hrun
    have hclean : "" ∉ spec.names.map Surface.Ident.name ++ identsAll spec.values := by
      simpa [Surface.Stmt.words, Surface.Spec.words] using hclean
    rw [mem_append, not_or] at hclean
    refine varSpec_simultaneous h.inside h.counterless (fun n hn heq => ?_) hclean.2 (by simpa using hempty)
      (Option.some.inj hsto).symm h2 hdistinct hspec
    exact hclean.1 (heq ▸ mem_map_of_mem hn)
  · next es =>
    by_cases hempty : es.isEmpty
    · rw [if_pos hempty] at hsto
      cases hsto
    rw [if_neg hempty] at hsto
    cases hsto
    have hnone : env.frame.result = .none := by
      rcases hresult with houts | hnone
      · rw [houts] at h2
        exact absurd h2 (by simp [Storing.width])
      · exact hnone
    rw [Surface.Stmt.words] at hclean
    exact returnStmt_simultaneous h.inside h.counterless hclean (by simpa using hempty) hnone rfl h2 hrun
  · cases hsto

end Check

open Check
open Code (Within)
open Surface (File Stmt stmtsSingles)

/-- **Several values are stored at once.** Each statement of an accepted source that defines or declares two variables or
more with values, or returns as many values, has code in a body of the program. Running that code from any values of the
variables gives each target that is not blank what the expression for it is where the statement begins, and it leaves
all other variables as they are. -/
theorem stores_at_once {options : CompileOptions} {source : String} {p : Program} (h : compile options source = .ok p) :
    ∃ file g, File.ofSource source = .ok file ∧ fileGlobals options file = .ok g ∧
      ∀ f ∈ funcDecls file.decls, ∃ b ∈ p.bodies, ∃ sig, Made g f sig b ∧
        ∀ s ∈ stmtsSingles (bodyStmts f), ∀ sto, s.storing? = some sto → 2 ≤ sto.width sig.outs.length → sto.Distinct →
          ∃ inLoop st st' cs, Visit (bodyEnv g b.1.kind sig) inLoop s st st' cs ∧ Within cs b.1.top.stmts ∧
            Simultaneous (bodyEnv g b.1.kind sig) sto st st' cs := by
  obtain ⟨file, g, cs, hfile, hassembly⟩ := compile_assembly h
  refine ⟨file, g, hfile, hassembly.globals, fun f hf => ?_⟩
  obtain ⟨b, hb, sig, hmade⟩ := hassembly.made hf
  refine ⟨b, hb, sig, hmade, fun s hs sto hsto h2 hdistinct => ?_⟩
  obtain ⟨inLoop, st, st', ds, hvisit, hwithin⟩ := hmade.visits hassembly.declared.sound s hs
  refine ⟨inLoop, st, st', ds, hvisit, hwithin, ?_⟩
  have houts : (bodyEnv g b.1.kind sig).frame.outs.length = sig.outs.length := List.length_map _
  have hresult : (bodyEnv g b.1.kind sig).frame.outs = [] ∨ (bodyEnv g b.1.kind sig).frame.result = .none :=
    hmade.outs.imp_left fun hnil => List.map_eq_nil_iff.mpr hnil
  exact hvisit.simultaneous (clean_single (File.clean_ofSource hfile) hf hs) hsto hresult (houts ▸ h2) hdistinct

/-- Values that are exchanged, by a definition of new variables, by one with an old and a new one, by a declaration with a
blank name in it, and by a return. -/
def exchangingSample : String := "package main
func f(a, b float) (float, float) {
	x, y := b, a
	y, z := x+y, y-x
	var u, _, w float = z, 1, y
	return w, u
}
"

set_option maxRecDepth 2000 in
theorem exchangingSample_at_once : ∃ p, compile {} exchangingSample = .ok p ∧
    ∃ file g, File.ofSource exchangingSample = .ok file ∧ fileGlobals {} file = .ok g ∧
      ∃ f ∈ funcDecls file.decls, ∃ b ∈ p.bodies, ∃ sig, Made g f sig b ∧
        ((stmtsSingles (bodyStmts f)).filterMap Stmt.storing?).length = 4 ∧
        ∀ s ∈ stmtsSingles (bodyStmts f), ∀ sto, s.storing? = some sto →
          2 ≤ sto.width sig.outs.length ∧ sto.Distinct ∧
          ∃ inLoop st st' cs, Visit (bodyEnv g b.1.kind sig) inLoop s st st' cs ∧ Within cs b.1.top.stmts ∧
            Simultaneous (bodyEnv g b.1.kind sig) sto st st' cs := by
  obtain ⟨p, hp, -⟩ : ∃ p, compile {} exchangingSample = .ok p ∧ True := exists_compile (by decide +kernel)
  obtain ⟨file, g, hfile, hg, hall⟩ := stores_at_once hp
  obtain ⟨file', hfile', ⟨g', hg', hvertex, hfragment, hsigs⟩, f, hf, hlen, hstored⟩ :
      ∃ file, File.ofSource exchangingSample = .ok file ∧
        (∃ g, fileGlobals {} file = .ok g ∧
          g.vertex.isNone ∧ g.fragment.isNone ∧ ∀ sig ∈ g.funcs, sig.outs.length = 2) ∧
        ∃ f ∈ funcDecls file.decls, ((stmtsSingles (bodyStmts f)).filterMap Stmt.storing?).length = 4 ∧
          ∀ sto ∈ (stmtsSingles (bodyStmts f)).filterMap Stmt.storing?, 2 ≤ sto.width 2 ∧ sto.Distinct :=
    File.exists_ofSource (by decide +kernel)
  obtain rfl := Except.ok.inj (hfile.symm.trans hfile')
  obtain rfl := Except.ok.inj (hg.symm.trans hg')
  obtain ⟨b, hb, sig, hmade, hs⟩ := hall f hf
  have houts : sig.outs.length = 2 := by
    rcases hmade.listed with hv | hv | hmem
    · rw [hv] at hvertex
      cases hvertex
    · rw [hv] at hfragment
      cases hfragment
    · exact hsigs sig hmem
  refine ⟨p, hp, file, g, hfile, hg, f, hf, b, hb, sig, hmade, hlen, fun s hmem sto hsto => ?_⟩
  obtain ⟨h2, hdistinct⟩ := hstored sto (List.mem_filterMap.mpr ⟨s, hmem, hsto⟩)
  have h2 : 2 ≤ sto.width sig.outs.length := by rwa [houts]
  exact ⟨h2, hdistinct, hs s hmem sto hsto h2 hdistinct⟩

end GameMedia.Shader
