import GameMedia.Shader.Target.Registry
import GameMedia.Proofs.Shader.Soundness

/-!
# Resolution of variables

Blocks beside each other number their variables from the same place, and a block may go on with numbers that blocks in it
have used. So what a number means depends on where it stands: it is the variable of the innermost block around it that
declares it, or a parameter. This is the variable that the source means. The open scopes number their variables without
gaps, from which follows that only the block of its own scope can declare a variable that is in scope, and what that
scope gets later has other numbers.

Two invariants meet where a variable occurs. The scopes are rooted, which goes forward through the statements, and the
blocks around cover them, which goes backward, because a block has the variables of its scope at the end.
-/

namespace GameMedia.Shader

open List Option

namespace Code

variable {n : Nat} {chain : List Block}

/-! ## Variables of code -/

def Expr.locals (e : Expr) : List Nat := e.nodes.filterMap Expr.local?

theorem Expr.mem_locals {e : Expr} : i ∈ e.locals ↔ .localVar i ∈ e.nodes := by
  rw [Expr.locals, mem_filterMap]
  constructor
  · rintro ⟨n, hn, hi⟩
    cases n with
    | localVar j => exact some.inj hi ▸ hn
    | _ => cases hi
  · exact fun h => ⟨_, h, rfl⟩

/-- The variables that a statement uses or sets, blocks inside apart. -/
def Stmt.locals : Stmt → List Nat
  | .expr e | .branch e _ _ | .ret (some e) => e.locals
  | .assign l r => l.locals ++ r.locals
  | .init i => [i]
  | .loop c _ => [c.index]
  | .block _ | .next | .leave | .ret none | .discard => []

theorem Stmt.IsSimple.mem_locals {s : Stmt} (hs : s.IsSimple) (h : i ∈ s.locals) :
    .localVar i ∈ s.reads ∨ s.stored? = some i := by
  cases s with
  | expr e => exact .inl (Expr.mem_locals.mp h)
  | block b => exact absurd hs id
  | assign l r =>
    have hnode : .localVar i ∈ (Stmt.assign l r).nodes := by
      rcases mem_append.mp h with h | h
      · exact mem_append_left _ (Expr.mem_locals.mp h)
      · exact mem_append_right _ (Expr.mem_locals.mp h)
    rcases Stmt.mem_nodes hnode with h | ⟨j, hj, hij⟩
    · exact .inl h
    · exact .inr (Expr.localVar.inj hij ▸ hj)
  | init j => exact .inr (congrArg some (mem_singleton.mp h).symm)
  | branch c t f | loop c b => exact absurd hs id
  | next | leave => cases h
  | ret v =>
    cases v with
    | none => cases h
    | some e => exact .inl (Expr.mem_locals.mp h)
  | discard => cases h

mutual

/-- A statement and the ones inside it, each with the blocks around it, the innermost first. -/
def Stmt.places (chain : List Block) : Stmt → List (List Block × Stmt)
  | .block b => (chain, .block b) :: Block.places chain b
  | .branch c t none => (chain, .branch c t none) :: Block.places chain t
  | .branch c t (some f) => (chain, .branch c t (some f)) :: (Block.places chain t ++ Block.places chain f)
  | .loop c b => (chain, .loop c b) :: Block.places chain b
  | s => [(chain, s)]

def Block.places (chain : List Block) : Block → List (List Block × Stmt)
  | .mk vars offset ss => stmtsPlaces (.mk vars offset ss :: chain) ss

def stmtsPlaces (chain : List Block) : List Stmt → List (List Block × Stmt)
  | [] => []
  | s :: ss => s.places chain ++ stmtsPlaces chain ss

end

theorem Stmt.IsSimple.places {s : Stmt} (hs : s.IsSimple) (chain : List Block) : s.places chain = [(chain, s)] := by
  cases s with
  | block b | branch c t f | loop c b => exact absurd hs id
  | _ => rfl

theorem stmtsPlaces_append (chain : List Block) (cs ds : List Stmt) :
    stmtsPlaces chain (cs ++ ds) = stmtsPlaces chain cs ++ stmtsPlaces chain ds := by
  induction cs with
  | nil => rfl
  | cons c cs ih => rw [cons_append, stmtsPlaces, ih, stmtsPlaces, append_assoc]

/-- Every variable of a statement is one of the first `n` or declared by a block around. The block right around a loop
declares the counter and nothing else. -/
structure Stmt.Closed (n : Nat) (chain : List Block) (s : Stmt) : Prop where
  locals : ∀ i ∈ s.locals, i < n ∨ ∃ b ∈ chain, b.declares i = true
  counter : ∀ c b, s = .loop c b → ∃ head, chain.head? = some head ∧ head.offset = c.index ∧ head.vars = [.none]

def Closed (n : Nat) (places : List (List Block × Stmt)) : Prop := ∀ x ∈ places, x.2.Closed n x.1

theorem closed_append : Closed n (xs ++ ys) ↔ Closed n xs ∧ Closed n ys :=
  forall_mem_append

theorem closed_cons : Closed n ((chain, s) :: xs) ↔ s.Closed n chain ∧ Closed n xs :=
  forall_mem_cons

theorem closed_block (n : Nat) (chain : List Block) (b : Block) : (Stmt.block b).Closed n chain :=
  ⟨nofun, fun _ _ h => nomatch h⟩

theorem closed_branch (h : ∀ i ∈ c.locals, i < n ∨ ∃ b ∈ chain, b.declares i = true) :
    (Stmt.branch c t f).Closed n chain :=
  ⟨h, fun _ _ h => nomatch h⟩

end Code

namespace Check

open Code (closed_append closed_cons closed_block closed_branch)

/-! ## Scopes and the blocks they become -/

/-- The type of a variable's slot. That of a counter has none, because the head of the loop declares it. -/
def Variable.slotType (v : Variable) : Ty := if v.role = .counter then .none else v.ty

/-- The open scopes of a body. The parameters are the first variables of the outermost one. -/
inductive Rooted (params : List Ty) : List Scope → Prop
  | body {s : Scope} : s.base = 0 → s.paramCount = params.length →
      (s.vars.take params.length).map Variable.slotType = params → Rooted params [s]
  | inner {s : Scope} {ss : List Scope} : s.base = stop ss → s.paramCount = 0 → Rooted params ss →
      Rooted params (s :: ss)

def Covers (chain : List Code.Block) (ss : List Scope) : Prop :=
  List.Forall₂ (fun b s => b.offset = s.base + s.paramCount ∧ s.localTypes <+: b.vars) chain ss

section

variable {params : List Ty} {chain : List Code.Block} {ss ss' : List Scope} {i : Nat} {v : Variable} {b : Code.Block}

theorem Rooted.nested (h : Rooted params ss) : Nested ss := by
  induction h with
  | body hb _ _ => exact hb
  | @inner s ss hb _ _ ih =>
    match ss, ih with
    | o :: ss, ih => exact ⟨hb, ih⟩

theorem Rooted.length_le_stop (h : Rooted params ss) : params.length ≤ stop ss := by
  induction h with
  | @body s hb hc hp =>
    have hlen := congrArg length hp
    simp only [length_map, length_take] at hlen
    simp only [stop, Scope.stop]
    omega
  | inner hb _ _ ih =>
    simp only [stop, Scope.stop]
    omega

theorem Rooted.grow (h : Rooted params ss) (a : Added) : Rooted params (grow a ss) := by
  cases h with
  | @body s hb hc hp =>
    refine .body hb hc ?_
    have hle : params.length ≤ s.vars.length := by
      have hlen := congrArg length hp
      simp only [length_map, length_take] at hlen
      omega
    -- new variables stand behind the parameters
    rw [Scope.add, take_append_of_le_length hle]
    exact hp
  | inner hb hc h => exact .inner hb hc h

theorem Rooted.opened (h : Rooted params ss) : Rooted params (opened ss) := .inner rfl rfl h

theorem Rooted.head (h : Rooted params ss) (name : String) (pos : Pos) (ty : Ty) :
    Rooted params (headScope name pos ty ss :: ss) :=
  .inner rfl rfl h

theorem localTypes_isPrefix (s : Scope) (a : Added) : s.localTypes <+: (s.add a).localTypes := by
  simp only [Scope.localTypes, Scope.add, drop_append, map_append]
  exact prefix_append _ _

theorem Covers.of_grows (h : Covers chain ss') (hg : Grows ss ss') : Covers chain ss := by
  obtain ⟨a, -, rfl⟩ := hg
  cases ss with
  | nil => exact h
  | cons s ss =>
    cases h with
    | cons hb hrest => exact .cons ⟨hb.1, (localTypes_isPrefix s a).trans hb.2⟩ hrest

theorem Covers.block (h : Covers chain ss) (hs : s.paramCount = 0) (cs : List Code.Stmt) :
    Covers (s.block cs :: chain) (s :: ss) :=
  .cons ⟨by rw [hs]; rfl, prefix_refl _⟩ h

/-! ## Where a variable is found -/

/-- The variable is in the `k`-th open scope, and the `k`-th block is the innermost that declares its number, unless it
is a parameter. The slot has the variable's type. -/
def Located (params : List Ty) (chain : List Code.Block) (ss : List Scope) (i : Nat) (v : Variable) (k : Nat) : Prop :=
  (∃ s, ss[k]? = some s ∧ s.base ≤ i ∧ s.vars[i - s.base]? = some v) ∧
    ((i < params.length ∧ k + 1 = ss.length ∧ chain.findIdx? (·.declares i) = none ∧ params[i]? = some v.slotType) ∨
      (params.length ≤ i ∧ chain.findIdx? (·.declares i) = some k ∧
        ∃ b, chain[k]? = some b ∧ b.vars[i - b.offset]? = some v.slotType))

theorem slot_of_covers {s : Scope} (hb : b.offset = s.base + s.paramCount ∧ s.localTypes <+: b.vars)
    (hi : s.base + s.paramCount ≤ i) (hv : s.vars[i - s.base]? = some v) :
    b.declares i = true ∧ b.vars[i - b.offset]? = some v.slotType := by
  obtain ⟨hoff, hpre⟩ := hb
  have hslot : s.localTypes[i - b.offset]? = some v.slotType := by
    rw [Scope.localTypes, List.getElem?_map, List.getElem?_drop,
      show s.paramCount + (i - b.offset) = i - s.base by omega, hv]
    rfl
  have hget : b.vars[i - b.offset]? = some v.slotType := by
    obtain ⟨hlt, heq⟩ := List.getElem?_eq_some_iff.mp hslot
    rw [prefix_iff_getElem?.mp hpre _ hlt, heq]
  have hlt := (List.getElem?_eq_some_iff.mp hget).1
  exact ⟨Code.Block.declares_iff.mpr ⟨by omega, by omega⟩, hget⟩

theorem not_declares_of_lt (h : i < b.offset) : b.declares i = false := by
  rw [Bool.eq_false_iff]
  intro hd
  rw [Code.Block.declares_iff] at hd
  omega

/-- **An open variable is found in the block of its scope.** Outer blocks that declare the number as well do not matter,
and no inner block does. -/
theorem located (hr : Rooted params ss) (hc : Covers chain ss) (hv : numbered? ss i = some v) :
    ∃ k, Located params chain ss i v k := by
  induction hr generalizing chain with
  | @body s hbase hcount hparams =>
    cases hc with
    | @cons b _ chain _ hb hrest =>
      cases hrest
      rw [numbered?, if_pos (by omega)] at hv
      refine ⟨0, ⟨s, rfl, by omega, hv⟩, ?_⟩
      -- the block begins behind the parameters, so it declares none of them
      by_cases hi : i < params.length
      · refine .inl ⟨hi, rfl, ?_, ?_⟩
        · rw [findIdx?_cons, not_declares_of_lt (by omega)]
          rfl
        · rw [hbase, Nat.sub_zero] at hv
          rw [← hparams, List.getElem?_map, List.getElem?_take_of_lt hi, hv]
          rfl
      · obtain ⟨hdecl, hslot⟩ := slot_of_covers hb (by omega) hv
        exact .inr ⟨by omega, by rw [findIdx?_cons, if_pos hdecl], b, rfl, hslot⟩
  | @inner s ss hbase hcount hr ih =>
    cases hc with
    | @cons b _ chain _ hb hrest =>
      unfold numbered? at hv
      split at hv
      · next hle =>
        have hn := hr.length_le_stop
        obtain ⟨hdecl, hslot⟩ := slot_of_covers hb (by omega) hv
        exact ⟨0, ⟨s, rfl, hle, hv⟩, .inr ⟨by omega, by rw [findIdx?_cons, if_pos hdecl], b, rfl, hslot⟩⟩
      · next hle =>
        -- The scope begins behind the variable, so its block does not declare it.
        have hskip : (b :: chain).findIdx? (·.declares i) = (chain.findIdx? (·.declares i)).map (· + 1) := by
          rw [findIdx?_cons, not_declares_of_lt (by omega)]
          rfl
        obtain ⟨k, hscope, hblock⟩ := ih hrest hv
        refine ⟨k + 1, hscope, ?_⟩
        rw [hskip]
        rcases hblock with ⟨hi, hk, hfind, hty⟩ | ⟨hi, hfind, hslot⟩
        · exact .inl ⟨hi, by rw [length_cons, hk], by rw [hfind]; rfl, hty⟩
        · exact .inr ⟨hi, by rw [hfind]; rfl, hslot⟩

theorem Located.localTypeIn {body : Body} (h : Located body.params chain ss i v k) :
    Target.localTypeIn body chain i = .ok v.slotType := by
  unfold Target.localTypeIn
  rw [find?_eq_bind_findIdx?_getElem?]
  rcases h.2 with ⟨-, -, hfind, hty⟩ | ⟨-, hfind, b, hb, hslot⟩
  · rw [hfind]
    simp only [bind_none, Body.localType, Code.localType, hty, some_or]
    rfl
  · rw [hfind]
    simp only [bind_some, hb, hslot]

/-! ## Statements -/

/-- An occurrence of a number stands for the variable: it is found in the block of the scope that has the variable, and
the writer gets the type of its slot there. -/
structure StandsFor (body : Body) (chain : List Code.Block) (ss : List Scope) (i : Nat) (v : Variable) : Prop where
  located : ∃ k, Located body.params chain ss i v k
  type : Target.localTypeIn body chain i = .ok v.slotType

/-- **The rule of resolution.** A variable that a statement reads, or sets in part, stands for one that the source means
there. One that is set as a whole may also be new or an output, and is no counter. -/
def Site.Resolved (body : Body) : Rule := fun K chain ss cs c =>
  (∀ s ∈ cs, s.IsSimple ∧
    (∀ i, .localVar i ∈ s.reads → ∃ v, K.Means ss i v ∧ StandsFor body chain ss i v) ∧
    ∀ i, s.stored? = some i → ∃ v, K.Sets ss i v ∧ v.role ≠ .counter ∧ StandsFor body chain ss i v) ∧
  ∀ e, c = some e → ∀ i, .localVar i ∈ e.nodes → ∃ v, K.Means ss i v ∧ StandsFor body chain ss i v

variable {body : Body} {K : Site} {cs : List Code.Stmt} {c : Option Code.Expr}

theorem standsFor (hr : Rooted body.params ss) (hc : Covers chain ss) (hv : numbered? ss i = some v) :
    StandsFor body chain ss i v := by
  obtain ⟨k, hk⟩ := located hr hc hv
  exact ⟨⟨k, hk⟩, hk.localTypeIn⟩

theorem Site.Means.numbered (h : K.Means ss i v) (hn : Nested K.start) (hg : Grows K.start ss) :
    numbered? ss i = some v := by
  rcases h with ⟨name, -, hv⟩ | ⟨-, hv, -⟩
  · obtain ⟨a, -, rfl⟩ := hg
    exact numbered?_grow a (hn.numbered?_of_lookup hv)
  · exact hv

theorem Site.Sets.numbered (h : K.Sets ss i v) (hn : Nested K.start) (hg : Grows K.start ss) :
    numbered? ss i = some v := by
  rcases h with h | ⟨-, hv, -⟩ | ⟨-, hv, -⟩
  · exact h.numbered hn hg
  · exact hv
  · exact hv

theorem mem_written_of_stored {s : Code.Stmt} (h : s.stored? = some i) : i ∈ s.written S := by
  unfold Code.Stmt.stored? at h
  split at h
  · cases h
    exact mem_singleton_self _
  · cases h
    exact mem_singleton_self _
  · cases h

/-- What the checker writes follows the rule. -/
theorem Site.Written.resolved (h : Site.Written K chain ss cs c) (hn : Nested K.start) (hg : Grows K.start ss)
    (hr : Rooted body.params ss) (hc : Covers chain ss) : Site.Resolved body K chain ss cs c := by
  have hmeant : ∀ i, K.Meant ss i → ∃ v, K.Means ss i v ∧ StandsFor body chain ss i v := by
    rintro i ⟨v, hv⟩
    exact ⟨v, hv, standsFor hr hc (hv.numbered hn hg)⟩
  refine ⟨fun s hs => ?_, fun e he i hi => hmeant i ((h.2 e he).fine _ hi)⟩
  have hw := h.1 s hs
  refine ⟨hw.simple, fun i hi => hmeant i (hw.reads _ hi), fun i hi => ?_⟩
  obtain ⟨v, hv⟩ := hw.stored i hi
  -- what may be written is no counter, and it is the variable that is set
  obtain ⟨w, hnum, -, hrole⟩ := hw.writable i (mem_written_of_stored hi)
  have hnum' := hv.numbered hn hg
  obtain rfl := some.inj (hnum.symm.trans hnum')
  exact ⟨w, hv, hrole, standsFor hr hc hnum⟩

/-- **The variables of statements are resolved** if the blocks around cover the scopes behind them. -/
theorem Lowers.resolved
    (h : Lowers Site.Written env inLoop chain ss S ss' cs) (hr : Rooted body.params ss) (hc : Covers chain ss') :
    Lowers (Site.Resolved body) env inLoop chain ss S ss' cs := by
  induction h with
  | nil => exact .nil
  | single hs hdecl ha hw hrest ih =>
    -- scopes are rooted before the statement, and covered by what is behind it
    have hw' := hw.resolved hr.nested ⟨_, ha, rfl⟩ (hr.grow _) (hc.of_grows hrest.grows)
    exact .single hs hdecl ha hw' (ih (hr.grow _) hc)
  | group _ ih => exact .group (ih hr hc)
  | block hb hrest ihb ih =>
    obtain ⟨hs, -⟩ := isInner_of_grows hb.grows
    exact .block (ihb hr.opened ((hc.of_grows hrest.grows).block hs.1 _)) (ih hr hc)
  | cond hat ha hw hother ht hrest iht ih =>
    have hc₁ := hc.of_grows hrest.grows
    obtain ⟨hs, -⟩ := isInner_of_grows ht.grows
    exact .cond hat ha (hw.resolved hr.nested ⟨_, ha, rfl⟩ (hr.grow _) hc₁) hother
      (iht (hr.grow _).opened (hc₁.block hs.1 _)) (ih (hr.grow _) hc)
  | condElse hat ha hw hother ht hf hrest iht ihf ih =>
    have hc₁ := hc.of_grows hrest.grows
    obtain ⟨hs, -⟩ := isInner_of_grows ht.grows
    obtain ⟨hs', -⟩ := isInner_of_grows hf.grows
    exact .condElse hat ha (hw.resolved hr.nested ⟨_, ha, rfl⟩ (hr.grow _) hc₁) hother
      (iht (hr.grow _).opened (hc₁.block hs.1 _)) (ihf (hr.grow _).opened (hc₁.block hs'.1 _)) (ih (hr.grow _) hc)
  | condInit hb hrest ihb ih =>
    obtain ⟨hs, -⟩ := isInner_of_grows hb.grows
    exact .condInit (ihb hr.opened ((hc.of_grows hrest.grows).block hs.1 _)) (ih hr hc)
  | loop hfirst hat ha hct hi hhead hb hrest ihb ih =>
    subst hhead
    obtain ⟨hs, -⟩ := isInner_of_grows hb.grows
    have hc₁ := hc.of_grows hrest.grows
    exact .loop hfirst hat ha hct hi rfl
      (ihb ((hr.grow _).head _ _ _).opened ((hc₁.block rfl _).block hs.1 _)) (ih (hr.grow _) hc)

/-! ## Closed code -/

theorem StandsFor.declared (h : StandsFor body chain ss i v) :
    i < body.params.length ∨ ∃ b ∈ chain, b.declares i = true := by
  obtain ⟨k, -, ⟨hi, -⟩ | ⟨-, hfind, -⟩⟩ := h.located
  · exact .inl hi
  · obtain ⟨hlt, hdecl, -⟩ := findIdx?_eq_some_iff_getElem.mp hfind
    exact .inr ⟨_, getElem_mem hlt, hdecl⟩

theorem Site.Resolved.closed (h : Site.Resolved body K chain ss cs c) :
    Code.Closed body.params.length (Code.stmtsPlaces chain cs) := by
  have hcs := h.1
  clear h
  induction cs with
  | nil => exact nofun
  | cons s cs ih =>
    rw [forall_mem_cons] at hcs
    obtain ⟨⟨hsimple, hreads, hstored⟩, hrest⟩ := hcs
    rw [Code.stmtsPlaces, hsimple.places chain]
    refine closed_cons.mpr ⟨⟨fun i hi => ?_, ?_⟩, ih hrest⟩
    · rcases hsimple.mem_locals hi with hi | hi
      · obtain ⟨v, -, hv⟩ := hreads i hi
        exact hv.declared
      · obtain ⟨v, -, -, hv⟩ := hstored i hi
        exact hv.declared
    · rintro c b rfl
      exact absurd hsimple id

theorem Site.Resolved.condition {e : Code.Expr} (h : Site.Resolved body K chain ss cs (some e)) :
    ∀ i ∈ e.locals, i < body.params.length ∨ ∃ b ∈ chain, b.declares i = true := by
  intro i hi
  obtain ⟨v, -, hv⟩ := h.2 e rfl i (Code.Expr.mem_locals.mp hi)
  exact hv.declared

theorem headScope_closed (name : String) (pos : Pos) (ty : Ty) (ds : List Code.Stmt) (hi : ct.index = stop ss) :
    (Code.Stmt.loop ct b).Closed n ((headScope name pos ty ss).block ds :: chain) where
  locals := by
    intro i hmem
    obtain rfl := mem_singleton.mp hmem
    rw [hi]
    exact .inr ⟨_, mem_cons_self, Code.Block.declares_iff.mpr ⟨le_rfl, Nat.lt_succ_self _⟩⟩
  counter := by
    intro c' b' heq
    obtain ⟨rfl, -⟩ := Code.Stmt.loop.inj heq
    exact ⟨_, rfl, hi.symm, rfl⟩

/-- **No variable of statements that are resolved is out of scope.** -/
theorem Lowers.closed
    (h : Lowers (Site.Resolved body) env inLoop chain ss S ss' cs) :
    Code.Closed body.params.length (Code.stmtsPlaces chain cs) := by
  induction h with
  | nil => exact nofun
  | single _ _ _ hw _ ih =>
    rw [Code.stmtsPlaces_append]
    exact closed_append.mpr ⟨hw.closed, ih⟩
  | group _ ih => exact ih
  | block _ _ ihb ih => exact closed_append.mpr ⟨closed_cons.mpr ⟨closed_block _ _ _, ihb⟩, ih⟩
  | cond _ _ hw _ _ _ iht ih =>
    rw [Code.stmtsPlaces_append]
    refine closed_append.mpr ⟨hw.closed, closed_append.mpr ⟨closed_cons.mpr ⟨?_, iht⟩, ih⟩⟩
    exact closed_branch hw.condition
  | condElse _ _ hw _ _ _ _ iht ihf ih =>
    rw [Code.stmtsPlaces_append]
    have hboth := closed_append.mpr ⟨iht, ihf⟩
    refine closed_append.mpr ⟨hw.closed, closed_append.mpr ⟨closed_cons.mpr ⟨?_, hboth⟩, ih⟩⟩
    exact closed_branch hw.condition
  | condInit _ _ ihb ih => exact closed_append.mpr ⟨closed_cons.mpr ⟨closed_block _ _ _, ihb⟩, ih⟩
  | loop _ _ _ _ hi hhead _ _ ihb ih =>
    subst hhead
    refine closed_append.mpr ⟨closed_cons.mpr ⟨closed_block _ _ _, ?_⟩, ih⟩
    exact closed_append.mpr ⟨closed_cons.mpr ⟨headScope_closed _ _ _ _ hi, ihb⟩, nofun⟩

end

/-! ## Bodies -/

section

variable {g : Globals} {f : Surface.FuncDecl} {sig : Signature} {body : Body}

/-- The variables of a body are resolved: the block begins behind the parameters, no variable is out of scope, and what
the source has as the function becomes the block, with each variable found where the source means it. Before that,
outputs that have names are set to zero. -/
structure ResolvedBody (g : Globals) (f : Surface.FuncDecl) (sig : Signature) (body : Body) : Prop where
  offset : body.top.offset = body.params.length
  closed : Code.Closed body.params.length (body.top.places [])
  lowered : ∃ s cs, body.top = .mk s.localTypes s.paramCount (zeroOutputs sig ++ cs) ∧
    Lowers (Site.Resolved body) (bodyEnv g body.kind sig) false [body.top] [bodyScope sig (body.kind != .helper)]
      (bodyStmts f) [s] cs

theorem rooted_body (sig : Signature) (readOnly : Bool) : Rooted sig.params [bodyScope sig readOnly] := by
  have hlen : (bodyScope sig readOnly).vars.length = sig.params.length := by
    rw [← bodyScope_types sig readOnly, length_map]
  refine .body rfl hlen ?_
  rw [take_of_length_le hlen.le, ← bodyScope_types sig readOnly]
  refine map_congr_left fun v hv => ?_
  obtain ⟨-, b, hrole⟩ := bodyScope_vars hv
  rw [Variable.slotType, if_neg (by rw [hrole]; nofun)]

theorem zeroOutputs_closed (sig : Signature) (chain : List Code.Block) :
    Code.Closed sig.params.length (Code.stmtsPlaces chain (zeroOutputs sig)) := by
  have hinits : ∀ ks : List Nat, (∀ k ∈ ks, k < sig.outs.length) →
      Code.Closed sig.params.length (Code.stmtsPlaces chain (ks.map fun k => .init (sig.ins.length + k))) := by
    intro ks hks
    induction ks with
    | nil => exact forall_mem_nil _
    | cons k ks ih =>
      rw [forall_mem_cons] at hks
      refine closed_cons.mpr ⟨⟨fun i hi => .inl ?_, fun _ _ h => by cases h⟩, ih hks.2⟩
      obtain rfl := mem_singleton.mp hi
      simpa [Signature.params] using hks.1
  unfold zeroOutputs
  split
  · exact hinits _ fun k hk => mem_range.mp hk
  · exact forall_mem_nil _

theorem BodyOf.resolved (h : BodyOf g f sig b) : ResolvedBody g f sig b.1 := by
  obtain ⟨body, ty⟩ := b
  obtain ⟨s, cs, htop, hl⟩ := h.lowered
  have hparams : body.params = sig.params := h.params
  obtain ⟨hbase, hcount, -, -⟩ := body_scope (hl []).grows
  have hcovers : Covers [body.top] [s] := by
    refine .cons ?_ .nil
    rw [htop]
    exact ⟨by rw [hbase, Nat.zero_add]; rfl, prefix_refl _⟩
  have hrooted : Rooted body.params [bodyScope sig (body.kind != .helper)] := hparams ▸ rooted_body sig _
  have hresolved := (hl [body.top]).resolved hrooted hcovers
  refine ⟨?_, ?_, s, cs, htop, hresolved⟩
  · rw [htop, hparams]
    exact hcount
  · have hclosed := hresolved.closed
    rw [htop] at hclosed ⊢
    rw [Code.Block.places, Code.stmtsPlaces_append]
    exact closed_append.mpr ⟨hparams ▸ zeroOutputs_closed sig _, hclosed⟩

end

end Check

/-! ## Names -/

open Target

variable {d : Dialect}

/-- What the text of a program is written in. -/
def dialects (p : Program) : List Dialect :=
  [Glsl.dialect .desktop p.unit, Glsl.dialect .es300 p.unit, Hlsl.dialect, Msl.dialect p]

def Apart (w w' : String) : Prop := ¬w.toList <+: w'.toList ∧ ¬w'.toList <+: w.toList

instance (w w' : String) : Decidable (Apart w w') := inferInstanceAs (Decidable (_ ∧ _))

theorem Apart.append_ne (h : Apart w w') (s t : String) : w ++ s ≠ w' ++ t := by
  intro heq
  have hlists : w.toList ++ s.toList = w'.toList ++ t.toList := by simpa using congrArg String.toList heq
  have hw : w.toList <+: w'.toList ++ t.toList := hlists ▸ prefix_append _ _
  rcases prefix_or_prefix_of_prefix hw (prefix_append _ _) with hle | hle
  · exact h.1 hle
  · exact h.2 hle

namespace Slot

def word : Slot → Nat
  | .attribute _ => 0
  | .position => 1
  | .varying _ => 2
  | .plain _ => 3

/-- What stands behind the word. -/
def digits : Slot → String
  | .attribute i | .varying i | .plain i => i.repr
  | .position => ""

theorem eq_of_word {s t : Slot} (hw : s.word = t.word) (hd : s.digits = t.digits) : s = t := by
  cases s <;> cases t <;> simp_all [word, digits, Nat.repr_inj]

theorem word_lt (s : Slot) : s.word < 4 := by cases s <;> simp [word]

/-- Names that are a word and a number. -/
def spell (words : List String) (s : Slot) : String := words.getD s.word "" ++ s.digits

theorem injective_of_spell {name : Slot → String} (words : List String) (hname : ∀ s, name s = s.spell words)
    (h : ∀ i < 4, ∀ j < 4, i ≠ j → Apart (words.getD i "") (words.getD j "")) : Function.Injective name := by
  intro s t heq
  rw [hname, hname] at heq
  by_cases hw : s.word = t.word
  · refine eq_of_word hw ((String.append_right_inj (words.getD s.word "")).mp ?_)
    rw [spell, spell, ← hw] at heq
    exact heq
  · exact absurd heq ((h _ s.word_lt _ t.word_lt hw).append_ne _ _)

end Slot

theorem slotName_injective {p : Program} (hd : d ∈ dialects p) : Function.Injective d.slotName := by
  have hglsl : Function.Injective Glsl.slotName :=
    Slot.injective_of_spell ["A", "gl_Position", "V", "l"] (fun s => by cases s <;> rfl) (by decide)
  have hhlsl : Function.Injective Hlsl.slotName :=
    Slot.injective_of_spell ["A", "varyings.Position", "varyings.M", "l"] (fun s => by cases s <;> rfl) (by decide)
  have hmsl : Function.Injective Msl.slotName :=
    Slot.injective_of_spell ["attributes[vid].M", "varyings.Position", "varyings.M", "l"]
      (fun s => by cases s <;> rfl) (by decide)
  simp only [dialects, mem_cons, not_mem_nil, or_false] at hd
  rcases hd with rfl | rfl | rfl | rfl
  · exact hglsl
  · exact hglsl
  · exact hhlsl
  · exact hmsl

theorem Body.slot_injective (b : Body) : Function.Injective b.slot := by
  intro i j h
  unfold Body.slot at h
  cases hk : b.kind with
  | helper =>
    rw [hk] at h
    exact Slot.plain.inj h
  | vertex =>
    simp only [hk] at h
    split_ifs at h <;> simp at h <;> omega
  | fragment =>
    simp only [hk] at h
    split_ifs at h <;> simp at h <;> omega

/-- How far out the declaration of a name in the text is: inner declarations hide outer ones. -/
def declarationDepth? (d : Dialect) (body : Body) (chain : List Code.Block) (name : String) : Option Nat :=
  chain.findIdx? fun b => (List.range b.vars.length).any fun k => localName d body (b.offset + k) = name

theorem declarationDepth?_localName (hinj : Function.Injective (localName d body)) (chain : List Code.Block) (i : Nat) :
    declarationDepth? d body chain (localName d body i) = chain.findIdx? (·.declares i) := by
  refine congrArg (fun f => chain.findIdx? f) (funext fun b => ?_)
  rw [Bool.eq_iff_iff, List.any_eq_true, Code.Block.declares_iff]
  constructor
  -- a block that declares the name declares it for this number
  · rintro ⟨k, hk, heq⟩
    obtain rfl := hinj (of_decide_eq_true heq)
    rw [mem_range] at hk
    omega
  · rintro ⟨hle, hlt⟩
    exact ⟨i - b.offset, mem_range.mpr (by omega), decide_eq_true (by rw [Nat.add_sub_cancel' hle])⟩

/-! ## Accepted sources -/

/-- **Variables are resolved soundly.** Every body of an accepted source is that of a function of the file, and each
variable in it is found in the block of the scope where the source declares what it means there. Names in the text are as
good as numbers, in every dialect and for every kind of body. -/
theorem compile_resolves {options : CompileOptions} {source : String} {p : Program}
    (h : compile options source = .ok p) :
    (∃ file g, Surface.File.ofSource source = .ok file ∧ Check.fileGlobals options file = .ok g ∧
      ∀ b ∈ p.bodies, ∃ f ∈ Check.funcDecls file.decls, ∃ sig, Check.BodyOf g f sig b ∧ Check.ResolvedBody g f sig b.1) ∧
    ∀ d ∈ dialects p, ∀ body : Body, Function.Injective (localName d body) ∧
      ∀ chain i, declarationDepth? d body chain (localName d body i) = chain.findIdx? (·.declares i) := by
  constructor
  · obtain ⟨file, g, hfile, hp⟩ := Check.compile_ok h
    refine ⟨file, g, hfile, hp.globals, fun b hb => ?_⟩
    obtain ⟨f, hf, sig, hbody⟩ := hp.bodies b hb
    exact ⟨f, hf, sig, hbody, hbody.resolved⟩
  · intro d hd body
    have hinj := (slotName_injective hd).comp body.slot_injective
    exact ⟨hinj, declarationDepth?_localName hinj⟩

theorem sample_resolves : ∃ p, compile {} sample = .ok p ∧
    ∀ b ∈ p.bodies, b.1.top.offset = b.1.params.length ∧ Code.Closed b.1.params.length (b.1.top.places []) := by
  obtain ⟨p, hp, -⟩ := sample_accepted
  obtain ⟨file, g, -, -, hbodies⟩ := (compile_resolves hp).1
  refine ⟨p, hp, fun b hb => ?_⟩
  obtain ⟨f, -, sig, -, hb⟩ := hbodies b hb
  exact ⟨hb.offset, hb.closed⟩

end GameMedia.Shader
