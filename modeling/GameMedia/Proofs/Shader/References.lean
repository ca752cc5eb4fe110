import GameMedia.Proofs.Shader.Resolution

/-!
# References and stores

What code refers to and what it writes, at any depth. An expression that has a type has one in all its parts, except for
the names of what is called and the letters behind a point. So everything that follows from the type of one node holds
for every node of a body: the uniforms, textures and functions it refers to exist, and the one call that has outputs is
a statement by itself. The targets of a statement are therefore the left side of an assignment, a variable that is set to
zero, the counter of a loop, and the last arguments of such a call.
-/

namespace GameMedia.Shader.Code

open List Option

variable {S : Setting} {n e : Expr} {s : Stmt}

/-! ## Parts of an expression -/

/-- A part of an expression that is no value: what is called, and the letters behind a point. -/
def Expr.IsName (S : Setting) : Expr → Prop
  | .builtin _ | .swizzle _ => True
  | .func i => (S.funcs i).isSome
  | _ => False

mutual

/-- **Every part of an expression that has a type has one**, unless it is a name. -/
theorem type?_part (e : Expr) (h : e.type? S Γ = some t) : ∀ n ∈ e.nodes, (n.type? S Γ).isSome ∨ n.IsName S := by
  have hself : (e.type? S Γ).isSome ∨ e.IsName S := .inl (isSome_iff_exists.mpr ⟨t, h⟩)
  cases e with
  | blank | member i | builtin f | swizzle s | func i | select c a b => cases h
  | number c k | uniform i | texture i | localVar i => exact forall_mem_singleton.mpr hself
  | unary op e =>
    simp only [Expr.type?, bind_eq_bind, bind_eq_some_iff] at h
    obtain ⟨te, he, -⟩ := h
    exact forall_mem_cons.mpr ⟨hself, type?_part e he⟩
  | binary op l r =>
    simp only [Expr.type?, bind_eq_bind, bind_eq_some_iff] at h
    obtain ⟨tl, hl, tr, hr, -⟩ := h
    exact forall_mem_cons.mpr ⟨hself, forall_mem_append.mpr ⟨type?_part l hl, type?_part r hr⟩⟩
  | call f args =>
    cases f with
    | builtin f =>
      simp only [Expr.type?, bind_eq_bind, bind_eq_some_iff] at h
      obtain ⟨ts, hts, -⟩ := h
      have hname : ∀ n ∈ [Expr.builtin f], (n.type? S Γ).isSome ∨ n.IsName S := forall_mem_singleton.mpr (.inr trivial)
      exact forall_mem_cons.mpr ⟨hself, forall_mem_append.mpr ⟨hname, types?_part args hts⟩⟩
    | func i =>
      simp only [Expr.type?, bind_eq_bind, bind_eq_some_iff] at h
      obtain ⟨f, hf, ts, hts, -⟩ := h
      have hname : ∀ n ∈ [Expr.func i], (n.type? S Γ).isSome ∨ n.IsName S :=
        forall_mem_singleton.mpr (.inr (isSome_iff_exists.mpr ⟨f, hf⟩))
      exact forall_mem_cons.mpr ⟨hself, forall_mem_append.mpr ⟨hname, types?_part args hts⟩⟩
    | _ => cases h
  | field b letters =>
    cases letters with
    | swizzle s =>
      simp only [Expr.type?, bind_eq_bind, bind_eq_some_iff] at h
      obtain ⟨tb, hb, -⟩ := h
      have hname : ∀ n ∈ [Expr.swizzle s], (n.type? S Γ).isSome ∨ n.IsName S := forall_mem_singleton.mpr (.inr trivial)
      exact forall_mem_cons.mpr ⟨hself, forall_mem_append.mpr ⟨type?_part b hb, hname⟩⟩
    | _ => cases h
  | index b i =>
    simp only [Expr.type?, bind_eq_bind, bind_eq_some_iff] at h
    obtain ⟨tb, hb, ti, hi, -⟩ := h
    exact forall_mem_cons.mpr ⟨hself, forall_mem_append.mpr ⟨type?_part b hb, type?_part i hi⟩⟩

theorem types?_part (es : List Expr) (h : types? S Γ es = some ts) :
    ∀ n ∈ Expr.nodesAll es, (n.type? S Γ).isSome ∨ n.IsName S := by
  cases es with
  | nil => exact forall_mem_nil _
  | cons e es =>
    simp only [types?, bind_eq_bind, bind_eq_some_iff] at h
    obtain ⟨t, he, ts', hes, -⟩ := h
    exact forall_mem_append.mpr ⟨type?_part e he, types?_part es hes⟩

end

/-- What a node refers to is there, and only a fragment has a front. -/
def Expr.Refers (S : Setting) : Expr → Prop
  | .uniform i => i < S.uniforms.length
  | .texture i => i < S.textures
  | .func i => (S.funcs i).isSome
  | .call (.builtin .frontFacing) _ => S.kind = .fragment
  | _ => True

theorem refers_of_type? (h : (n.type? S Γ).isSome) : n.Refers S := by
  obtain ⟨t, ht⟩ := isSome_iff_exists.mp h
  unfold Expr.Refers
  split
  · exact (List.getElem?_eq_some_iff.mp ht).1
  · simp only [Expr.type?] at ht
    split at ht
    · assumption
    · cases ht
  · cases ht
  · simp only [Expr.type?, bind_eq_bind, bind_eq_some_iff] at ht
    obtain ⟨ts, -, ht⟩ := ht
    by_contra hkind
    rw [if_pos ⟨trivial, hkind⟩] at ht
    cases ht
  · trivial

theorem Expr.IsName.refers (h : n.IsName S) : n.Refers S := by
  cases n with
  | builtin f | swizzle s => trivial
  | func i => exact h
  | _ => exact absurd h id

/-- The arguments of a call that the function writes: those behind its inputs. -/
def Expr.outArgs (S : Setting) : Expr → List Expr
  | .call (.func i) args => ((S.funcs i).map fun f => args.drop f.ins.length).getD []
  | _ => []

/-- A call that has a value writes nothing. -/
theorem outArgs_of_type? (h : (n.type? S Γ).isSome) : n.outArgs S = [] := by
  obtain ⟨t, ht⟩ := isSome_iff_exists.mp h
  unfold Expr.outArgs
  split
  · next i args =>
    simp only [Expr.type?, bind_eq_bind, bind_eq_some_iff] at ht
    obtain ⟨f, hf, ts, hts, ht⟩ := ht
    split at ht
    · next hc =>
      obtain ⟨-, -, rfl⟩ := hc
      rw [hf, map_some, getD_some, Check.types?_length hts, drop_length]
    · cases ht
  · rfl

theorem Expr.IsName.outArgs (h : n.IsName S) : n.outArgs S = [] := by
  cases n with
  | call f args => exact absurd h id
  | _ => rfl

/-! ## Statements at any depth -/

/-- The expressions of a statement, blocks inside apart. -/
def Stmt.own : Stmt → List Expr
  | .expr e | .branch e _ _ | .ret (some e) => [e]
  | .assign l r => [l, r]
  | .block _ | .init _ | .loop _ _ | .next | .leave | .ret none | .discard => []

def Stmt.ownNodes (s : Stmt) : List Expr := s.own.flatMap Expr.nodes

mutual

/-- Every node of the code is one of a statement in it. -/
theorem Stmt.mem_ownNodes (s : Stmt) (chain : List Block) (h : n ∈ s.nodes) :
    ∃ x ∈ s.places chain, n ∈ x.2.ownNodes := by
  cases s with
  | expr e => exact ⟨(chain, .expr e), by simp [Stmt.places], by simpa [Stmt.ownNodes, Stmt.own, Stmt.nodes] using h⟩
  | block b =>
    obtain ⟨x, hx, hn⟩ := Block.mem_ownNodes b chain h
    exact ⟨x, mem_cons_of_mem _ hx, hn⟩
  | assign l r =>
    exact ⟨(chain, .assign l r), by simp [Stmt.places], by simpa [Stmt.ownNodes, Stmt.own, Stmt.nodes] using h⟩
  | init i => cases h
  | branch c t f =>
    cases f with
    | none =>
      rcases mem_append.mp h with h | h
      · exact ⟨(chain, .branch c t none), mem_cons_self,
          by simpa [Stmt.ownNodes, Stmt.own, Stmt.nodes] using h⟩
      · obtain ⟨x, hx, hn⟩ := Block.mem_ownNodes t chain h
        exact ⟨x, mem_cons_of_mem _ hx, hn⟩
    | some f =>
      rcases mem_append.mp h with h | h
      · rcases mem_append.mp h with h | h
        · exact ⟨(chain, .branch c t (some f)), mem_cons_self,
            by simpa [Stmt.ownNodes, Stmt.own, Stmt.nodes] using h⟩
        · obtain ⟨x, hx, hn⟩ := Block.mem_ownNodes t chain h
          exact ⟨x, mem_cons_of_mem _ (mem_append_left _ hx), hn⟩
      · obtain ⟨x, hx, hn⟩ := Block.mem_ownNodes f chain h
        exact ⟨x, mem_cons_of_mem _ (mem_append_right _ hx), hn⟩
  | loop c b =>
    obtain ⟨x, hx, hn⟩ := Block.mem_ownNodes b chain h
    exact ⟨x, mem_cons_of_mem _ hx, hn⟩
  | next | leave => cases h
  | ret v =>
    cases v with
    | none => cases h
    | some e =>
      exact ⟨(chain, .ret (some e)), by simp [Stmt.places], by simpa [Stmt.ownNodes, Stmt.own, Stmt.nodes] using h⟩
  | discard => cases h

theorem Block.mem_ownNodes (b : Block) (chain : List Block) (h : n ∈ b.nodes) :
    ∃ x ∈ b.places chain, n ∈ x.2.ownNodes := by
  cases b with
  | mk vars offset ss => exact stmts_mem_ownNodes ss (.mk vars offset ss :: chain) h

theorem stmts_mem_ownNodes (ss : List Stmt) (chain : List Block) (h : n ∈ stmtNodes ss) :
    ∃ x ∈ stmtsPlaces chain ss, n ∈ x.2.ownNodes := by
  cases ss with
  | nil => cases h
  | cons s ss =>
    rcases mem_append.mp h with h | h
    · obtain ⟨x, hx, hn⟩ := Stmt.mem_ownNodes s chain h
      exact ⟨x, mem_append_left _ hx, hn⟩
    · obtain ⟨x, hx, hn⟩ := stmts_mem_ownNodes ss chain h
      exact ⟨x, mem_append_right _ hx, hn⟩

end

mutual

/-- **Every statement of well typed code is well typed**, in the variables where it stands. -/
theorem Stmt.Typed.place (s : Stmt) {inLoop : Bool} {Γ : Locals} (chain : List Block) (h : s.Typed S inLoop Γ) :
    ∀ x ∈ s.places chain, ∃ inLoop' Γ', x.2.Typed S inLoop' Γ' := by
  have hself : ∃ inLoop' Γ', s.Typed S inLoop' Γ' := ⟨inLoop, Γ, h⟩
  cases s with
  | block b => exact forall_mem_cons.mpr ⟨hself, Block.Typed.place b chain h⟩
  | branch c t f =>
    cases f with
    | none => exact forall_mem_cons.mpr ⟨hself, Block.Typed.place t chain h.2⟩
    | some f =>
      exact forall_mem_cons.mpr
        ⟨hself, forall_mem_append.mpr ⟨Block.Typed.place t chain h.2.1, Block.Typed.place f chain h.2.2⟩⟩
  | loop c b => exact forall_mem_cons.mpr ⟨hself, Block.Typed.place b chain h.2.2⟩
  | _ => exact forall_mem_singleton.mpr hself

theorem Block.Typed.place (b : Block) {inLoop : Bool} {Γ : Locals} (chain : List Block) (h : b.Typed S inLoop Γ) :
    ∀ x ∈ b.places chain, ∃ inLoop' Γ', x.2.Typed S inLoop' Γ' := by
  cases b with
  | mk vars offset ss => exact stmtsTyped_place ss (.mk vars offset ss :: chain) h.2

theorem stmtsTyped_place (ss : List Stmt) {inLoop : Bool} {Γ : Locals} (chain : List Block)
    (h : stmtsTyped S inLoop Γ ss) : ∀ x ∈ stmtsPlaces chain ss, ∃ inLoop' Γ', x.2.Typed S inLoop' Γ' := by
  cases ss with
  | nil => exact forall_mem_nil _
  | cons s ss => exact forall_mem_append.mpr ⟨Stmt.Typed.place s chain h.1, stmtsTyped_place ss chain h.2⟩

end

/-- A statement that is an expression gives a value, or it is a call with its outputs behind its inputs. -/
theorem Expr.Runs.cases (h : e.Runs S Γ) :
    (∃ t, e.type? S Γ = some t) ∨ ∃ i args f, e = .call (.func i) args ∧ S.funcs i = some f ∧
      types? S Γ args = some (f.ins ++ f.outs) ∧ DistinctLocals (args.drop f.ins.length) := by
  unfold Expr.Runs at h
  split at h
  · obtain ⟨f, hf, h⟩ := (Option.any_eq_true _ _).mp h
    obtain ⟨hts, hd⟩ := of_decide_eq_true h
    exact .inr ⟨_, _, f, rfl, hf, hts, hd⟩
  · exact .inl (isSome_iff_exists.mp h)

/-- A node of a well typed statement is a value or a name, or the statement is the call that it is. -/
theorem Stmt.Typed.part (h : s.Typed S inLoop Γ) (hn : n ∈ s.ownNodes) :
    ((n.type? S Γ).isSome ∨ n.IsName S) ∨
      ∃ i args, s = .expr (.call (.func i) args) ∧ n = .call (.func i) args ∧ (S.funcs i).isSome ∧
        DistinctLocals (n.outArgs S) := by
  obtain ⟨e, he, hmem⟩ := mem_flatMap.mp hn
  have hvalue : ∀ t, e.type? S Γ = some t → (n.type? S Γ).isSome ∨ n.IsName S := fun t ht => type?_part e ht n hmem
  cases s with
  | expr e' =>
    obtain rfl := mem_singleton.mp he
    rcases Expr.Runs.cases h with ⟨t, ht⟩ | ⟨i, args, f, rfl, hf, hts, hd⟩
    · exact .inl (hvalue t ht)
    have hsome : (S.funcs i).isSome := isSome_iff_exists.mpr ⟨f, hf⟩
    rcases mem_cons.mp hmem with rfl | hmem
    · refine .inr ⟨i, args, rfl, rfl, hsome, ?_⟩
      rw [Expr.outArgs, hf]
      exact hd
    rcases mem_append.mp hmem with hmem | hmem
    · obtain rfl := mem_singleton.mp hmem
      exact .inl (.inr hsome)
    · exact .inl (types?_part args hts n hmem)
  | assign l r =>
    obtain ⟨hsome, heq⟩ := h
    obtain ⟨t, ht⟩ := isSome_iff_exists.mp hsome
    rcases mem_cons.mp he with rfl | he
    · exact .inl (hvalue t ht)
    · obtain rfl := mem_singleton.mp he
      exact .inl (hvalue t (heq ▸ ht))
  | branch c t f =>
    obtain rfl := mem_singleton.mp he
    cases f with
    | none | some f => exact .inl (hvalue _ h.1)
  | ret v =>
    cases v with
    | none => cases he
    | some e' =>
      obtain rfl := mem_singleton.mp he
      exact .inl (hvalue _ h.2)
  | _ => cases he

theorem Stmt.Typed.refers (h : s.Typed S inLoop Γ) (hn : n ∈ s.ownNodes) : n.Refers S := by
  rcases h.part hn with (hv | hname) | ⟨i, args, -, rfl, -⟩
  · exact refers_of_type? hv
  · exact hname.refers
  · trivial

/-- **Whatever well typed code refers to is there.** -/
theorem Block.Typed.refers {b : Block} (h : b.Typed S inLoop Γ) {n : Expr} (hn : n ∈ b.nodes) : n.Refers S := by
  obtain ⟨x, hx, hn⟩ := Block.mem_ownNodes b [] hn
  obtain ⟨inLoop', Γ', hx⟩ := Block.Typed.place b [] h x hx
  exact hx.refers hn

mutual

/-- A statement and the ones inside it that no loop inside it repeats. -/
def Stmt.unlooped : Stmt → List Stmt
  | .block b => .block b :: Block.unlooped b
  | .branch c t none => .branch c t none :: Block.unlooped t
  | .branch c t (some f) => .branch c t (some f) :: (Block.unlooped t ++ Block.unlooped f)
  | s => [s]

def Block.unlooped : Block → List Stmt
  | .mk _ _ ss => stmtsUnlooped ss

def stmtsUnlooped : List Stmt → List Stmt
  | [] => []
  | s :: ss => s.unlooped ++ stmtsUnlooped ss

end

mutual

/-- Outside loops, code that is well typed neither leaves a loop nor goes on with one. -/
theorem Stmt.Typed.no_jump (s : Stmt) {Γ : Locals} (h : s.Typed S false Γ) :
    ∀ u ∈ s.unlooped, u ≠ .next ∧ u ≠ .leave := by
  cases s with
  | block b => exact forall_mem_cons.mpr ⟨⟨nofun, nofun⟩, Block.Typed.no_jump b h⟩
  | branch c t f =>
    cases f with
    | none => exact forall_mem_cons.mpr ⟨⟨nofun, nofun⟩, Block.Typed.no_jump t h.2⟩
    | some f =>
      exact forall_mem_cons.mpr
        ⟨⟨nofun, nofun⟩, forall_mem_append.mpr ⟨Block.Typed.no_jump t h.2.1, Block.Typed.no_jump f h.2.2⟩⟩
  | next | leave => cases h
  | _ => exact forall_mem_singleton.mpr ⟨nofun, nofun⟩

theorem Block.Typed.no_jump (b : Block) {Γ : Locals} (h : b.Typed S false Γ) :
    ∀ u ∈ b.unlooped, u ≠ .next ∧ u ≠ .leave := by
  cases b with
  | mk vars offset ss => exact stmtsTyped_no_jump ss h.2

theorem stmtsTyped_no_jump (ss : List Stmt) {Γ : Locals} (h : stmtsTyped S false Γ ss) :
    ∀ u ∈ stmtsUnlooped ss, u ≠ .next ∧ u ≠ .leave := by
  cases ss with
  | nil => exact forall_mem_nil _
  | cons s ss => exact forall_mem_append.mpr ⟨Stmt.Typed.no_jump s h.1, stmtsTyped_no_jump ss h.2⟩

end

/-! ## Targets -/

/-- What a statement writes by itself. The counter of a loop is written by its head. -/
def Stmt.stores : Stmt → List Expr
  | .assign l _ => [l]
  | .init i => [.localVar i]
  | .loop c _ => [.localVar c.index]
  | .expr _ | .block _ | .branch _ _ _ | .next | .leave | .ret _ | .discard => []

/-- Everything that a statement writes, blocks inside apart: its stores and the output arguments of the calls in it. -/
def Stmt.targets (S : Setting) (s : Stmt) : List Expr := s.stores ++ s.ownNodes.flatMap (Expr.outArgs S)

/-- The calls in a well typed statement write nothing, unless the statement is a call. -/
theorem Stmt.Typed.mem_targets (h : s.Typed S inLoop Γ) (he : e ∈ s.targets S) :
    e ∈ s.stores ∨ ∃ i args, s = .expr (.call (.func i) args) ∧ e ∈ Expr.outArgs S (.call (.func i) args) ∧
      e.local?.isSome := by
  rcases mem_append.mp he with he | he
  · exact .inl he
  obtain ⟨n, hn, he⟩ := mem_flatMap.mp he
  rcases h.part hn with (hv | hname) | ⟨i, args, rfl, rfl, -, hd⟩
  · rw [outArgs_of_type? hv] at he
    cases he
  · rw [hname.outArgs] at he
    cases he
  · exact .inr ⟨i, args, rfl, he, hd.1 e he⟩

theorem Stmt.Typed.written (h : s.Typed S inLoop Γ) (hs : s.IsSimple)
    (hroot : ∀ l r, s = .assign l r → l.root?.isSome) (he : e ∈ s.targets S) : ∃ i ∈ s.written S, e.root? = some i := by
  rcases h.mem_targets he with hstore | ⟨i, args, rfl, hout, hlocal⟩
  · cases s with
    | assign l r =>
      obtain rfl := mem_singleton.mp hstore
      obtain ⟨i, hi⟩ := isSome_iff_exists.mp (hroot e r rfl)
      exact ⟨i, by simp [Stmt.written, hi], hi⟩
    | init i =>
      obtain rfl := mem_singleton.mp hstore
      exact ⟨i, mem_singleton_self i, rfl⟩
    | loop c b => exact absurd hs id
    | _ => cases hstore
  · obtain ⟨j, hj⟩ := isSome_iff_exists.mp hlocal
    cases e with
    | localVar k =>
      refine ⟨k, ?_, rfl⟩
      cases hf : S.funcs i with
      | none =>
        rw [Expr.outArgs, hf] at hout
        cases hout
      | some f =>
        rw [Expr.outArgs, hf] at hout
        simp only [Stmt.written, hf]
        exact mem_filterMap.mpr ⟨_, hout, rfl⟩
    | _ => cases hj

end GameMedia.Shader.Code
