import GameMedia.Proofs.Shader.Typing

/-!
# Judgements on expressions

The checker builds expressions bottom up, so what it guarantees is stated once for each way to build one. A good
expression has its type by inference, holds no operator that could have been computed, and names only variables that
may be meant. Goodness is kept when more variables come into scope.
-/

namespace GameMedia.Shader

open List Option

/-! ## Storable types -/

namespace Ty

variable {t : Ty}

theorem Plain.cases (h : t.Plain) :
    t = bool ∨ t = int ∨ t = float ∨ t = basic .vec2 ∨ t = basic .vec3 ∨ t = vec4 ∨ t = basic .ivec2 ∨
      t = basic .ivec3 ∨ t = basic .ivec4 ∨ t = basic .mat2 ∨ t = basic .mat3 ∨ t = basic .mat4 := by
  simpa [Plain] using h

/-- What holds for the twelve plain types holds for every one. -/
@[elab_as_elim] theorem Plain.of_all {P : Ty → Prop} (h : t.Plain) (hall : ∀ t ∈ [bool, int, float, basic .vec2,
    basic .vec3, vec4, basic .ivec2, basic .ivec3, basic .ivec4, basic .mat2, basic .mat3, basic .mat4], P t) : P t :=
  hall t h

theorem Plain.storable (h : t.Plain) : t.Storable := h.of_all (by decide)

theorem Storable.cases (h : t.Storable) : t.Plain ∨ ∃ e n, t = array e n ∧ e.Plain := by
  unfold Storable at h
  split at h
  · exact .inr ⟨_, _, rfl, h⟩
  · exact .inl h

theorem Plain.storable_array (h : e.Plain) (n : Nat) : (array e n).Storable := h

theorem Plain.eq_basic (h : t.Plain) : t = basic t.tag := h.of_all (by decide)

theorem Plain.tag_ne_array (h : t.Plain) : t.tag ≠ .array := h.of_all (by decide)

theorem Storable.plain (h : t.Storable) (ht : t.tag ≠ .array) : t.Plain := by
  rcases h.cases with h | ⟨e, n, rfl, -⟩
  · exact h
  · exact absurd rfl ht

theorem Storable.eq_basic (h : t.Storable) (hk : t.tag = k) (ha : k ≠ .array) : t = basic k :=
  hk ▸ (h.plain (hk ▸ ha)).eq_basic

theorem Storable.tag_ne (h : t.Storable) : t.tag ≠ .none ∧ t.tag ≠ .texture ∧ t.tag ≠ .struct := by
  rcases h.cases with h | ⟨e, n, rfl, -⟩
  · exact h.of_all (by decide)
  · exact ⟨nofun, nofun, nofun⟩

theorem Storable.not_isNone (h : t.Storable) : t.isNone = false := by simp [isNone, h.tag_ne.1]

theorem Storable.ne_none (h : t.Storable) : t ≠ none := fun e => h.tag_ne.1 (e ▸ rfl)

end Ty

namespace Check

theorem defaultType_plain (c : Constant) : (defaultType c).Plain := by
  unfold defaultType
  split <;> decide

/-- The result of an operator is a truth value, an integer or of the type of an operand. -/
theorem binaryType?_mem (h : binaryType? op l r = some t) : t = .bool ∨ t = .int ∨ t = l ∨ t = r := by
  unfold binaryType? shiftType? integralType? arithmeticType? matrixMulType? at h
  grind

theorem swizzleType?_plain (h : swizzleType? base letters = some t) : t.Plain := by
  unfold swizzleType? Ty.floatVector? Ty.intVector? at h
  split at h
  · cases h
  split at h
  · cases h
  split at h <;> try split at h
  all_goals first
    | exact some.inj h ▸ by decide
    | cases h

theorem elements?_plain (ht : t.Storable) (h : elements? t = some (e, n)) : e.Plain := by
  rcases ht.cases with hp | ⟨e', k, rfl, he⟩
  · have hall : (elements? t).all (·.1.Plain) = true := hp.of_all (by decide)
    simpa [h] using hall
  · obtain ⟨rfl, -⟩ := Prod.mk.inj (some.inj h)
    exact he

end Check

namespace Code

/-! ## Inference under more declarations -/

section

variable {S S' : Setting} {Γ Γ' : Locals} {t : Ty}

@[simp] theorem type?_localVar : Expr.type? S Γ (.localVar i) = some t ↔ Γ i = some t ∧ t.isNone = false := by
  simp [Expr.type?, filter_eq_some_iff]

/-- What a node needs so that its type stays when the declarations around it change. -/
def Expr.Transfers (S S' : Setting) (Γ Γ' : Locals) : Expr → Prop
  | .localVar i => ∀ t, Γ i = some t → Γ' i = some t
  | .binary op l r => ∀ tl tr t, r.type? S Γ = some tr → S.binaryType? op l tl tr = some t →
      S'.binaryType? op l tl tr = some t
  | _ => True

mutual

theorem type?_transfer (hu : S.uniforms = S'.uniforms) (ht : S.textures = S'.textures) (hf : S.funcs = S'.funcs)
    (hk : S.kind = S'.kind) (e : Expr) (t : Ty) (h : e.type? S Γ = some t) (hn : ∀ n ∈ e.nodes, n.Transfers S S' Γ Γ') :
    e.type? S' Γ' = some t := by
  cases e with
  | blank => cases h
  | number c k => exact h
  | uniform i =>
    rw [Expr.type?, ← hu]
    exact h
  | texture i =>
    rw [Expr.type?, ← ht]
    exact h
  | localVar i =>
    rw [type?_localVar] at h ⊢
    exact ⟨hn (.localVar i) (by simp [Expr.nodes]) t h.1, h.2⟩
  | member i | builtin f | swizzle s | func i => cases h
  | unary op e =>
    simp only [Expr.type?, bind_eq_bind, bind_eq_some_iff] at h ⊢
    obtain ⟨te, he, h⟩ := h
    exact ⟨te, type?_transfer hu ht hf hk e te he fun n hm => hn n (by simp [Expr.nodes, hm]), h⟩
  | binary op l r =>
    simp only [Expr.type?, bind_eq_bind, bind_eq_some_iff] at h ⊢
    obtain ⟨tl, hl, tr, hr, h⟩ := h
    -- the operator is the one node whose rule may differ between the settings
    have hl' := type?_transfer hu ht hf hk l tl hl fun n hm => hn n (by simp [Expr.nodes, hm])
    have hr' := type?_transfer hu ht hf hk r tr hr fun n hm => hn n (by simp [Expr.nodes, hm])
    exact ⟨tl, hl', tr, hr', hn (.binary op l r) (by simp [Expr.nodes]) tl tr t hr h⟩
  | select c a b => cases h
  | call f args =>
    cases f with
    | builtin f =>
      simp only [Expr.type?, bind_eq_bind, bind_eq_some_iff] at h ⊢
      obtain ⟨ts, hts, h⟩ := h
      rw [hk] at h
      exact ⟨ts, types?_transfer hu ht hf hk args ts hts fun n hm => hn n (by simp [Expr.nodes, hm]), h⟩
    | func i =>
      simp only [Expr.type?, bind_eq_bind, bind_eq_some_iff] at h ⊢
      obtain ⟨f, hfi, ts, hts, h⟩ := h
      exact ⟨f, hf ▸ hfi, ts, types?_transfer hu ht hf hk args ts hts fun n hm => hn n (by simp [Expr.nodes, hm]), h⟩
    | _ => cases h
  | field b n =>
    cases n with
    | swizzle s =>
      simp only [Expr.type?, bind_eq_bind, bind_eq_some_iff] at h ⊢
      obtain ⟨tb, hb, h⟩ := h
      exact ⟨tb, type?_transfer hu ht hf hk b tb hb fun n hm => hn n (by simp [Expr.nodes, hm]), h⟩
    | _ => cases h
  | index b i =>
    simp only [Expr.type?, bind_eq_bind, bind_eq_some_iff] at h ⊢
    obtain ⟨tb, hb, ti, hi, h⟩ := h
    exact ⟨tb, type?_transfer hu ht hf hk b tb hb fun n hm => hn n (by simp [Expr.nodes, hm]), ti,
      type?_transfer hu ht hf hk i ti hi fun n hm => hn n (by simp [Expr.nodes, hm]), h⟩

theorem types?_transfer (hu : S.uniforms = S'.uniforms) (ht : S.textures = S'.textures) (hf : S.funcs = S'.funcs)
    (hk : S.kind = S'.kind) (es : List Expr) (ts : List Ty) (h : types? S Γ es = some ts)
    (hn : ∀ n ∈ Expr.nodesAll es, n.Transfers S S' Γ Γ') : types? S' Γ' es = some ts := by
  cases es with
  | nil => exact h
  | cons e es =>
    simp only [types?, bind_eq_bind, bind_eq_some_iff] at h ⊢
    obtain ⟨t, he, ts', hes, h⟩ := h
    exact ⟨t, type?_transfer hu ht hf hk e t he fun n hm => hn n (by simp [Expr.nodesAll, hm]), ts',
      types?_transfer hu ht hf hk es ts' hes fun n hm => hn n (by simp [Expr.nodesAll, hm]), h⟩

end

/-- More variables leave the others their types. -/
theorem transfers_of_le (hΓ : ∀ i t, Γ i = some t → Γ' i = some t) (n : Expr) : n.Transfers S S Γ Γ' := by
  unfold Expr.Transfers
  split
  · exact fun t h => hΓ _ t h
  · exact fun _ _ _ _ h => h
  · trivial

theorem type?_mono (hΓ : ∀ i t, Γ i = some t → Γ' i = some t) {e : Expr} (h : e.type? S Γ = some t) :
    e.type? S Γ' = some t :=
  type?_transfer rfl rfl rfl rfl e t h fun n _ => transfers_of_le hΓ n

theorem types?_mono (hΓ : ∀ i t, Γ i = some t → Γ' i = some t)
    (h : types? S Γ es = some ts) : types? S Γ' es = some ts :=
  types?_transfer rfl rfl rfl rfl es ts h fun n _ => transfers_of_le hΓ n

end

/-! ## Good expressions -/

/-- A node that the checker may leave: numbers know their kind, what can be computed is, and variables and functions
are ones that may be meant. -/
def Expr.Fine (meant called : Nat → Prop) : Expr → Prop
  | .number c h => h = Hint.ofKind c.kind
  | .localVar i => meant i
  | .func i => called i
  | .unary _ e => e.isNumber = false
  | .binary _ l r => (l.isNumber && r.isNumber) = false
  | _ => True

theorem Expr.Fine.imp {M M' C C' : Nat → Prop} (hM : ∀ i, M i → M' i) (hC : ∀ i, C i → C' i) {n : Expr}
    (h : n.Fine M C) : n.Fine M' C' := by
  unfold Expr.Fine at h ⊢
  split at h
  · exact h
  · exact hM _ h
  · exact hC _ h
  · exact h
  · exact h
  · trivial

/-- The declarations that an expression is judged by, and the variables and functions that it may mean. -/
structure Judge where
  setting : Setting
  locals : Locals
  meant : Nat → Prop
  called : Nat → Prop

namespace Judge

/-- What holds for an expression the checker has built: it has the type, and every node is fine. -/
structure Good (J : Judge) (e : Expr) (t : Ty) : Prop where
  typed : e.type? J.setting J.locals = some t
  fine : ∀ n ∈ e.nodes, n.Fine J.meant J.called

/-- More variables are in scope and may be meant. -/
structure Le (J J' : Judge) : Prop where
  setting : J.setting = J'.setting
  locals : ∀ i t, J.locals i = some t → J'.locals i = some t
  meant : ∀ i, J.meant i → J'.meant i
  called : J.called = J'.called

variable {J J' : Judge} {e l r : Expr} {t tl tr : Ty} {i : Nat}

theorem Good.mono (h : J.Good e t) (hJ : J.Le J') : J'.Good e t where
  typed := hJ.setting ▸ type?_mono hJ.locals h.typed
  fine := fun n hn => hJ.called ▸ (h.fine n hn).imp hJ.meant fun _ hc => hc

theorem good_number (c : Constant) : J.Good (.number c (.ofKind c.kind)) (Check.defaultType c) where
  typed := by simp [Expr.type?]
  fine := by simp [Expr.nodes, Expr.Fine]

theorem Good.of_number (hg : J.Good (.number c h) t) :
    h = .ofKind c.kind ∧ t = Check.defaultType c := by
  have ht := hg.typed
  simp only [Expr.type?] at ht
  split at ht
  · exact ⟨‹_›, (some.inj ht).symm⟩
  · cases ht

theorem good_local (ht : J.locals i = some t) (hs : t.Storable) (hm : J.meant i) : J.Good (.localVar i) t where
  typed := type?_localVar.mpr ⟨ht, hs.not_isNone⟩
  fine := by simpa [Expr.nodes, Expr.Fine] using hm

theorem good_uniform (ht : J.setting.uniforms[i]? = some t) : J.Good (.uniform i) t where
  typed := ht
  fine := by simp [Expr.nodes, Expr.Fine]

theorem good_texture (hi : i < J.setting.textures) : J.Good (.texture i) .texture where
  typed := by simp [Expr.type?, hi]
  fine := by simp [Expr.nodes, Expr.Fine]

theorem Good.unary (he : J.Good e tl) (hn : e.isNumber = false) (ht : unaryType? op tl = some t) :
    J.Good (.unary op e) t where
  typed := by simp [Expr.type?, he.typed, ht]
  fine := forall_mem_cons.mpr ⟨hn, he.fine⟩

theorem Good.binary (hl : J.Good l tl) (hr : J.Good r tr) (hn : (l.isNumber && r.isNumber) = false)
    (ht : J.setting.binaryType? op l tl tr = some t) : J.Good (.binary op l r) t where
  typed := by simp [Expr.type?, hl.typed, hr.typed, ht]
  fine := forall_mem_cons.mpr ⟨hn, forall_mem_append.mpr ⟨hl.fine, hr.fine⟩⟩

theorem Good.field (hl : J.Good l tl) (ht : Check.swizzleType? tl s = some t) :
    J.Good (.field l (.swizzle s)) t where
  typed := by simp [Expr.type?, hl.typed, ht]
  fine := forall_mem_cons.mpr ⟨trivial, forall_mem_append.mpr ⟨hl.fine, forall_mem_singleton.mpr trivial⟩⟩

theorem Good.index (hl : J.Good l tl) (hr : J.Good r .int) (ht : Check.elements? tl = some (t, n)) :
    J.Good (.index l r) t where
  typed := by simp [Expr.type?, hl.typed, hr.typed, ht]
  fine := forall_mem_cons.mpr ⟨trivial, forall_mem_append.mpr ⟨hl.fine, hr.fine⟩⟩

/-- Expressions of those types, all of them good. -/
structure GoodAll (J : Judge) (es : List Expr) (ts : List Ty) : Prop where
  typed : types? J.setting J.locals es = some ts
  fine : ∀ n ∈ Expr.nodesAll es, n.Fine J.meant J.called

theorem goodAll_nil : J.GoodAll [] [] := ⟨rfl, by simp [Expr.nodesAll]⟩

theorem GoodAll.cons (he : J.Good e t) (hes : J.GoodAll es ts) :
    J.GoodAll (e :: es) (t :: ts) where
  typed := by simp [types?, he.typed, hes.typed]
  fine := forall_mem_append.mpr ⟨he.fine, hes.fine⟩

theorem GoodAll.builtin (hes : J.GoodAll es ts)
    (hf : f = .frontFacing → J.setting.kind = .fragment) (ht : f.result? ts = some t) :
    J.Good (.call (.builtin f) es) t where
  typed := by
    have hc : ¬(f = .frontFacing ∧ J.setting.kind ≠ .fragment) := fun h => h.2 (hf h.1)
    simp [Expr.type?, hes.typed, ht, hc]
  fine := forall_mem_cons.mpr ⟨trivial, forall_mem_append.mpr ⟨forall_mem_singleton.mpr trivial, hes.fine⟩⟩

theorem GoodAll.func (hes : J.GoodAll es f.ins) (hf : J.setting.funcs i = some f) (hc : J.called i) (ho : f.outs = [])
    (hr : f.result ≠ .none) : J.Good (.call (.func i) es) f.result where
  typed := by simp [Expr.type?, hes.typed, hf, ho, hr]
  fine := forall_mem_cons.mpr ⟨trivial, forall_mem_append.mpr ⟨forall_mem_singleton.mpr hc, hes.fine⟩⟩

end Judge

end Code

end GameMedia.Shader
