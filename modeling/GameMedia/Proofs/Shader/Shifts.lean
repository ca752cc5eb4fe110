import GameMedia.Proofs.Shader.References

/-!
# Shifts

The operators shift an integer by an integer, and an integer vector by an integer or by a vector like it. What comes out
is of the type on the left. In an accepted source every shift is of that kind, with one exception: a number on the left,
which stands for a constant that had no type, may have an integer vector as its count. Sources without the exception are
those whose constants are shifted by scalars.

The types of code are those of values throughout, so that a type with the tag of an integer is the integers.
-/

namespace GameMedia.Shader

open List Option

/-! ## Types of values -/

namespace Ty

variable {t : Ty}

/-- What an expression can have as its type: what a variable can hold, and textures. -/
def IsValue (t : Ty) : Prop := t.Storable ∨ t = .texture

/-- What a value of the first type may be shifted by. -/
def ShiftedBy (l r : Ty) : Prop := l = .int ∧ r = .int ∨ l.isIntVector = true ∧ (r = .int ∨ r = l)

instance (l r : Ty) : Decidable (l.ShiftedBy r) := inferInstanceAs (Decidable (_ ∨ _))

theorem IsValue.tag_eq_int (h : t.IsValue) : t.tag = .int ↔ t = .int := by
  refine ⟨fun ht => ?_, fun ht => ht ▸ rfl⟩
  rcases h with h | rfl
  · exact h.eq_basic ht (by decide)
  · exact absurd ht (by decide)

theorem Plain.isValue (h : t.Plain) : t.IsValue := .inl h.storable

/-- The rule for shifts, read as a table. -/
theorem shiftType?_eq_some (hl : l.IsValue) (hr : r.IsValue) :
    Check.shiftType? l r = some t ↔ l.ShiftedBy r ∧ t = l := by
  simp only [Check.shiftType?, hl.tag_eq_int, hr.tag_eq_int]
  constructor
  · intro h
    split at h
    · next hint =>
      obtain ⟨rfl, rfl⟩ := hint
      exact ⟨.inl ⟨rfl, rfl⟩, (some.inj h).symm⟩
    · split at h
      · next hvec => exact ⟨.inr ⟨hvec.1, hvec.2.imp_right Eq.symm⟩, (some.inj h).symm⟩
      · cases h
  · rintro ⟨⟨rfl, rfl⟩ | ⟨hvec, hr⟩, rfl⟩
    · rfl
    · have hne : t ≠ .int := by
        rintro rfl
        exact absurd hvec (by decide)
      rw [if_neg fun h => hne h.1, if_pos ⟨hvec, hr.imp_right Eq.symm⟩]

end Ty

/-- A call of a built-in function gives a plain value, or one of the type of an argument. -/
theorem Builtin.result?_cases {f : Builtin} (h : f.result? ts = some t) : t.Plain ∨ t ∈ ts := by
  unfold Builtin.result? at h
  split at h
  all_goals simp only [ite_none_right_eq_some, some.injEq, reduceCtorEq] at h
  all_goals
    obtain ⟨-, rfl⟩ := h
    first
      | exact .inl (by decide)
      | exact .inr (by simp)

namespace Code

/-! ## Types of expressions -/

/-- What stands around a body has the types of values. -/
structure Setting.Regular (S : Setting) : Prop where
  uniforms : ∀ t ∈ S.uniforms, t.Storable
  funcs : ∀ i f, S.funcs i = some f → f.result = .none ∨ f.result.Storable

/-- Every variable can hold values of its type. -/
def Locals.Regular (Γ : Locals) : Prop := ∀ i t, Γ i = some t → t = .none ∨ t.Storable

variable {S : Setting} {Γ : Locals} {e : Expr}

theorem Locals.Regular.enter (h : Γ.Regular) (hvars : ∀ t ∈ vars, t = .none ∨ t.Storable)
    (offset : Nat) :
    (Γ.enter vars offset).Regular := by
  intro i t ht
  unfold Locals.enter at ht
  split at ht
  · exact hvars t (mem_of_getElem? ht)
  · exact h i t ht

theorem Locals.Regular.set (h : Γ.Regular) (ht : t.Storable) : (Γ.set i t).Regular := by
  intro j u hu
  unfold Locals.set at hu
  split at hu
  · exact .inr (some.inj hu ▸ ht)
  · exact h j u hu

theorem Counter.Typed.storable {c : Counter} (h : c.Typed) : c.ty.Storable := by
  rcases h.1 with ht | ht <;> rw [ht] <;> decide

mutual

/-- **The type of an expression is one of values.** -/
theorem type?_isValue (hS : S.Regular) (hΓ : Γ.Regular) (e : Expr) {t : Ty} (h : e.type? S Γ = some t) : t.IsValue := by
  cases e with
  | number c k =>
    simp only [Expr.type?, ite_none_right_eq_some, some.injEq] at h
    exact h.2 ▸ (Check.defaultType_plain c).isValue
  | uniform i => exact .inl (hS.uniforms t (mem_of_getElem? h))
  | texture i =>
    simp only [Expr.type?, ite_none_right_eq_some, some.injEq] at h
    exact .inr h.2.symm
  | localVar i =>
    rw [type?_localVar] at h
    rcases hΓ i t h.1 with rfl | ht
    · exact absurd h.2 (by decide)
    · exact .inl ht
  | unary op e =>
    simp only [Expr.type?, bind_eq_bind, bind_eq_some_iff] at h
    obtain ⟨te, he, h⟩ := h
    have hte := type?_isValue hS hΓ e he
    unfold unaryType? at h
    split at h
    all_goals simp only [ite_none_right_eq_some, some.injEq, reduceCtorEq] at h
    · exact h.2 ▸ hte
    · exact h.2 ▸ hte
    · exact h.2 ▸ Ty.Plain.isValue (by decide)
  | binary op l r =>
    simp only [Expr.type?, bind_eq_bind, bind_eq_some_iff] at h
    obtain ⟨tl, hl, tr, hr, h⟩ := h
    unfold Setting.binaryType? at h
    split at h
    · exact some.inj h ▸ Ty.Plain.isValue (by decide)
    · rcases Check.binaryType?_mem h with rfl | rfl | rfl | rfl
      · exact Ty.Plain.isValue (by decide)
      · exact Ty.Plain.isValue (by decide)
      · exact type?_isValue hS hΓ l hl
      · exact type?_isValue hS hΓ r hr
  | call f args =>
    cases f with
    | builtin f =>
      simp only [Expr.type?, bind_eq_bind, bind_eq_some_iff, ite_none_left_eq_some] at h
      obtain ⟨ts, hts, -, h⟩ := h
      rcases Builtin.result?_cases h with hp | hmem
      · exact hp.isValue
      · exact types?_isValue hS hΓ args hts t hmem
    | func i =>
      simp only [Expr.type?, bind_eq_bind, bind_eq_some_iff, ite_none_right_eq_some,
        some.injEq] at h
      obtain ⟨f, hf, ts, -, ⟨-, hne, -⟩, rfl⟩ := h
      exact .inl ((hS.funcs i f hf).resolve_left hne)
    | _ => cases h
  | field b letters =>
    cases letters with
    | swizzle s =>
      simp only [Expr.type?, bind_eq_bind, bind_eq_some_iff] at h
      obtain ⟨tb, -, h⟩ := h
      exact (Check.swizzleType?_plain h).isValue
    | _ => cases h
  | index b i =>
    simp only [Expr.type?, bind_eq_bind, bind_eq_some_iff, ite_none_right_eq_some,
      map_eq_some_iff] at h
    obtain ⟨tb, hb, ti, -, -, ⟨elem, n⟩, helem, rfl⟩ := h
    rcases type?_isValue hS hΓ b hb with hst | rfl
    · exact (Check.elements?_plain hst helem).isValue
    · cases helem
  | _ => cases h

theorem types?_isValue (hS : S.Regular) (hΓ : Γ.Regular) (es : List Expr) (h : types? S Γ es = some ts) :
    ∀ t ∈ ts, t.IsValue := by
  cases es with
  | nil =>
    cases h
    exact forall_mem_nil _
  | cons e es =>
    simp only [types?, bind_eq_bind, bind_eq_some_iff] at h
    obtain ⟨t, he, us, hes, h⟩ := h
    cases h
    exact forall_mem_cons.mpr ⟨type?_isValue hS hΓ e he, types?_isValue hS hΓ es hes⟩

end

/-! ## Shifts in expressions -/

/-- If the expression is a shift, then one that the operators have: the types of its operands are allowed beside each
other, and its own is the left one's. -/
def Expr.ShiftFits (S : Setting) (Γ : Locals) : Expr → Prop
  | .binary op l r => Op.isShift op = true → ∃ tl ∈ l.type? S Γ, ∃ tr ∈ r.type? S Γ,
      tl.ShiftedBy tr ∧ (Expr.binary op l r).type? S Γ = some tl
  | _ => True

instance (S : Setting) (Γ : Locals) (e : Expr) : Decidable (e.ShiftFits S Γ) :=
  match e with
  | .binary _ l r => inferInstanceAs (Decidable (_ → ∃ tl ∈ l.type? S Γ, ∃ tr ∈ r.type? S Γ, _))
  | .blank | .number _ _ | .uniform _ | .texture _ | .localVar _ | .member _ | .builtin _ | .swizzle _ | .func _
  | .unary _ _ | .select _ _ _ | .call _ _ | .field _ _ | .index _ _ => isTrue trivial

def Expr.ShiftsByVector (S : Setting) (Γ : Locals) (e : Expr) : Prop :=
  ∃ op l r, e = .binary op l r ∧ Op.isShift op = true ∧ l.isNumber = true ∧ l.type? S Γ = some .int ∧
    (∃ tr, r.type? S Γ = some tr ∧ tr.isIntVector = true) ∧ e.type? S Γ = some .int

/-- **The two kinds of shifts.** -/
theorem shiftFits_or (hS : S.Regular) (hΓ : Γ.Regular) (he : (e.type? S Γ).isSome) :
    e.ShiftFits S Γ ∨ e.ShiftsByVector S Γ := by
  cases e with
  | binary op l r =>
    obtain ⟨t, ht⟩ := isSome_iff_exists.mp he
    have hparts := ht
    simp only [Expr.type?, bind_eq_bind, bind_eq_some_iff] at hparts
    obtain ⟨tl, hl, tr, hr, hrule⟩ := hparts
    have hvl := type?_isValue hS hΓ l hl
    have hvr := type?_isValue hS hΓ r hr
    by_cases hshift : Op.isShift op = true
    · have htable : Check.binaryType? op tl tr = Check.shiftType? tl tr := by
        rcases Bool.or_eq_true_iff.mp hshift with hop | hop <;> rw [of_decide_eq_true hop] <;> rfl
      unfold Setting.binaryType? at hrule
      split at hrule
      · next hc =>
        simp only [Bool.and_eq_true, decide_eq_true_eq] at hc
        obtain ⟨⟨⟨-, hnum⟩, rfl⟩, hint⟩ := hc
        cases hrule
        -- an integral count is an integer, which the table allows, or a vector
        by_cases hone : tr = .int
        · exact .inl fun _ => ⟨.int, hl, tr, hr, .inl ⟨rfl, hone⟩, ht⟩
        · have hvec : tr.isIntVector = true := by
            rw [Ty.isIntegral, Bool.or_eq_true_iff, decide_eq_true_eq, hvr.tag_eq_int] at hint
            exact hint.resolve_left hone
          exact .inr ⟨op, l, r, rfl, hshift, hnum, hl, ⟨tr, hr, hvec⟩, ht⟩
      · rw [htable, Ty.shiftType?_eq_some hvl hvr] at hrule
        obtain ⟨hby, rfl⟩ := hrule
        exact .inl fun _ => ⟨t, hl, tr, hr, hby, ht⟩
    · exact .inl fun h => absurd h hshift
  | _ => exact .inl trivial

theorem Expr.ShiftsByVector.not_byInt (h : e.ShiftsByVector S Γ) : ¬e.ShiftsByInt S Γ := by
  obtain ⟨op, l, r, rfl, hshift, hnum, -, ⟨tr, hr, hvec⟩, -⟩ := h
  intro hint
  obtain rfl := some.inj (hr.symm.trans (hint hshift hnum))
  exact absurd hvec (by decide)

/-- A number that is shifted as the table says is shifted by an integer. -/
theorem Expr.ShiftFits.byInt (h : e.ShiftFits S Γ) : e.ShiftsByInt S Γ := by
  cases e with
  | binary op l r =>
    intro hshift hnum
    obtain ⟨tl, hl, tr, hr, hby, -⟩ := h hshift
    rcases hby with ⟨-, rfl⟩ | ⟨hvec, -⟩
    · exact hr
    -- a number has a scalar type
    · cases l with
      | number c k =>
        simp only [Expr.type?, mem_def, ite_none_right_eq_some, some.injEq] at hl
        rw [← hl.2] at hvec
        unfold Check.defaultType at hvec
        split at hvec <;> exact absurd hvec (by decide)
      | _ => exact absurd hnum Bool.false_ne_true
  | _ => trivial

/-! ## Shifts in statements -/

def Expr.Placed (S : Setting) (Γ : Locals) (e : Expr) : Prop := (e.type? S Γ).isSome ∨ e.Runs S Γ

theorem placed_of_type? (h : e.type? S Γ = some t) : e.Placed S Γ :=
  .inl (isSome_iff_exists.mpr ⟨t, h⟩)

theorem Expr.Placed.cases (h : e.Placed S Γ) :
    (∃ t, e.type? S Γ = some t) ∨ ∃ i args f, e = .call (.func i) args ∧ S.funcs i = some f ∧
      types? S Γ args = some (f.ins ++ f.outs) ∧ DistinctLocals (args.drop f.ins.length) :=
  h.elim (fun h => .inl (isSome_iff_exists.mp h)) Expr.Runs.cases

theorem Expr.Placed.part (h : e.Placed S Γ) (hn : n ∈ e.nodes) : n.Placed S Γ ∨ n.IsName S := by
  rcases h.cases with ⟨t, ht⟩ | ⟨i, args, f, rfl, hf, hts, -⟩
  · exact (type?_part e ht n hn).imp_left .inl
  rcases mem_cons.mp hn with rfl | hn
  · exact .inl h
  rcases mem_append.mp hn with hn | hn
  · obtain rfl := mem_singleton.mp hn
    exact .inr (isSome_iff_exists.mpr ⟨f, hf⟩)
  · exact (types?_part args hts n hn).imp_left .inl

/-- What well typed code guarantees for an expression where it stands. -/
structure Sited (S : Setting) (x : Locals × Expr) : Prop where
  regular : x.1.Regular
  placed : x.2.Placed S x.1

mutual

/-- **The expressions of well typed code.** -/
theorem Stmt.Typed.sited (s : Stmt) {inLoop : Bool} {Γ : Locals} (hΓ : Γ.Regular) (h : s.Typed S inLoop Γ) :
    ∀ x ∈ s.exprs Γ, Sited S x := by
  cases s with
  | expr e => exact forall_mem_singleton.mpr ⟨hΓ, .inr h⟩
  | block b => exact Block.Typed.sited b hΓ h
  | assign l r =>
    obtain ⟨hsome, heq⟩ := h
    obtain ⟨t, ht⟩ := isSome_iff_exists.mp hsome
    exact forall_mem_cons.mpr ⟨⟨hΓ, placed_of_type? ht⟩,
      forall_mem_singleton.mpr ⟨hΓ, placed_of_type? (heq ▸ ht)⟩⟩
  | branch c t f =>
    cases f with
    | none => exact forall_mem_cons.mpr ⟨⟨hΓ, placed_of_type? h.1⟩, Block.Typed.sited t hΓ h.2⟩
    | some f =>
      exact forall_mem_cons.mpr ⟨⟨hΓ, placed_of_type? h.1⟩,
        forall_mem_append.mpr ⟨Block.Typed.sited t hΓ h.2.1, Block.Typed.sited f hΓ h.2.2⟩⟩
  | loop c b => exact Block.Typed.sited b (hΓ.set h.1.storable) h.2.2
  | ret v =>
    cases v with
    | none => exact forall_mem_nil _
    | some e => exact forall_mem_singleton.mpr ⟨hΓ, placed_of_type? h.2⟩
  | init i | next | leave | discard => exact forall_mem_nil _

theorem Block.Typed.sited (b : Block) {inLoop : Bool} {Γ : Locals} (hΓ : Γ.Regular) (h : b.Typed S inLoop Γ) :
    ∀ x ∈ b.exprs Γ, Sited S x := by
  cases b with
  | mk vars offset ss => exact stmtsTyped_sited ss (hΓ.enter h.1 offset) h.2

theorem stmtsTyped_sited (ss : List Stmt) {inLoop : Bool} {Γ : Locals} (hΓ : Γ.Regular) (h : stmtsTyped S inLoop Γ ss) :
    ∀ x ∈ stmtsExprs Γ ss, Sited S x := by
  cases ss with
  | nil => exact forall_mem_nil _
  | cons s ss => exact forall_mem_append.mpr ⟨Stmt.Typed.sited s hΓ h.1, stmtsTyped_sited ss hΓ h.2⟩

end

end Code

/-! ## Accepted sources -/

def Program.ShiftsFit (p : Program) : Prop :=
  ∀ b ∈ p.bodies, ∀ x ∈ b.1.top.exprs fun i => b.1.params[i]?, ∀ n ∈ x.2.nodes,
    n.ShiftFits (p.setting true b.1.kind b.2) x.1

instance (p : Program) : Decidable p.ShiftsFit := inferInstanceAs (Decidable (∀ b ∈ p.bodies, _))

namespace Check

variable {options : CompileOptions} {file : Surface.File} {g : Globals} {p : Program} {b : Body × Ty}

theorem Produces.regular_setting (hp : Produces options file g p) (kind : BodyKind) (result : Ty) :
    (p.setting true kind result).Regular where
  uniforms := by
    intro t ht
    rw [Program.setting, hp.uniforms] at ht
    obtain ⟨u, hu, rfl⟩ := List.mem_map.mp ht
    exact hp.declared.sound.uniforms u hu
  funcs := by
    intro i f hf
    have hsig : (g.funcs[i]?).map Signature.type = some f := (hp.func? i).symm.trans hf
    obtain ⟨sig, hmem, rfl⟩ := map_eq_some_iff.mp hsig
    exact (hp.declared.sound.funcs sig (mem_of_getElem? hmem)).result

theorem Produces.regular_params (hp : Produces options file g p) (hb : b ∈ p.bodies) :
    Code.Locals.Regular fun i => b.1.params[i]? := by
  obtain ⟨f, -, sig, hbody⟩ := hp.bodies b hb
  intro i t ht
  have hmem := mem_of_getElem? ht
  rw [hbody.params] at hmem
  obtain ⟨q, hq, rfl⟩ := List.mem_map.mp hmem
  rcases mem_append.mp hq with hq | hq
  · exact .inr (hbody.sound.ins q hq)
  · exact .inr (hbody.sound.outs q hq)

theorem Produces.sited (hp : Produces options file g p) {b : Body × Ty} (hb : b ∈ p.bodies) :
    ∀ x ∈ b.1.top.exprs fun i => b.1.params[i]?, Code.Sited (p.setting true b.1.kind b.2) x :=
  Code.Block.Typed.sited b.1.top (hp.regular_params hb) (hp.typed.1 b hb)

/-- The shifts of a body are of the two kinds. -/
theorem Produces.shifts (hp : Produces options file g p) (hb : b ∈ p.bodies)
    (hx : x ∈ b.1.top.exprs fun i => b.1.params[i]?) (hn : n ∈ x.2.nodes) :
    n.ShiftFits (p.setting true b.1.kind b.2) x.1 ∨ n.ShiftsByVector (p.setting true b.1.kind b.2) x.1 := by
  have hx := hp.sited hb x hx
  cases n with
  | binary op l r =>
    rcases hx.placed.part hn with hplaced | hname
    · exact Code.shiftFits_or (hp.regular_setting _ _) hx.regular (hplaced.elim id id)
    · cases hname
  | _ => exact .inl trivial

end Check

/-- **Shifts in an accepted source.** Each is one that the operators have, with the type of its left side, or it shifts a
number by an integer vector. There is none of the second kind if and only if numbers are shifted by integers. -/
theorem shifts_of_compile {options : CompileOptions} {source : String} {p : Program}
    (h : compile options source = .ok p) :
    (∀ b ∈ p.bodies, ∀ x ∈ b.1.top.exprs fun i => b.1.params[i]?, ∀ n ∈ x.2.nodes,
      n.ShiftFits (p.setting true b.1.kind b.2) x.1 ∨ n.ShiftsByVector (p.setting true b.1.kind b.2) x.1) ∧
    (p.ShiftsFit ↔ p.ScalarCounts) := by
  obtain ⟨file, g, -, hp⟩ := Check.compile_ok h
  refine ⟨fun b hb x hx n hn => hp.shifts hb hx hn, fun hfit b hb x hx n hn => (hfit b hb x hx n hn).byInt,
    fun hcounts b hb x hx n hn => ?_⟩
  exact (hp.shifts hb hx hn).resolve_right fun hvec => hvec.not_byInt (hcounts b hb x hx n hn)

/-- In `sample` a constant is shifted by the counter of a loop. -/
theorem sample_shifts_fit : ∃ p, compile {} sample = .ok p ∧ p.ShiftsFit := by
  obtain ⟨p, hp, hcounts⟩ := sample_accepted
  exact ⟨p, hp, (shifts_of_compile hp).2.mpr hcounts⟩

/-- A constant that is shifted by a vector. -/
def vectorCountSample : String := "package main
func f(v ivec2) int {
	return 1 << v
}
"

/-- It is accepted, though no operator shifts an integer by a vector. -/
theorem vectorCountSample_not_fits : ∃ p, compile {} vectorCountSample = .ok p ∧ ¬p.ShiftsFit :=
  exists_compile (by decide +kernel)

end GameMedia.Shader
