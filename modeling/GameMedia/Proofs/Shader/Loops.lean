import GameMedia.Proofs.Shader.Stores
import GameMedia.Proofs.Shader.Traces

/-!
# Loops come to an end

A loop is accepted only if its header brings it to an end, and nothing in its body writes the counter. The first is
arithmetic: a counter that moves by the same distance in each round passes every limit that it moves towards, and leaves
or meets the one value that an equation or its opposite is about. The second is a matter of scopes: the counter is in
scope, as one, wherever the body begins, and statements spare the counters that are in scope.

Together they give the number of rounds. Whatever a body does, it leaves alone the variables that it does not write, so
the value of the counter in each round is known beforehand.
-/

namespace GameMedia.Shader

open List

/-! ## Counting -/

theorem Op.mem_of_isComparison {op : Op} (h : op.isComparison = true) : op ∈ [.lt, .le, .gt, .ge, .eq, .ne] := by
  revert h
  cases op <;> decide

namespace Constant

theorem sign_eq {c : Constant} (h : c.number? = some d) : c.sign = d.num.sign := by
  cases c with
  | bool b => cases h
  | int n =>
    cases h
    rfl
  | float r =>
    cases h
    rfl

/-- Comparisons of numbers are decided. -/
theorem floatCompare?_isSome (h : op.isComparison = true) (a b : Rat) : (floatCompare? op a b).isSome := by
  cases op <;> first
    | rfl
    | cases h

end Constant

namespace Check

/-- A counter that moves up passes every limit. -/
theorem passes_above (a z : Rat) (hd : 0 < d) : ∃ n : Nat, z < a + n * d := by
  obtain ⟨n, hn⟩ := exists_nat_gt ((z - a) / d)
  rw [div_lt_iff₀ hd] at hn
  exact ⟨n, by linarith⟩

theorem passes_below (a z : Rat) (hd : d < 0) : ∃ n : Nat, a + n * d < z := by
  obtain ⟨n, hn⟩ := passes_above (-a) (-z) (neg_pos.mpr hd)
  exact ⟨n, by linarith⟩

/-- A distance that is a whole number of steps is met. -/
theorem meets {a z d : Rat} (hd : d ≠ 0) (hden : ((z - a) / d).den = 1) (hpos : 0 < (z - a) / d) :
    ∃ n : Nat, a + n * d = z := by
  obtain ⟨n, hn⟩ := Int.eq_ofNat_of_zero_le (Rat.num_pos.mpr hpos).le
  have hq : (z - a) / d = n := by
    rw [← Rat.coe_int_num_of_den_eq_one hden, hn]
    rfl
  refine ⟨n, ?_⟩
  rw [← hq, div_mul_cancel₀ _ hd]
  ring

variable {op : Op} {start stop step : Constant} {a z d : Rat}

/-- **A loop whose header is accepted counts out**: it moves, and some value of the counter fails the comparison. -/
theorem terminates_counts (h : terminates op start stop step = true) (ha : start.number? = some a)
    (hz : stop.number? = some z) (hd : step.number? = some d) :
    d ≠ 0 ∧ ∃ n : Nat, Constant.floatCompare? op (a + n * d) z = some false := by
  have hsign := Constant.sign_eq hd
  unfold terminates at h
  rw [ha, hz, hd] at h
  have hup : 0 < step.sign → 0 < d := by
    intro hs
    rw [hsign] at hs
    exact Rat.num_pos.mp (Int.sign_pos_iff.mp hs)
  have hdown : step.sign < 0 → d < 0 := by
    intro hs
    rw [hsign] at hs
    exact Rat.num_neg.mp (Int.sign_neg_iff.mp hs)
  split at h
  · have hpos := hup (of_decide_eq_true h)
    obtain ⟨n, hn⟩ := passes_above a z hpos
    exact ⟨hpos.ne', n, congrArg some (decide_eq_false (not_lt.mpr hn.le))⟩
  · have hpos := hup (of_decide_eq_true h)
    obtain ⟨n, hn⟩ := passes_above a z hpos
    exact ⟨hpos.ne', n, congrArg some (decide_eq_false (not_le.mpr hn))⟩
  · have hneg := hdown (of_decide_eq_true h)
    obtain ⟨n, hn⟩ := passes_below a z hneg
    exact ⟨hneg.ne, n, congrArg some (decide_eq_false (not_lt.mpr hn.le))⟩
  · have hneg := hdown (of_decide_eq_true h)
    obtain ⟨n, hn⟩ := passes_below a z hneg
    exact ⟨hneg.ne, n, congrArg some (decide_eq_false (not_le.mpr hn))⟩
  · have hne : d ≠ 0 := by
      rintro rfl
      exact of_decide_eq_true h (by rw [hsign]; rfl)
    -- one step leaves the only value that is equal
    by_cases heq : a = z
    · refine ⟨hne, 1, congrArg some (decide_eq_false fun hmeet => hne ?_)⟩
      rw [heq] at hmeet
      push_cast at hmeet
      linarith
    · refine ⟨hne, 0, congrArg some (decide_eq_false fun hmeet => heq ?_)⟩
      push_cast at hmeet
      linarith
  · simp only [Bool.and_eq_true, decide_eq_true_eq] at h
    obtain ⟨⟨hne, hden⟩, hpos⟩ := h
    obtain ⟨n, hn⟩ := meets hne hden hpos
    exact ⟨hne, n, congrArg some (decide_eq_false (not_not_intro hn))⟩
  · cases h

end Check

/-! ## Rounds -/

namespace Code

/-- The values of the variables of a body. Those that are no numbers are of any kind. -/
abbrev Store (W : Type) : Type := Nat → Rat ⊕ W

/-- The block writes the variable or a part of it, at any depth. -/
def Block.Writes (S : Setting) (chain : List Block) (b : Block) (i : Nat) : Prop :=
  ∃ y ∈ b.places chain, ∃ e ∈ y.2.targets S, e.root? = some i

/-- If the statement is a loop, nothing in its body writes the counter. -/
def Stmt.SparesCounter (S : Setting) (chain : List Block) : Stmt → Prop
  | .loop c b => ¬b.Writes S chain c.index
  | _ => True

theorem Stmt.IsSimple.sparesCounter {S : Setting} {chain : List Block} {s : Stmt} (h : s.IsSimple) :
    s.SparesCounter S chain := by
  cases s <;> first
    | exact trivial
    | exact absurd h id

/-- One round of a loop, in exact arithmetic: the counter passes the comparison, the body does whatever it does to the
variables that it writes, and the counter moves. -/
inductive Counter.Round {W : Type} (S : Setting) (chain : List Block) (c : Counter) (b : Block) :
    Store W → Store W → Prop
  | mk {before after : Store W} {v w z d : Rat} : before c.index = .inl v → c.stop.number? = some z →
      Constant.floatCompare? c.op v z = some true → (∀ i, ¬b.Writes S chain i → after i = before i) →
      after c.index = .inl w → c.step.number? = some d →
      Counter.Round S chain c b before (Function.update after c.index (.inl (w + d)))

/-- The values of a counter: after so many rounds the comparison fails, and before it holds. -/
def Counter.Lasts (c : Counter) (a z d : Rat) (n : Nat) : Prop :=
  Constant.floatCompare? c.op (a + n * d) z = some false ∧
    ∀ k < n, Constant.floatCompare? c.op (a + k * d) z = some true

variable {W : Type} {S : Setting} {chain : List Block} {c : Counter} {b : Block} {a z d : Rat}

theorem Counter.exists_lasts (hop : c.op.isComparison = true)
    (h : ∃ n : Nat, Constant.floatCompare? c.op (a + n * d) z = some false) : ∃ n, c.Lasts a z d n := by
  refine ⟨Nat.find h, Nat.find_spec h, fun k hk => ?_⟩
  obtain ⟨r, hr⟩ := Option.isSome_iff_exists.mp (Constant.floatCompare?_isSome hop (a + k * d) z)
  cases r with
  | true => exact hr
  | false => exact absurd hr (Nat.find_min h hk)

/-- A round moves a counter that the body leaves alone. -/
theorem Counter.Round.value {before after : Store W} (h : c.Round S chain b before after)
    (hw : ¬b.Writes S chain c.index) (hd : c.step.number? = some d) (hv : before c.index = .inl v) :
    after c.index = .inl (v + d) := by
  cases h with
  | mk _ _ _ hkeep hafter hstep =>
    rw [hkeep c.index hw, hv] at hafter
    rw [hd] at hstep
    obtain rfl := Sum.inl.inj hafter
    cases hstep
    exact Function.update_self ..

theorem Counter.Round.holds {before after : Store W} (h : c.Round S chain b before after)
    (hz : c.stop.number? = some z) (hv : before c.index = .inl v) : Constant.floatCompare? c.op v z = some true := by
  cases h with
  | mk hvalue hstop hholds _ _ _ =>
    rw [hv] at hvalue
    rw [hz] at hstop
    obtain rfl := Sum.inl.inj hvalue
    cases hstop
    exact hholds

variable {states : Nat → Store W} {m : Nat}

/-- **The counter's value is known in every round.** -/
theorem Counter.value_of_rounds (hw : ¬b.Writes S chain c.index) (hd : c.step.number? = some d)
    (h₀ : states 0 c.index = .inl a) (h : ∀ k < m, c.Round S chain b (states k) (states (k + 1))) :
    ∀ k ≤ m, states k c.index = .inl (a + k * d) := by
  intro k hk
  induction k with
  | zero => simpa using h₀
  | succ k ih =>
    rw [(h k hk).value hw hd (ih (by omega))]
    push_cast
    ring_nf

/-- **A loop makes no more rounds than its counter lasts.** -/
theorem Counter.rounds_le {n : Nat} (hw : ¬b.Writes S chain c.index) (hz : c.stop.number? = some z)
    (hd : c.step.number? = some d) (hn : c.Lasts a z d n) (h₀ : states 0 c.index = .inl a)
    (h : ∀ k < m, c.Round S chain b (states k) (states (k + 1))) : m ≤ n := by
  by_contra hlt
  have hvalue := Counter.value_of_rounds hw hd h₀ h n (by omega)
  have hholds := (h n (by omega)).holds hz hvalue
  rw [hn.1] at hholds
  cases hholds

/-- The constants of a header are numbers. -/
theorem Counter.Typed.numbers (h : c.Typed) :
    ∃ a z d, c.start.number? = some a ∧ c.stop.number? = some z ∧ c.step.number? = some d := by
  obtain ⟨hty, hconsts, -⟩ := h
  have hnumber : ∀ k ∈ [c.start, c.stop, c.step], ∃ r, k.number? = some r := by
    intro k hk
    have hkind := hconsts k hk
    cases k with
    | bool v =>
      change Ty.bool = c.ty at hkind
      rcases hty with ht | ht <;> rw [ht] at hkind <;> exact absurd hkind (by decide)
    | int n => exact ⟨n, rfl⟩
    | float r => exact ⟨r, rfl⟩
  simp only [forall_mem_cons] at hnumber
  obtain ⟨⟨a, ha⟩, ⟨z, hz⟩, ⟨d, hd⟩, -⟩ := hnumber
  exact ⟨a, z, d, ha, hz, hd⟩

end Code

/-! ## Counters in scope -/

namespace Check

section

variable {inLoop : Bool} {chain : List Code.Block} {cs : List Code.Stmt}

theorem Site.Written.sparesCounter
    (h : Site.Written K chain ss cs e) : ∀ x ∈ Code.stmtsPlaces chain cs, x.2.SparesCounter T x.1 := by
  have hcs := h.1
  clear h
  induction cs with
  | nil => exact nofun
  | cons s cs ih =>
    rw [forall_mem_cons] at hcs
    have hs := hcs.1.simple
    rw [Code.stmtsPlaces, hs.places chain]
    exact forall_mem_cons.mpr ⟨hs.sparesCounter, ih hcs.2⟩

/-- The counter is in scope where the body begins. -/
theorem numbered?_counter (hn : Nested ss) (name : String) (pos : Pos) (ty : Ty) :
    numbered? (opened (headScope name pos ty ss :: ss)) (stop ss) = some ⟨name, ty, pos, .counter⟩ := by
  refine keeps_opened (nested_head hn name pos ty) _ _ ?_
  simp [numbered?, headScope]

/-- The body of a loop spares the counter. -/
theorem Lowers.not_writes {S : List Surface.Stmt} {s head : Scope} {c : Code.Counter}
    (hn : Nested ss) (hi : c.index = stop ss) (hhead : head = headScope name pos c.ty ss)
    (h : Lowers Site.Written env inLoop (s.block cs :: chain) (opened (head :: ss)) S around cs) :
    ¬(s.block cs).Writes env.setting chain c.index := by
  subst hhead
  rintro ⟨y, hy, e, he, hroot⟩
  obtain ⟨i, hi', hrole⟩ := h.spares (nested_head hn name pos c.ty).inner y hy e he
  obtain rfl := Option.some.inj (hi'.symm.trans hroot)
  rw [hi] at hrole
  exact (hrole _ (numbered?_counter hn name pos c.ty)).2 rfl

/-- **No loop writes its counter**, at any depth. -/
theorem Lowers.sparesCounter {S : List Surface.Stmt} (h : Lowers Site.Written env inLoop chain ss S ss' cs)
    (hn : Nested ss) : ∀ x ∈ Code.stmtsPlaces chain cs, x.2.SparesCounter env.setting x.1 := by
  induction h with
  | nil => exact nofun
  | @single _ _ _ _ _ _ a _ _ _ _ _ hw _ ih =>
    rw [Code.stmtsPlaces_append]
    exact forall_mem_append.mpr ⟨hw.sparesCounter, ih (hn.grow a)⟩
  | group _ ih => exact ih hn
  | block _ _ ihb ih =>
    exact forall_mem_append.mpr ⟨forall_mem_cons.mpr ⟨trivial, ihb hn.inner⟩, ih hn⟩
  | @cond _ _ _ _ _ _ _ _ _ _ a _ _ _ _ _ _ _ hw _ _ _ iht ih =>
    have hna := hn.grow a
    rw [Code.stmtsPlaces_append]
    exact forall_mem_append.mpr ⟨hw.sparesCounter,
      forall_mem_append.mpr ⟨forall_mem_cons.mpr ⟨trivial, iht hna.inner⟩, ih hna⟩⟩
  | @condElse _ _ _ _ _ _ _ _ _ _ _ a _ _ _ _ _ _ _ _ _ hw _ _ _ _ iht ihf ih =>
    have hna := hn.grow a
    rw [Code.stmtsPlaces_append]
    exact forall_mem_append.mpr ⟨hw.sparesCounter, forall_mem_append.mpr ⟨forall_mem_cons.mpr
      ⟨trivial, forall_mem_append.mpr ⟨iht hna.inner, ihf hna.inner⟩⟩, ih hna⟩⟩
  | condInit _ _ ihb ih =>
    exact forall_mem_append.mpr ⟨forall_mem_cons.mpr ⟨trivial, ihb hn.inner⟩, ih hn⟩
  | @loop _ _ _ _ _ namePos _ name _ _ _ _ _ _ a _ _ c _ _ _ _ _ _ hi hhead hbody _ ihb ih =>
    have hna := hn.grow a
    have hnot := Lowers.not_writes hna hi hhead hbody
    subst hhead
    have hnh := nested_head hna name namePos c.ty
    refine forall_mem_append.mpr ⟨forall_mem_cons.mpr ⟨trivial, ?_⟩, ih hna⟩
    exact forall_mem_append.mpr ⟨forall_mem_cons.mpr ⟨hnot, ihb hnh.inner⟩, nofun⟩

end

theorem IsBody.sparesCounter (h : IsBody g kind sig S b) :
    ∀ x ∈ b.places [], x.2.SparesCounter (bodyEnv g kind sig).setting x.1 := by
  obtain ⟨s, cs, rfl, hl⟩ := h
  rw [Code.Block.places, Code.stmtsPlaces_append]
  refine forall_mem_append.mpr ⟨?_, (hl _).sparesCounter rfl⟩
  intro x hx
  obtain ⟨i, -, hinit⟩ := zeroOutputs_places x hx
  rw [hinit]
  exact trivial

end Check

/-! ## Accepted sources -/

/-- **Every loop of an accepted source comes to an end.** Nothing in its body writes the counter or a part of it, its
condition is one of the six comparisons, and the counter moves. In exact arithmetic there is a number of rounds after
which the condition fails, and no execution makes more, whatever the body does to the variables that it writes. The
rule by which headers are accepted is sound for all exact numbers. -/
theorem loops_end :
    (∀ (options : CompileOptions) (source : String) (p : Program), compile options source = .ok p →
      ∀ b ∈ p.bodies, ∀ x ∈ b.1.top.places [], ∀ c body, x.2 = .loop c body →
        ¬body.Writes (p.setting true b.1.kind b.2) x.1 c.index ∧ c.op ∈ [.lt, .le, .gt, .ge, .eq, .ne] ∧
        ∃ a z d, c.start.number? = some a ∧ c.stop.number? = some z ∧ c.step.number? = some d ∧ d ≠ 0 ∧
          ∃ n, c.Lasts a z d n ∧ ∀ (W : Type) (states : Nat → Code.Store W) (m : Nat), states 0 c.index = .inl a →
            (∀ k < m, c.Round (p.setting true b.1.kind b.2) x.1 body (states k) (states (k + 1))) → m ≤ n) ∧
    ∀ (op : Op) (start stop step : Constant) (a z d : Rat), Check.terminates op start stop step = true →
      start.number? = some a → stop.number? = some z → step.number? = some d →
      d ≠ 0 ∧ ∃ n : Nat, Constant.floatCompare? op (a + n * d) z = some false := by
  refine ⟨fun options source p h b hb x hx c body heq => ?_, fun op start stop step a z d => Check.terminates_counts⟩
  obtain ⟨file, g, cs, -, hp⟩ := Check.compile_assembly h
  obtain ⟨f, -, sig, hbody, hchecks⟩ := hp.bodyOf hb
  have hprod := hp.produces
  have hnot := hbody.lowered.sparesCounter x hx
  rw [hprod.setting hbody, heq] at hnot
  -- the types give the numbers, and the header was found to end
  obtain ⟨inLoop, Γ, htyped⟩ := Code.Block.Typed.place _ [] (hprod.typed.1 b hb) x hx
  rw [heq] at htyped
  have hcounter : c.Typed := htyped.1
  have hends := (Check.body_traced hchecks.run x hx).ends c body heq
  obtain ⟨a, z, d, ha, hz, hd⟩ := hcounter.numbers
  obtain ⟨hne, hcount⟩ := Check.terminates_counts hends ha hz hd
  obtain ⟨n, hn⟩ := Code.Counter.exists_lasts hcounter.2.2.1 hcount
  refine ⟨hnot, Op.mem_of_isComparison hcounter.2.2.1, a, z, d, ha, hz, hd, hne, n, hn, fun W states m h₀ hrounds => ?_⟩
  exact Code.Counter.rounds_le hnot hz hd hn h₀ hrounds

/-- A loop that has to meet its limit, with a variable in the body that hides the counter. -/
def countdown : String := "package main
func Fragment(p vec4) vec4 {
	s := p
	for i := 1.0; i != 0; i -= 0.25 {
		i := i
		i += 1
		s.x = i
	}
	return s
}
"

set_option maxRecDepth 2000 in
theorem countdown_ends :
    (∃ p, compile {} countdown = .ok p ∧ ∃ b ∈ p.bodies, ∃ x ∈ b.1.top.places [], ∃ c body, x.2 = .loop c body ∧
      c.op = .ne ∧ ¬body.Writes (p.setting true b.1.kind b.2) x.1 c.index ∧
      ∃ a z d, c.start.number? = some a ∧ c.stop.number? = some z ∧ c.step.number? = some d ∧ d ≠ 0 ∧
        ∃ n, c.Lasts a z d n ∧ ∀ (W : Type) (states : Nat → Code.Store W) (m : Nat), states 0 c.index = .inl a →
          (∀ k < m, c.Round (p.setting true b.1.kind b.2) x.1 body (states k) (states (k + 1))) → m ≤ n) ∧
    Check.terminates .eq (.int 3) (.int 3) (.int (-2)) = true ∧
      ∃ n : Nat, Constant.floatCompare? .eq (3 + n * -2) 3 = some false := by
  obtain ⟨p, hp, b, hb, x, hx, hq⟩ : ∃ p, compile {} countdown = .ok p ∧ ∃ b ∈ p.bodies, ∃ x ∈ b.1.top.places [],
      (match x.2 with
      | .loop c _ => decide (c.op = .ne)
      | _ => false) = true := exists_compile (by decide +kernel)
  refine ⟨⟨p, hp, b, hb, x, hx, ?_⟩, by decide, ?_⟩
  · split at hq
    · next c body heq =>
      obtain ⟨hnot, -, hrounds⟩ := loops_end.1 _ _ p hp b hb x hx c body heq
      exact ⟨c, body, heq, of_decide_eq_true hq, hnot, hrounds⟩
    · exact absurd hq nofun
  · exact (loops_end.2 .eq (.int 3) (.int 3) (.int (-2)) 3 3 (-2) (by decide) rfl rfl rfl).2

end GameMedia.Shader
