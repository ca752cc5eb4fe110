import GameMedia.Proofs.Shader.References
import GameMedia.Proofs.Shader.Rendering

/-!
# Chains of calls

A block calls what it mentions, and what the functions it calls mention. Chains of calls may run in circles, and may
mention numbers that no function has. `Program.Calls` says what such a chain is, without the rounds in which the call
closure is computed; what occurs in a block is said without the walk that lists its nodes.

A round adds what the functions of a list mention. While the list is not closed under calls, a round adds a function
that was missing, so as many rounds as there are functions missing close the list, and further rounds change nothing
that matters.
-/

namespace GameMedia.Shader

open List

namespace Code

variable {n : Expr} {b : Block} {s : Stmt} {i : Nat}

/-! ## What occurs in a block -/

def Expr.operands : Expr → List Expr
  | .unary _ e => [e]
  | .binary _ l r => [l, r]
  | .select c t f => [c, t, f]
  | .call f args => f :: args
  | .field b n => [b, n]
  | .index b i => [b, i]
  | .blank | .number _ _ | .uniform _ | .texture _ | .localVar _ | .member _ | .builtin _ | .swizzle _ | .func _ => []

/-- `n` is the expression, or stands somewhere inside it. -/
inductive Expr.Contains (n : Expr) : Expr → Prop
  | self : Expr.Contains n n
  | operand {e o : Expr} : o ∈ e.operands → Expr.Contains n o → Expr.Contains n e

def Stmt.inner : Stmt → List Block
  | .block b | .loop _ b | .branch _ b none => [b]
  | .branch _ t (some f) => [t, f]
  | .expr _ | .assign _ _ | .init _ | .next | .leave | .ret _ | .discard => []

/-- `n` occurs in the block: in an expression of one of its statements, or in a block of one. -/
inductive Block.Contains (n : Expr) : Block → Prop
  | own {b : Block} {s : Stmt} {e : Expr} : s ∈ b.stmts → e ∈ s.own → Expr.Contains n e → Block.Contains n b
  | inner {b c : Block} {s : Stmt} : s ∈ b.stmts → c ∈ s.inner → Block.Contains n c → Block.Contains n b

theorem Expr.nodes_eq (e : Expr) : e.nodes = e :: Expr.nodesAll e.operands := by
  cases e <;> simp [Expr.nodes, Expr.operands, Expr.nodesAll]

theorem Expr.sizeOf_operand_lt {e o : Expr} (h : o ∈ e.operands) : sizeOf o < sizeOf e := by
  cases e with
  | call f args =>
    rcases mem_cons.mp h with rfl | h
    · simp only [Expr.call.sizeOf_spec]
      omega
    · have := sizeOf_lt_of_mem h
      simp only [Expr.call.sizeOf_spec]
      omega
  | unary op e =>
    obtain rfl := mem_singleton.mp h
    simp
  | binary op l r | field l r | index l r =>
    simp only [Expr.operands, mem_cons, not_mem_nil, or_false] at h
    rcases h with rfl | rfl <;>
      simp only [Expr.binary.sizeOf_spec, Expr.field.sizeOf_spec, Expr.index.sizeOf_spec] <;> omega
  | select c t f =>
    simp only [Expr.operands, mem_cons, not_mem_nil, or_false] at h
    rcases h with rfl | rfl | rfl <;> simp <;> omega
  | _ => cases h

theorem Expr.contains_of_mem (e : Expr) {n : Expr} (h : n ∈ e.nodes) : Expr.Contains n e := by
  rw [Expr.nodes_eq, mem_cons, Expr.mem_nodesAll] at h
  rcases h with rfl | ⟨o, ho, hn⟩
  · exact .self
  · exact .operand ho (Expr.contains_of_mem o hn)
termination_by sizeOf e
decreasing_by exact Expr.sizeOf_operand_lt ho

theorem Expr.mem_nodes_iff : n ∈ e.nodes ↔ Expr.Contains n e := by
  refine ⟨Expr.contains_of_mem e, fun h => ?_⟩
  induction h with
  | self =>
    rw [Expr.nodes_eq]
    exact mem_cons_self
  | operand ho _ ih =>
    rw [Expr.nodes_eq]
    exact mem_cons_of_mem _ (Expr.mem_nodesAll.mpr ⟨_, ho, ih⟩)

theorem Stmt.mem_nodes_iff : n ∈ s.nodes ↔ (∃ e ∈ s.own, Expr.Contains n e) ∨ ∃ c ∈ s.inner, n ∈ c.nodes := by
  simp only [← Expr.mem_nodes_iff]
  cases s with
  | branch c t f => cases f <;> simp [Stmt.nodes, Stmt.own, Stmt.inner]
  | ret v => cases v <;> simp [Stmt.nodes, Stmt.own, Stmt.inner]
  | _ => simp [Stmt.nodes, Stmt.own, Stmt.inner]

theorem mem_stmtNodes_iff : n ∈ stmtNodes ss ↔ ∃ s ∈ ss, n ∈ s.nodes := by
  induction ss with
  | nil => simp [stmtNodes]
  | cons s ss ih => simp [stmtNodes, ih]

theorem Block.mem_nodes_iff_stmts : n ∈ b.nodes ↔ ∃ s ∈ b.stmts, n ∈ s.nodes := by
  cases b with
  | mk vars offset ss => exact mem_stmtNodes_iff

theorem Stmt.sizeOf_inner_lt (h : c ∈ s.inner) : sizeOf c < sizeOf s := by
  cases s with
  | block b | loop _ b =>
    obtain rfl := mem_singleton.mp h
    simp
  | branch e t f =>
    cases f with
    | none =>
      obtain rfl := mem_singleton.mp h
      simp
    | some f =>
      simp only [Stmt.inner, mem_cons, not_mem_nil, or_false] at h
      rcases h with rfl | rfl <;> simp <;> omega
  | _ => cases h

theorem Block.sizeOf_stmt_lt (h : s ∈ b.stmts) : sizeOf s < sizeOf b := by
  cases b with
  | mk vars offset ss =>
    have := sizeOf_lt_of_mem h
    simp only [Block.stmts, Block.mk.sizeOf_spec] at this ⊢
    omega

theorem Block.contains_of_mem (b : Block) (h : n ∈ b.nodes) : Block.Contains n b := by
  obtain ⟨s, hs, hn⟩ := Block.mem_nodes_iff_stmts.mp h
  rcases Stmt.mem_nodes_iff.mp hn with ⟨e, he, hn⟩ | ⟨c, hc, hn⟩
  · exact .own hs he hn
  · exact .inner hs hc (Block.contains_of_mem c hn)
termination_by sizeOf b
decreasing_by exact (Stmt.sizeOf_inner_lt hc).trans (Block.sizeOf_stmt_lt hs)

/-- The walk of a block visits what occurs in it. -/
theorem Block.mem_nodes_iff : n ∈ b.nodes ↔ Block.Contains n b := by
  refine ⟨Block.contains_of_mem b, fun h => ?_⟩
  induction h with
  | own hs he hn => exact Block.mem_nodes_iff_stmts.mpr ⟨_, hs, Stmt.mem_nodes_iff.mpr (.inl ⟨_, he, hn⟩)⟩
  | inner hs hc _ ih => exact Block.mem_nodes_iff_stmts.mpr ⟨_, hs, Stmt.mem_nodes_iff.mpr (.inr ⟨_, hc, ih⟩)⟩

theorem Block.mem_calls : i ∈ b.calls ↔ Block.Contains (.func i) b := by
  rw [← Block.mem_nodes_iff, Block.calls, mem_filterMap]
  constructor
  · rintro ⟨e, he, hi⟩
    cases e with
    | func j => exact Option.some.inj hi ▸ he
    | _ => cases hi
  · exact fun h => ⟨_, h, rfl⟩

theorem Block.mem_uniforms : i ∈ b.uniforms ↔ Block.Contains (.uniform i) b := by
  rw [← Block.mem_nodes_iff, Block.uniforms, mem_filterMap]
  constructor
  · rintro ⟨e, he, hi⟩
    cases e with
    | uniform j => exact Option.some.inj hi ▸ he
    | _ => cases hi
  · exact fun h => ⟨_, h, rfl⟩

end Code

open Code

variable {n : Nat}

/-! ## Ascending lists -/

theorem mem_insertAscending : m ∈ insertAscending n ns ↔ m = n ∨ m ∈ ns := by
  fun_induction insertAscending n ns with
  | case1 | case2 | case3 => simp
  | case4 m ms _ _ ih => simp only [mem_cons, ih]; tauto

theorem insertAscending_sorted (h : ns.Pairwise (· < ·)) : (insertAscending n ns).Pairwise (· < ·) := by
  fun_induction insertAscending n ns with
  | case1 => simp
  | case2 m ms hlt =>
    rw [pairwise_cons] at h ⊢
    refine ⟨forall_mem_cons.mpr ⟨hlt, fun k hk => hlt.trans (h.1 k hk)⟩, pairwise_cons.mpr h⟩
  | case3 => exact h
  | case4 m ms hle hne ih =>
    rw [pairwise_cons] at h ⊢
    refine ⟨fun k hk => ?_, ih h.2⟩
    rcases mem_insertAscending.mp hk with rfl | hk
    · omega
    · exact h.1 k hk

theorem mem_ascending : n ∈ ascending ns ↔ n ∈ ns := by
  induction ns with
  | nil => rfl
  | cons m ns ih => rw [ascending, foldr_cons, mem_insertAscending, ← ascending, ih, mem_cons]

theorem ascending_sorted (ns : List Nat) : (ascending ns).Pairwise (· < ·) := by
  induction ns with
  | nil => exact List.Pairwise.nil
  | cons m ns ih => exact insertAscending_sorted ih

namespace Program

/-! ## Chains -/

/-- **A chain of calls leads from the block to the function.** Each link is a mention of the next function, anywhere in
the block or in the body of the function before. -/
inductive Calls (p : Program) (b : Block) : Func → Prop
  | direct {f : Func} : f ∈ p.funcs → Block.Contains (.func f.index) b → Calls p b f
  | indirect {f g : Func} : Calls p b f → g ∈ p.funcs → Block.Contains (.func g.index) f.body → Calls p b g

theorem Calls.mem {p : Program} (h : p.Calls b f) : f ∈ p.funcs := by
  cases h <;> assumption

/-- The functions have different numbers. -/
def Distinct (p : Program) : Prop := (p.funcs.map Func.index).Nodup

section

variable {p : Program} {b : Block} {f : Func} {is : List Nat} {n : Nat}

theorem callee?_eq_some_iff (hp : p.Distinct) : p.callee? i = some f ↔ f ∈ p.funcs ∧ f.index = i := by
  constructor
  · intro h
    exact ⟨mem_reverse.mp (List.mem_of_find?_eq_some h), by simpa using find?_some h⟩
  · rintro ⟨hf, rfl⟩
    have hsome : (p.callee? f.index).isSome := by
      rw [callee?, find?_isSome]
      exact ⟨f, mem_reverse.mpr hf, by simp⟩
    obtain ⟨g, hg⟩ := Option.isSome_iff_exists.mp hsome
    have hgf : g.index = f.index := by simpa using find?_some hg
    rw [hg, inj_on_of_nodup_map hp (mem_reverse.mp (List.mem_of_find?_eq_some hg)) hf hgf]

theorem mem_withCallees (hp : p.Distinct) :
    j ∈ p.withCallees is ↔ j ∈ is ∨ ∃ f ∈ p.funcs, f.index ∈ is ∧ Block.Contains (.func j) f.body := by
  rw [withCallees, mem_ascending, mem_append, mem_flatMap]
  refine or_congr_right ⟨?_, ?_⟩
  · rintro ⟨i, hi, hj⟩
    cases hf : p.callee? i with
    | none => rw [hf] at hj; cases hj
    | some f =>
      rw [hf] at hj
      obtain ⟨hmem, rfl⟩ := (callee?_eq_some_iff hp).mp hf
      exact ⟨f, hmem, hi, Block.mem_calls.mp hj⟩
  · rintro ⟨f, hf, hi, hj⟩
    refine ⟨f.index, hi, ?_⟩
    rw [(callee?_eq_some_iff hp).mpr ⟨hf, rfl⟩]
    exact Block.mem_calls.mpr hj

theorem closeCalls_sorted (n : Nat) (h : is.Pairwise (· < ·)) : (p.closeCalls n is).Pairwise (· < ·) := by
  induction n generalizing is with
  | zero => exact h
  | succ n ih => exact ih (ascending_sorted _)

/-! ## Rounds -/

theorem subset_closeCalls (hp : p.Distinct) (n : Nat) (is : List Nat) : is ⊆ p.closeCalls n is := by
  induction n generalizing is with
  | zero => exact List.Subset.refl is
  | succ n ih => exact fun i hi => ih _ ((mem_withCallees hp).mpr (.inl hi))

/-- Nothing is added but what chains of calls lead to. -/
theorem closeCalls_sound (hp : p.Distinct) (his : ∀ g ∈ p.funcs, g.index ∈ is → p.Calls b g) (hf : f ∈ p.funcs)
    (h : f.index ∈ p.closeCalls n is) : p.Calls b f := by
  induction n generalizing is with
  | zero => exact his f hf h
  | succ n ih =>
    refine ih (fun g hg hi => ?_) h
    rcases (mem_withCallees hp).mp hi with hi | ⟨k, hk, hi, hcall⟩
    · exact his g hg hi
    · exact .indirect (his k hk hi) hg hcall

/-- The functions of the list call no others. Numbers that no function has do not count. -/
def Closed (p : Program) (is : List Nat) : Prop :=
  ∀ f ∈ p.funcs, f.index ∈ is → ∀ g ∈ p.funcs, Block.Contains (.func g.index) f.body → g.index ∈ is

theorem Closed.withCallees (hp : p.Distinct) (h : p.Closed is) : p.Closed (p.withCallees is) := by
  -- a round adds no function to a closed list
  have hsame : ∀ f ∈ p.funcs, f.index ∈ p.withCallees is → f.index ∈ is := by
    intro f hf hi
    rcases (mem_withCallees hp).mp hi with hi | ⟨k, hk, hi, hcall⟩
    · exact hi
    · exact h k hk hi f hf hcall
  intro f hf hi g hg hcall
  exact (mem_withCallees hp).mpr (.inl (h f hf (hsame f hf hi) g hg hcall))

theorem Closed.closeCalls (hp : p.Distinct) (n : Nat) (h : p.Closed is) : p.Closed (p.closeCalls n is) := by
  induction n generalizing is with
  | zero => exact h
  | succ n ih => exact ih (h.withCallees hp)

def missing (p : Program) (is : List Nat) : List Func := p.funcs.filter fun f => f.index ∉ is

theorem missing_withCallees_lt (hp : p.Distinct) (h : ¬p.Closed is) :
    (p.missing (p.withCallees is)).length < (p.missing is).length := by
  simp only [Closed, not_forall] at h
  obtain ⟨f, hf, hi, g, hg, hcall, hnew⟩ := h
  have hsub : p.missing (p.withCallees is) = (p.missing is).filter fun f => f.index ∉ p.withCallees is := by
    rw [missing, missing, List.filter_filter]
    refine filter_congr fun k _ => ?_
    simp only [mem_withCallees hp, not_or, ← Bool.decide_and, decide_eq_decide]
    tauto
  rw [hsub, length_filter_lt_length_iff_exists]
  refine ⟨g, mem_filter.mpr ⟨hg, decide_eq_true hnew⟩, ?_⟩
  simpa using (mem_withCallees hp).mpr (.inr ⟨f, hf, hi, hcall⟩)

/-- As many rounds as functions are missing close the list. -/
theorem closed_closeCalls (hp : p.Distinct) (h : (p.missing is).length ≤ n) : p.Closed (p.closeCalls n is) := by
  induction n generalizing is with
  | zero =>
    have hall : ∀ f ∈ p.funcs, f.index ∈ is := by
      have hnil := filter_eq_nil_iff.mp (eq_nil_of_length_eq_zero (Nat.le_zero.mp h))
      exact fun f hf => by simpa using hnil f hf
    exact fun f hf hi g hg hcall => hall g hg
  | succ n ih =>
    by_cases hclosed : p.Closed is
    · exact hclosed.closeCalls hp (n + 1)
    · exact ih (by have := missing_withCallees_lt hp hclosed; omega)

/-! ## The closure -/

/-- **The call closure is what chains of calls lead to.** -/
theorem mem_reachableFuncs (hp : p.Distinct) : f ∈ p.reachableFuncs b ↔ p.Calls b f := by
  have hlisted : f ∈ p.reachableFuncs b ↔
      f ∈ p.funcs ∧ f.index ∈ p.closeCalls p.funcs.length (ascending b.calls) := by
    rw [reachableFuncs, mem_filterMap]
    constructor
    · rintro ⟨i, hi, hf⟩
      obtain ⟨hmem, rfl⟩ := (callee?_eq_some_iff hp).mp hf
      exact ⟨hmem, hi⟩
    · exact fun h => ⟨f.index, h.2, (callee?_eq_some_iff hp).mpr ⟨h.1, rfl⟩⟩
  rw [hlisted]
  clear hlisted
  constructor
  · rintro ⟨hf, hi⟩
    refine closeCalls_sound hp (fun g hg hi => ?_) hf hi
    exact .direct hg (Block.mem_calls.mp (mem_ascending.mp hi))
  · intro h
    refine ⟨h.mem, ?_⟩
    have hclosed : p.Closed (p.closeCalls p.funcs.length (ascending b.calls)) :=
      closed_closeCalls hp (length_filter_le _ _)
    induction h with
    | direct hf hcall => exact subset_closeCalls hp _ _ (mem_ascending.mpr (Block.mem_calls.mpr hcall))
    | indirect hf hg hcall ih => exact hclosed _ hf.mem ih _ hg hcall

theorem reachableFuncs_sorted (hp : p.Distinct) : (p.reachableFuncs b).Pairwise (·.index < ·.index) := by
  refine (closeCalls_sorted p.funcs.length (ascending_sorted b.calls)).filterMap _ fun i j hlt f hf g hg => ?_
  rw [((callee?_eq_some_iff hp).mp hf).2, ((callee?_eq_some_iff hp).mp hg).2]
  exact hlt

end

end Program

end GameMedia.Shader
