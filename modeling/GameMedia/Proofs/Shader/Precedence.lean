import Mathlib
import GameMedia.Shader.Surface.Parser.File

/-!
# Operators by precedence

Operands with operators between them can be grouped in many ways, but only one of them has looser operators above tighter
ones and leaves above right where they are alike. The parser finds it with one token ahead: at every level it goes on as
long as operators bind tightly enough, and hands what binds tighter still to the level above. So what a level is given at
its left can stand under the next operator, because the level above stopped there.
-/

namespace GameMedia.Shader.Surface

open List

/-! ## Groupings -/

/-- An expression as operators build it up. Operands are not looked into. -/
inductive OpTree where
  | operand (e : Expr)
  | node (op : BinaryOp) (l r : OpTree)

namespace OpTree

variable {n : Nat} {t : OpTree} {op : BinaryOp}

def expr : OpTree → Expr
  | operand e => e
  | node op l r => .binary op l.expr r.expr

/-- Operands and operators from left to right. -/
def inorder : OpTree → List (Expr ⊕ BinaryOp)
  | operand e => [.inl e]
  | node op l r => l.inorder ++ .inr op :: r.inorder

/-- An operator at the top binds at least so tightly. -/
def AtLeast (n : Nat) : OpTree → Prop
  | operand _ => True
  | node op _ _ => n ≤ op.precedence

/-- An operator at the left of another binds as tightly or tighter, and one at its right binds tighter. -/
def Grouped : OpTree → Prop
  | operand _ => True
  | node op l r => l.AtLeast op.precedence ∧ r.AtLeast (op.precedence + 1) ∧ l.Grouped ∧ r.Grouped

theorem AtLeast.mono (h : t.AtLeast n) (hmn : m ≤ n) : t.AtLeast m := by
  cases t with
  | operand e => trivial
  | node op l r => exact hmn.trans h

theorem inorder_ne_nil (t : OpTree) : t.inorder ≠ [] := by
  cases t with
  | operand e => exact cons_ne_nil _ _
  | node op l r => exact append_ne_nil_of_right_ne_nil _ (cons_ne_nil _ _)

/-- The operator at the top is the loosest of all. -/
theorem Grouped.le_precedence (h : t.Grouped) (hn : t.AtLeast n) (hop : .inr op ∈ t.inorder) : n ≤ op.precedence := by
  induction t with
  | operand e => simp [inorder] at hop
  | node top l r ihl ihr =>
    obtain ⟨hl, hr, hgl, hgr⟩ := h
    simp only [inorder, mem_append, mem_cons, Sum.inr.injEq] at hop
    rcases hop with hop | rfl | hop
    · exact ihl hgl (hl.mono hn) hop
    · exact hn
    · exact ihr hgr (hr.mono (hn.trans (Nat.le_succ _))) hop

/-- The left side of a grouping ends where that of another does: an operator between the two would be tighter than the
one of the first and not looser than that of the second. -/
theorem Grouped.eq_nil_of_append
    (h : (node op l r).Grouped) (h' : (node op' l' r').Grouped) (hl : l'.inorder = l.inorder ++ a)
    (hr : .inr op :: r.inorder = a ++ .inr op' :: r'.inorder) : a = [] := by
  cases a with
  | nil => rfl
  | cons x a =>
    rw [cons_append, cons.injEq] at hr
    obtain ⟨rfl, hr⟩ := hr
    have hleft : Sum.inr op ∈ l'.inorder := by simp [hl]
    have hright : Sum.inr op' ∈ r.inorder := by simp [hr]
    have hle := h'.2.2.1.le_precedence h'.1 hleft
    have hlt := h.2.2.2.le_precedence h.2.1 hright
    omega

/-- **There is one grouping at most.** -/
theorem Grouped.unique (h : t.Grouped) (h' : t'.Grouped) (he : t.inorder = t'.inorder) : t = t' := by
  -- an operand alone has no operator
  have hsingle : ∀ e op (l r : OpTree), (operand e).inorder ≠ (node op l r).inorder := by
    intro e op l r hcontra
    have hlen := congrArg length hcontra
    have hl := length_pos_of_ne_nil l.inorder_ne_nil
    simp [inorder] at hlen
    omega
  induction t generalizing t' with
  | operand e =>
    cases t' with
    | operand e' => simpa [inorder] using he
    | node op l r => exact absurd he (hsingle _ _ _ _)
  | node op l r ihl ihr =>
    cases t' with
    | operand e' => exact absurd he.symm (hsingle _ _ _ _)
    | node op' l' r' =>
      have hsplit : l.inorder = l'.inorder ∧ Sum.inr op :: r.inorder = Sum.inr op' :: r'.inorder := by
        rcases append_eq_append_iff.mp he with ⟨a, hl, hr⟩ | ⟨a, hl, hr⟩
        · obtain rfl := h.eq_nil_of_append h' hl hr
          exact ⟨by simpa using hl.symm, hr⟩
        · obtain rfl := h'.eq_nil_of_append h hl hr
          exact ⟨by simpa using hl, hr.symm⟩
      obtain ⟨hop, hr⟩ := cons.inj hsplit.2
      obtain rfl := Sum.inr.inj hop
      rw [ihl h.2.2.1 h'.2.2.1 hsplit.1, ihr h.2.2.2 h'.2.2.2 hr]

end OpTree

/-! ## Sequences of operands -/

namespace Parser

variable {t : State} {xs : List Placed} {items : List (Expr ⊕ BinaryOp)}

def State.tokens (s : State) : List Placed := s.head :: s.rest

/-- The rule reads that from one state to the other, however many layers the grammar has above the tokens that are
left. -/
def Reads {α : Type} (rule : Grammar → Parser α) (s : State) (a : α) (t : State) : Prop :=
  ∀ n, s.rest.length < n → rule (.layers n) s = (some a, t)

/-- An operand is a run of tokens that is read as a unary expression, as a whole. -/
structure ReadsOperand (s : State) (x : List Placed) (e : Expr) (t : State) : Prop where
  reads : Reads unary s e t
  tokens : s.tokens = x ++ t.tokens

/-- Operators with an operand behind each, and no operator behind the last. -/
inductive Follows : State → List Placed → List (Expr ⊕ BinaryOp) → State → Prop
  | done {t : State} : binaryOp? t.head.token = none → Follows t [] [] t
  | more {t u v : State} {o : Placed} {op : BinaryOp} {e : Expr} {x xs : List Placed} {items : List (Expr ⊕ BinaryOp)} :
      t.tokens = o :: t.advance.tokens → binaryOp? o.token = some op → ReadsOperand t.advance x e u →
      Follows u xs items v → Follows t (o :: (x ++ xs)) (.inr op :: .inl e :: items) v

/-- **Operands with operators between them**, as tokens and as what they are. -/
inductive Sequence : State → List Placed → List (Expr ⊕ BinaryOp) → State → Prop
  | mk {s t v : State} {e : Expr} {x xs : List Placed} {items : List (Expr ⊕ BinaryOp)} :
      ReadsOperand s x e t → Follows t xs items v → Sequence s (x ++ xs) (.inl e :: items) v

theorem Follows.tokens (h : Follows t xs items v) : t.tokens = xs ++ v.tokens := by
  induction h with
  | done => rfl
  | more ho _ hx _ ih => rw [ho, hx.tokens, ih, cons_append, append_assoc]

theorem ReadsOperand.length_le (h : ReadsOperand s x e t) :
    t.rest.length ≤ s.rest.length := by
  have hlen := congrArg length h.tokens
  simp only [State.tokens, length_append, length_cons] at hlen
  omega

theorem length_advance (h : t.tokens = o :: t.advance.tokens) :
    t.rest.length = t.advance.rest.length + 1 := by
  have hlen := congrArg length h
  simpa [State.tokens] using hlen

/-! ## Climbing -/

theorem bind_of_some {α β : Type} {p : Parser α} {f : α → Parser β} {s : State} {a : α} (h : p s = (some a, t)) :
    (p >>= f) s = f a t := by
  simp only [Bind.bind, h]

/-- What a level of the parser makes of a left side and what follows: a grouping of the left side and a first part, and
a rest that begins with an operator that is too loose. -/
def Climbs (least : Nat) (lhs : OpTree) (items : List (Expr ⊕ BinaryOp)) (t v : State) (run : Option Expr × State) :
    Prop :=
  ∃ (tree : OpTree) (u : State) (first rest : List (Expr ⊕ BinaryOp)) (ys : List Placed),
    run = (some tree.expr, u) ∧ tree.Grouped ∧ tree.AtLeast least ∧ tree.inorder = lhs.inorder ++ first ∧
      items = first ++ rest ∧ Follows u ys rest v ∧ (∀ op, rest.head? = some (.inr op) → op.precedence < least) ∧
      u.rest.length ≤ t.rest.length

/-- **One level of the parser.** Induction on what follows: the right side of an operator is read by the level above, and
then the loop goes on with what that has left. -/
theorem iterate_climbs (n k least : Nat) (lhs : OpTree) {v : State} (hf : Follows t xs items v) (hn : t.rest.length < n)
    (hk : t.rest.length < k) (hg : lhs.Grouped) (hleast : lhs.AtLeast least)
    (hnext : ∀ op, items.head? = some (.inr op) → lhs.AtLeast op.precedence) :
    Climbs least lhs items t v (iterate (binarySuffix (.layers n) least) k lhs.expr t) := by
  induction hm : items.length using Nat.strong_induction_on generalizing n k least lhs t xs items with
  | _ m ih =>
  subst hm
  obtain ⟨k, rfl⟩ := Nat.exists_eq_succ_of_ne_zero (Nat.ne_zero_of_lt hk)
  cases hf with
  | done hstop =>
    refine ⟨lhs, v, [], [], [], ?_, hg, hleast, (append_nil _).symm, rfl, .done hstop, fun _ h => (by cases h), le_rfl⟩
    simp [iterate, binarySuffix, peek, Bind.bind, Pure.pure, hstop]
  | @more _ u _ o op e x xs items hpass hop hx hrest =>
    have hhead : t.head = o := (cons.inj hpass).1
    have hlen := length_advance hpass
    have hle := hx.length_le
    by_cases hloose : op.precedence < least
    · refine ⟨lhs, t, [], _, _, ?_, hg, hleast, (append_nil _).symm, rfl, .more hpass hop hx hrest, ?_, le_rfl⟩
      · simp [iterate, binarySuffix, peek, Bind.bind, Pure.pure, hhead, hop, hloose]
      · rintro _ ⟨⟩
        exact hloose
    · obtain ⟨n, rfl⟩ := Nat.exists_eq_succ_of_ne_zero (Nat.ne_zero_of_lt hn)
      -- the level above reads the right side
      obtain ⟨rhs, w, first, rest, ys, hrun, hrg, hrleast, hrin, rfl, hrfollows, hrnext, hrlen⟩ :=
        ih items.length (by simp) n (u.rest.length + 1) (op.precedence + 1) (.operand e) hrest (by omega) (by omega)
          trivial trivial (fun _ _ => trivial) rfl
      have hright : (Grammar.layers (n + 1)).expr (op.precedence + 1) t.advance = (some rhs.expr, w) := by
        change binary (.layers n) (op.precedence + 1) t.advance = _
        rw [binary, bind_of_some (hx.reads n (by omega)), loop, bind_of_some (p := remaining) rfl]
        exact hrun
      have hstep : binarySuffix (.layers (n + 1)) least lhs.expr t =
          (some (.inl (OpTree.node op lhs rhs).expr), w) := by
        simp [binarySuffix, peek, next, Bind.bind, Pure.pure, hhead, hop, hloose, hright, OpTree.expr]
      -- its result and the left side go under the operator, as what follows is no tighter
      obtain ⟨tree, z, more, last, zs, hgo, htg, htleast, htin, rfl, htfollows, htnext, htlen⟩ :=
        ih rest.length (by simp; omega) (n + 1) k least (.node op lhs rhs) hrfollows (by omega) (by omega)
          ⟨hnext _ rfl, hrleast, hg, hrg⟩ (Nat.le_of_not_lt hloose)
          (fun o ho => Nat.le_of_lt_succ (hrnext o ho)) rfl
      refine ⟨tree, z, .inr op :: .inl e :: (first ++ more), last, zs, ?_, htg, htleast, ?_, ?_, htfollows, htnext,
        by omega⟩
      · rw [iterate, bind_of_some hstep]
        exact hgo
      · simp [htin, OpTree.inorder, hrin]
      · simp

/-- No operator is too loose for the lowest level. -/
theorem Follows.eq_nil (h : Follows t xs items v)
    (hloose : ∀ op, items.head? = some (.inr op) → op.precedence < 1) : items = [] ∧ t = v := by
  cases h with
  | done => exact ⟨rfl, rfl⟩
  | @more _ _ _ _ op =>
    have := hloose op rfl
    cases op <;> exact absurd this (by decide)

/-- **Expressions are read by precedence.** Operands with operators between them are read to the end, and the result is
the one grouping of them in which an operator at the left of another binds as tightly or tighter and one at its right
binds tighter. -/
theorem expr_grouped {s v : State} {x : List Placed} {items : List (Expr ⊕ BinaryOp)} (h : Sequence s x items v) :
    s.tokens = x ++ v.tokens ∧ ∃ tree : OpTree, Reads expr s tree.expr v ∧ tree.inorder = items ∧ tree.Grouped ∧
      ∀ tree' : OpTree, tree'.inorder = items → tree'.Grouped → tree' = tree := by
  obtain @⟨t, _, e, x, xs, items, hx, hf⟩ := h
  have hclimb : ∀ n, s.rest.length < n → ∃ tree : OpTree, expr (.layers n) s = (some tree.expr, v) ∧
      tree.inorder = .inl e :: items ∧ tree.Grouped := by
    intro n hn
    obtain ⟨tree, u, first, rest, ys, hrun, hg, -, hin, rfl, hrest, hnext, -⟩ :=
      iterate_climbs n (t.rest.length + 1) 1 (.operand e) hf (hx.length_le.trans_lt hn) (Nat.lt_succ_self _) trivial
        trivial fun _ _ => trivial
    obtain ⟨rfl, rfl⟩ := hrest.eq_nil hnext
    refine ⟨tree, ?_, by simp [hin, OpTree.inorder], hg⟩
    rw [expr, binary, bind_of_some (hx.reads n hn), loop, bind_of_some (p := remaining) rfl]
    exact hrun
  obtain ⟨tree, -, hin, hg⟩ := hclimb _ (Nat.lt_succ_self _)
  refine ⟨by rw [hx.tokens, hf.tokens, List.append_assoc], tree, fun n hn => ?_, hin, hg, fun tree' hin' hg' =>
    hg'.unique hg (hin'.trans hin.symm)⟩
  -- all numbers of layers give a grouping, and there is only one
  obtain ⟨tree', hrun, hin', hg'⟩ := hclimb n hn
  rwa [hg'.unique hg (hin'.trans hin.symm)] at hrun

/-- Tokens of `1 + a * 2 == b`. -/
def comparison : State where
  head := ⟨.int "1", default⟩
  rest := [⟨.symbol .add, default⟩, ⟨.ident "a", default⟩, ⟨.symbol .mul, default⟩, ⟨.int "2", default⟩,
    ⟨.symbol .eql, default⟩, ⟨.ident "b", default⟩, ⟨.newline, default⟩]
  level := 0
  errors := []

theorem comparison_grouped : ∃ x items v, Sequence comparison x items v ∧ v.rest = [] ∧
    ∃ tree : OpTree, Reads expr comparison tree.expr v ∧ tree.inorder = items := by
  have hseq : Sequence comparison _ _ _ :=
    .mk (x := [_]) ⟨fun _ _ => rfl, rfl⟩ <| .more rfl rfl (x := [_]) ⟨fun _ _ => rfl, rfl⟩ <|
      .more rfl rfl (x := [_]) ⟨fun _ _ => rfl, rfl⟩ <| .more rfl rfl (x := [_]) ⟨fun _ _ => rfl, rfl⟩ (.done rfl)
  obtain ⟨-, tree, hreads, hin, -⟩ := expr_grouped hseq
  exact ⟨_, _, _, hseq, rfl, tree, hreads, hin⟩

end Parser

end GameMedia.Shader.Surface
