import GameMedia.Proofs.Shader.Identifiers
import Mathlib.Logic.Relation

/-!
# Levels

Whether a brace behind a name opens a composite literal is decided by a level that the parsers share. Brackets add to it,
headers and bodies replace it, and a parser can fail in the midst of them. Every rule leaves the level as it found it,
also where it fails, so an error in one statement has no say in how the next one is read.
-/

namespace GameMedia.Shader.Surface.Parser

open Relation (ReflTransGen)

variable {α β σ : Type} {n : ℕ} {p : Parser α} {g : Grammar} {s t : State}

/-- Tokens in order are left, fewer than `n` of them behind the next. -/
structure State.Ready (n : ℕ) (s : State) : Prop where
  ok : s.Ok
  few : s.rest.length < n

theorem State.Ready.behind (h : s.Ready n) (ht : t.Behind s) : t.Ready n := ⟨ht.ok h.ok, ht.le.trans_lt h.few⟩

/-- A parser leaves the level as it found it, whether it gives a result or fails. -/
def Restores (n : ℕ) (p : Parser α) : Prop := ∀ s : State, s.Ready n → (p s).2.level = s.level

theorem GivesIf.restores (h : GivesIf n true false l p Q) : Restores n p :=
  fun s hs => (h s hs.ok hs.few fun hb => by cases hb).behind.level

theorem Gives.restores (h : Gives n true false false p Q) : Restores n p := GivesIf.restores h

/-- Every rule of the grammar leaves the level as it found it. -/
structure Restoring (g : Grammar) (n : ℕ) : Prop where
  parameters : Restores n (parameters g)
  signature : Restores n (signature g)
  arrayType : Restores n (arrayType g)
  structType : Restores n (structType g)
  type : Restores n (type g)
  operand : Restores n (operand g)
  indexSuffix : ∀ e : Expr, e.Clean → Restores n (indexSuffix g e)
  arguments : Restores n (arguments g)
  elements : Restores n (elements g)
  suffix : ∀ e : Expr, e.Clean → Restores n (suffix g e)
  primary : Restores n (primary g)
  unary : Restores n (unary g)
  binary : ∀ least, Restores n (binary g least)
  exprs : Restores n (exprs g)
  spec : ∀ kind, Restores n (spec g kind)
  stmts : Restores n (stmts g)
  block : Restores n (block g)
  funcBody : Restores n (funcBody g)
  simpleStmt : ∀ labels, Restores n (simpleStmt g labels)
  condHeader : Restores n (condHeader g)
  cond : Restores n (cond g)
  loopHeader : Restores n (loopHeader g)
  loopStmt : Restores n (loopStmt g)
  stmt : Restores n (stmt g)
  funcDecl : Restores n (funcDecl g)
  decls : Restores n (decls g)
  file : Restores n (file g)

theorem restoring_of_ok (hg : g.Ok n) : Restoring g n :=
  ⟨(gives_parameters hg).restores, (gives_signature hg).restores, (gives_arrayType hg).restores,
    (gives_structType hg).restores, (gives_type hg).restores, (gives_operand hg).restores,
    fun _ he => (gives_indexSuffix hg he).restores, (gives_arguments hg).restores, (gives_elements hg).restores,
    fun e he => (rounds_suffix hg e he).restores, (gives_primary hg).restores, (gives_unary hg).restores,
    fun least => (gives_binary hg least).restores, (gives_exprs hg).restores, fun kind => (gives_spec hg kind).restores,
    (gives_stmts hg).restores, (gives_block hg).restores, (gives_funcBody hg).restores,
    fun labels => (gives_simpleStmt hg labels).restores, (gives_condHeader hg).restores, (gives_cond hg).restores,
    (gives_loopHeader hg).restores, (gives_loopStmt hg).restores, (gives_stmt hg).restores, (gives_funcDecl hg).restores,
    (gives_decls hg).restores, (gives_file hg).restores⟩

/-! ## Errors and literals -/

/-- One round of a loop that goes on, with what it holds and where it stands before and behind it. -/
def Round (step : σ → Parser (σ ⊕ β)) (x y : σ × State) : Prop := step x.1 x.2 = (some (.inl y.1), y.2)

/-- However many rounds a loop has made, it goes on in order behind where it began. -/
theorem behind_of_rounds {step : σ → Parser (σ ⊕ σ)} (h : Rounds n true step I) {x y : σ × State} (hx : I x.1)
    (hs : x.2.Ready n) (hxy : ReflTransGen (Round step) x y) : I y.1 ∧ y.2.Behind x.2 := by
  induction hxy with
  | refl => exact ⟨hx, .refl _⟩
  | @tail y z _ hround ih =>
    have hy := hs.behind ih.2
    have hends := h y.1 ih.1 y.2 hy.ok hy.few fun hb => by cases hb
    rw [hround] at hends
    exact ⟨(hends.gives _ rfl).1, hends.behind.trans ih.2⟩

/-- A brace behind the expression opens a composite literal: the expression can be a type, and no header claims the
brace for its body if it is the mere name of one. -/
def State.OpensLiteral (s : State) (e : Expr) : Prop :=
  isLiteralType e = true ∧ (0 ≤ s.level ∨ isTypeName e = false)

theorem State.Behind.opensLiteral (h : t.Behind s) (e : Expr) : t.OpensLiteral e ↔ s.OpensLiteral e := by
  rw [State.OpensLiteral, h.level, State.OpensLiteral]

theorem suffix_brace (g : Grammar) (e : Expr) (hbrace : s.head.token = .symbol .leftBrace) :
    suffix g e s = (some (.inr e), s) ↔ ¬s.OpensLiteral e := by
  have hrun : suffix g e s = (if isLiteralType e && (0 ≤ s.level || !isTypeName e) then
      next >>= fun _ => nested (elements g) >>= fun elems => pure (.inl (.composite e elems))
      else pure (.inr e) : Parser (Expr ⊕ Expr)) s := by
    simp only [suffix, Bind.bind, peek, hbrace, level]
  have hopens : (isLiteralType e && (0 ≤ s.level || !isTypeName e)) = true ↔ s.OpensLiteral e := by
    simp [State.OpensLiteral]
  rw [hrun, ← hopens]
  split
  · next h =>
    refine iff_of_false (fun heq => ?_) (not_not_intro h)
    simp only [Bind.bind, next] at heq
    split at heq
    · cases heq
    · cases heq
  · next h => exact iff_of_true rfl h

/-- A parser between an increment and a decrement of the level. -/
def counted (p : Parser α) : Parser α := fun s =>
  let (a, t) := p { s with level := s.level + 1 }
  (a, { t with level := t.level - 1 })

/-- Taking one away behind a bracket gives the level before it, because nothing in between is left over. -/
theorem nested_eq_counted (hp : Restores n p) (hs : s.Ready n) : nested p s = counted p s := by
  have hlevel := hp { s with level := s.level + 1 } ⟨⟨hs.ok.clean, hs.ok.last⟩, hs.few⟩
  simp only [nested, withLevel, counted, hlevel, Int.add_sub_cancel]

/-- **The level is always restored**, by every rule, on success and on failure, with as many layers as reading the
source takes. So brackets may count it up and down, and however many statements or declarations were read or given up, a
brace in the next one is decided by the level where their list begins. -/
theorem levels_restored (n : ℕ) :
    Restoring (.layers n) n ∧
    (∀ {α : Type} (p : Parser α), Restores n p → ∀ s : State, s.Ready n → nested p s = counted p s) ∧
    (∀ x y, x.2.Ready n → (∀ s ∈ x.1, s.Clean) → ReflTransGen (Round (stmtsStep (.layers n))) x y →
      y.2.level = x.2.level ∧ ∀ e, y.2.OpensLiteral e ↔ x.2.OpensLiteral e) ∧
    (∀ x y, x.2.Ready n → (∀ d ∈ x.1, "" ∉ d.words) → ReflTransGen (Round (declsStep (.layers n))) x y →
      y.2.level = x.2.level ∧ ∀ e, y.2.OpensLiteral e ↔ x.2.OpensLiteral e) ∧
    (∀ (e : Expr) (s : State), s.head.token = .symbol .leftBrace →
      (suffix (.layers n) e s = (some (.inr e), s) ↔ ¬s.OpensLiteral e)) ∧
    ∀ source head rest, tokenize source = .ok (head :: rest) → rest.length < n → (begun head rest).Ready n := by
  have hg := Grammar.ok_layers n
  refine ⟨restoring_of_ok hg, fun _ hp _ => nested_eq_counted hp, fun _ _ hs hx h => ?_, fun _ _ hs hx h => ?_,
    fun e s => suffix_brace _ e, fun source head rest h hn => ?_⟩
  · have hbehind := (behind_of_rounds (rounds_stmts hg) hx hs h).2
    exact ⟨hbehind.level, hbehind.opensLiteral⟩
  · have hbehind := (behind_of_rounds (rounds_decls hg) hx hs h).2
    exact ⟨hbehind.level, hbehind.opensLiteral⟩
  · obtain ⟨_, _, heq, hok⟩ := tokenize_ok h
    cases heq
    exact ⟨hok, hn⟩

/-- A statement that is none, and the end of its block. -/
def brokenStmt : State :=
  ⟨⟨.symbol .rightParen, default⟩, [⟨.symbol .semicolon, default⟩, ⟨.symbol .rightBrace, default⟩, ⟨.eof, default⟩], -1, []⟩

theorem brokenStmt_restored : ((stmtsStep (.layers 4) [] brokenStmt).2.level = -1 ∧
    nested ident brokenStmt = counted ident brokenStmt) := by
  obtain ⟨-, hnested, hstmts, -⟩ := levels_restored 4
  have hready : brokenStmt.Ready 4 := ⟨⟨by simp [brokenStmt, Clean], rfl⟩, by decide⟩
  have hround : Round (stmtsStep (.layers 4)) ([], brokenStmt) ([], (stmtsStep (.layers 4) [] brokenStmt).2) := rfl
  exact ⟨(hstmts _ _ hready (List.forall_mem_nil _) (.single hround)).1,
    hnested ident gives_ident.restores brokenStmt hready⟩

end GameMedia.Shader.Surface.Parser
