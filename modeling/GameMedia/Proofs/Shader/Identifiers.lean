import GameMedia.Proofs.Shader.Lowering
import GameMedia.Proofs.Shader.Tokens
import GameMedia.Shader.Surface.Parser.File

/-!
# Identifiers and verdicts

Variables that the source has no name for are entered into scopes under the empty name. So it matters that no name in a
syntax tree is empty. A word of the text has one character at least, and a parser takes every name from a token.

The proof goes through the rules of the grammar with one judgement, `Gives`: a parser ends with a result that is in
order or with an error, behind where it began, and it says when a token must have been read. A rule is judged where at
most `k` tokens are left, and the rules that it calls where fewer are. So the judgement also shows that reading ends:
no rule calls another before it has read a token, and no loop goes round without reading one.
-/

namespace GameMedia.Shader

open List Nat

/-! ## Words of a tree -/

namespace Surface

variable {es : List Expr} {n : String} {ss : List Stmt}

/-- The names that stand in a declaration or are declared by it, types apart. -/
def Spec.words : Spec → List String
  | .path _ => []
  | .value s => s.names.map Ident.name ++ identsAll s.values
  | .type s => [s.name.name]

mutual

/-- The names that stand in a statement or are declared by it, also in its blocks. -/
def Stmt.words : Stmt → List String
  | .decl g => g.specs.flatMap Spec.words
  | .assign _ lhs _ rhs => identsAll lhs ++ identsAll rhs
  | .step _ e _ | .expr _ e => e.idents
  | .block b => b.words
  | .cond _ init test body other => optWords init ++ test.idents ++ body.words ++ optWords other
  | .loop _ init _ _ body => optWords init ++ body.words
  | .ret _ es => identsAll es
  | .empty _ | .range _ _ | .branch _ _ _ | .labeled _ _ | .spawn _ _ | .defer _ _ | .send _ | .switch _
  | .select _ => []

def optWords : Option Stmt → List String
  | none => []
  | some s => s.words

def Block.words : Block → List String
  | .mk _ ss => stmtsWords ss

def stmtsWords : List Stmt → List String
  | [] => []
  | s :: ss => s.words ++ stmtsWords ss

end

/-- The names of the parameters and results of a function and those in its body. -/
def FuncDecl.words (f : FuncDecl) : List String :=
  (f.params ++ f.results).flatMap (fun p => p.names.map Ident.name) ++ ((f.body.map Block.words).getD [])

def Decl.words : Decl → List String
  | .group g => g.specs.flatMap Spec.words
  | .func f => f.name.name :: f.words

def File.words (f : File) : List String := f.decls.flatMap Decl.words

theorem mem_identsAll : n ∈ identsAll es ↔ ∃ e ∈ es, n ∈ e.idents := by
  induction es with
  | nil => simp [identsAll]
  | cons e es ih => simp [identsAll, ih]

theorem mem_stmtsWords : n ∈ stmtsWords ss ↔ ∃ s ∈ ss, n ∈ s.words := by
  induction ss with
  | nil => simp [stmtsWords]
  | cons s ss ih => simp [stmtsWords, ih]

/-! ## Tokens in order -/

namespace Parser

/-- A name is no empty word. -/
def Clean (t : Token) : Prop := ∀ name, t = .ident name → name ≠ ""

/-- A token is before the end of the text. -/
def isMore : Token → Bool
  | .eof => false
  | _ => true

namespace State

/-- The tokens that are left are in order, and the last of them is the end of the text. -/
structure Ok (s : State) : Prop where
  clean : ∀ t ∈ s.head :: s.rest, Parser.Clean t.token
  last : ((s.head :: s.rest).getLast (List.cons_ne_nil _ _)).token = .eof

/-- A state is reached from another by reading: what is left was left before, no error is forgotten, no more of them are
recorded than there may be, and the level is what it was. -/
structure Behind (t s : State) : Prop where
  tokens : t.head :: t.rest <:+ s.head :: s.rest
  errors : s.errors <+: t.errors
  few : s.errors.length ≤ errorLimit → t.errors.length ≤ errorLimit
  level : t.level = s.level

variable {s t u : State}

theorem Behind.refl (s : State) : s.Behind s := ⟨suffix_refl _, prefix_refl _, id, rfl⟩

theorem Behind.trans (h : u.Behind t) (h' : t.Behind s) : u.Behind s :=
  ⟨h.tokens.trans h'.tokens, h'.errors.trans h.errors, h.few ∘ h'.few, h.level.trans h'.level⟩

theorem Behind.le (h : t.Behind s) : t.rest.length ≤ s.rest.length := le_of_succ_le_succ h.tokens.length_le

theorem Behind.ok (h : t.Behind s) (hs : s.Ok) : t.Ok :=
  ⟨fun x hx => hs.clean x (h.tokens.subset hx), by rw [h.tokens.getLast]; exact hs.last⟩

/-- Where nothing was read, the same token is next. -/
theorem Behind.head (h : t.Behind s) (hle : s.rest.length ≤ t.rest.length) : t.head = s.head :=
  (cons.inj (h.tokens.eq_of_length_le (succ_le_succ hle))).1

theorem Ok.rest_ne_nil (h : s.Ok) (hmore : isMore s.head.token = true) : s.rest ≠ [] := by
  intro hrest
  have hlast := h.last
  simp only [hrest, getLast_singleton] at hlast
  rw [hlast] at hmore
  cases hmore

theorem behind_advance (s : State) : s.advance.Behind s := by
  unfold advance
  split
  · exact .refl s
  · next heq => exact ⟨by rw [heq]; exact suffix_cons _ _, prefix_refl _, id, rfl⟩

theorem Ok.length_advance (h : s.Ok) (hmore : isMore s.head.token = true) :
    s.advance.rest.length + 1 = s.rest.length := by
  unfold advance
  split
  · next heq => exact absurd heq (h.rest_ne_nil hmore)
  · next heq => rw [heq, length_cons]

end State

/-- How a parser ends that starts in a state: it fails with an error, or with a result as `Q` says, and where `l` says
so it has read a token. -/
structure Ends {α : Type} (l : α → Bool) (Q : α → Prop) (s : State) (r : Option α × State) : Prop where
  behind : r.2.Behind s
  fails : r.1 = none → r.2.errors ≠ []
  gives : ∀ a, r.1 = some a → Q a ∧ r.2.rest.length + (l a).toNat ≤ s.rest.length

/-- A parser ends in order. This is asked where at most `k` tokens are left behind the next, and fewer if some were read
before, as `w` says; `b` says that the next is not the end. -/
def GivesIf {α : Type} (k : ℕ) (w b : Bool) (l : α → Bool) (p : Parser α) (Q : α → Prop) : Prop :=
  ∀ s : State, s.Ok → s.rest.length + w.toNat ≤ k → (b = true → isMore s.head.token = true) → Ends l Q s (p s)

/-- A parser ends in order and reads a token if `c` says so. -/
abbrev Gives {α : Type} (k : ℕ) (w b c : Bool) (p : Parser α) (Q : α → Prop) : Prop := GivesIf k w b (fun _ => c) p Q

/-- The rounds of a loop end in order, and one that asks for another has read a token. -/
def Rounds {σ : Type} (k : ℕ) (w : Bool) (step : σ → Parser (σ ⊕ σ)) (I : σ → Prop) : Prop :=
  ∀ a, I a → GivesIf k w false Sum.isLeft (step a) (Sum.elim I I)

section

variable {α β σ : Type} {k : ℕ} {w b c : Bool} {p q : Parser α} {f : α → Parser β} {Q : α → Prop} {a : α} {l : α → Bool}
  {s : State} {step : σ → Parser (σ ⊕ σ)} {I : σ → Prop}

theorem Ends.bind (h : Ends l Q s (p s)) (hf : ∀ a t, Q a → t.Behind s → t.rest.length + (l a).toNat ≤ s.rest.length →
    Ends (fun c => !l a && m c) R t (f a t)) : Ends m R s ((p >>= f) s) := by
  cases hr : p s with
  | mk o t =>
    rw [hr] at h
    simp only [Bind.bind, hr]
    cases o with
    | none => exact ⟨h.behind, fun _ => h.fails rfl, fun c hc => by cases hc⟩
    | some a =>
      change Ends m R s (f a t)
      obtain ⟨hq, hread⟩ := h.gives a rfl
      obtain ⟨hbehind, hfails, hgives⟩ := hf a t hq h.behind hread
      refine ⟨hbehind.trans h.behind, hfails, fun c hc => ⟨(hgives c hc).1, ?_⟩⟩
      have hlater := (hgives c hc).2
      cases hl : l a with
      | true =>
        simp only [hl, Bool.not_true, Bool.false_and, Bool.toNat_false, Bool.toNat_true] at hread hlater
        have := (m c).toNat_le
        omega
      | false =>
        simp only [hl, Bool.not_false, Bool.true_and, Bool.toNat_false] at hread hlater
        omega

/-- What follows a parser that need not read. -/
theorem Gives.bind (hp : Gives k w b false p Q) (hf : ∀ a, Q a → GivesIf k w false m (f a) R) :
    GivesIf k w b m (p >>= f) R := by
  intro s hs hk hb
  refine (hp s hs hk hb).bind fun a t hq ht hread => ?_
  exact hf a hq t (ht.ok hs) ((Nat.add_le_add_right ht.le _).trans hk) (fun h => by cases h)

/-- What follows a parser that has read a token. -/
theorem Gives.then (hp : Gives k w b true p Q) (hf : ∀ a, Q a → Gives k true false false (f a) R) :
    GivesIf k w b m (p >>= f) R := by
  intro s hs hk hb
  refine (hp s hs hk hb).bind fun a t hq ht hread => ?_
  exact hf a hq t (ht.ok hs) (hread.trans (le_of_add_right_le hk)) (fun h => by cases h)

theorem ends_some (ht : t.Behind s) (ha : Q a) (hread : t.rest.length + (l a).toNat ≤ s.rest.length) :
    Ends l Q s (some a, t) := by
  refine ⟨ht, (fun h => by cases h), fun c hc => ?_⟩
  cases hc
  exact ⟨ha, hread⟩

theorem ends_pure (h : Q a) (hl : l a = false) : Ends l Q s ((pure a : Parser α) s) :=
  ends_some (.refl s) h (by rw [hl]; exact Nat.le_refl _)

theorem gives_pure (h : Q a) : Gives k w b false (pure a) Q := fun _ _ _ _ => ends_pure h rfl

theorem gives_stop {a : σ} (h : I a) : GivesIf k w b Sum.isLeft (pure (.inr a)) (Sum.elim I I) :=
  fun _ _ _ _ => ends_pure h rfl

/-- What is made of a result. -/
theorem Gives.made {f : α → β} (hp : Gives k w b c p Q) (hf : ∀ a, Q a → R (f a)) :
    Gives k w b c (p >>= fun a => pure (f a)) R := by
  intro s hs hk hb
  refine (hp s hs hk hb).bind fun a t hq _ _ => ends_pure (hf a hq) ?_
  cases c <;> rfl

theorem Gives.map {f : α → β} (hp : Gives k w b c p Q) (hf : ∀ a, Q a → R (f a)) : Gives k w b c (f <$> p) R :=
  hp.made hf

theorem gives_ite {c : Prop} [Decidable c] (hp : GivesIf k w b l p Q) (hq : GivesIf k w b l q Q) :
    GivesIf k w b l (if c then p else q) Q := by
  by_cases hc : c
  · rwa [if_pos hc]
  · rwa [if_neg hc]

/-- A choice by what a parser that need not read has found. -/
theorem Gives.ite {y : Parser Bool} (hy : Gives k w b false y R) (hp : GivesIf k w false l p Q)
    (hq : GivesIf k w false l q Q) : GivesIf k w b l (y >>= fun c => if c then p else q) Q :=
  hy.bind fun _ _ => gives_ite hp hq

theorem record_behind (s : State) (pos : Pos) (cause : SyntaxError) :
    (s.record pos cause).Behind s ∧ (s.record pos cause).errors ≠ [] := by
  rw [State.record]
  split
  · next hfew =>
    refine ⟨⟨suffix_refl _, prefix_append _ _, fun _ => ?_, rfl⟩, by simp⟩
    rw [length_append]
    exact hfew
  · next hmany =>
    refine ⟨.refl s, fun hnil => hmany ?_⟩
    rw [hnil]
    decide

theorem gives_fail : GivesIf k w b l (fail pos cause : Parser α) Q :=
  fun s _ _ _ => ⟨(record_behind s pos cause).1, fun _ => (record_behind s pos cause).2, fun a ha => by cases ha⟩

theorem gives_unexpected : GivesIf k w b l (unexpected what : Parser α) Q :=
  fun s _ _ _ => ⟨(record_behind s _ _).1, fun _ => (record_behind s _ _).2, fun a ha => by cases ha⟩

theorem Gives.withLevel (hp : Gives k w b c p Q) : Gives k w b c (withLevel change p) Q := by
  intro s hs hk hb
  obtain ⟨⟨htokens, herrors, hfew, -⟩, hfails, hgives⟩ :=
    hp { s with level := change s.level } ⟨hs.clean, hs.last⟩ hk hb
  exact ⟨⟨htokens, herrors, hfew, rfl⟩, hfails, hgives⟩

theorem Gives.nested (hp : Gives k w b c p Q) : Gives k w b c (nested p) Q := hp.withLevel

/-! ### Tokens -/

theorem gives_look {h : State → α} (hf : ∀ a, GivesIf k w b m (f a) R) :
    GivesIf k w b m ((fun s => (some (h s), s) : Parser α) >>= f) R := fun s hs hk hb => hf (h s) s hs hk hb

theorem gives_peek {f : Token → Parser β} (hf : ∀ t, Clean t → GivesIf k w (isMore t) m (f t) R) :
    GivesIf k w b m (peek >>= f) R :=
  fun s hs hk _ => hf s.head.token (hs.clean _ mem_cons_self) s hs hk id

theorem gives_step : Gives k w b false next fun t => Clean t.token :=
  fun s hs _ _ => ends_some s.behind_advance (hs.clean _ mem_cons_self) s.behind_advance.le

theorem gives_next (hb : b = true) : Gives k w b c next fun t => Clean t.token := by
  intro s hs _ hmore
  have hlen := hs.length_advance (hmore hb)
  have := c.toNat_le
  exact ends_some s.behind_advance (hs.clean _ mem_cons_self) (by omega)

/-- Behind a token that is read. -/
theorem gives_read (hq : Gives k true false false q Q) : GivesIf k w true l (next >>= fun _ => q) Q :=
  (gives_next rfl).then fun _ _ => hq

/-- A choice by whether a token is next. -/
theorem gives_seen (hx : isMore x = true) (hp : GivesIf k w true l p Q) (hq : GivesIf k w b l q Q) :
    GivesIf k w b l ((do return (← peek) = x : Parser Bool) >>= fun y => if y then p else q) Q := by
  intro s hs hk hb
  change Ends l Q s ((if decide (s.head.token = x) = true then p else q) s)
  by_cases hx' : s.head.token = x
  · rw [if_pos (decide_eq_true hx')]
    exact hp s hs hk fun _ => hx' ▸ hx
  · rw [if_neg (by simpa using hx')]
    exact hq s hs hk hb

theorem gives_sees (x : Symbol) : Gives k w b false (sees x) fun _ => True := gives_peek fun _ _ => gives_pure trivial

theorem gives_seesKeyword (x : Keyword) : Gives k w b false (seesKeyword x) fun _ => True :=
  gives_peek fun _ _ => gives_pure trivial

theorem gives_seesSemicolon : Gives k w b false seesSemicolon fun _ => True := gives_peek fun _ _ => gives_pure trivial

theorem gives_seesNewline : Gives k w b false seesNewline fun _ => True := gives_peek fun _ _ => gives_pure trivial

theorem gives_closes (x : Symbol) : Gives k w b false (closes x) fun _ => True :=
  gives_peek fun _ _ => gives_pure trivial

theorem gives_seesIdent : Gives k w b false seesIdent fun _ => True := by
  refine gives_peek fun t _ => ?_
  split
  · exact gives_pure trivial
  · exact gives_pure trivial

/-- What follows a symbol that is there has it read. -/
theorem gives_eaten (hp : Gives k true false false p Q) (hq : GivesIf k w false l q Q) :
    GivesIf k w b l (eat x >>= fun y => if y then p else q) Q := by
  have heat : GivesIf k w b id (eat x) fun _ => True :=
    gives_seen rfl (gives_read <| gives_pure trivial) fun _ _ _ _ => ends_pure trivial rfl
  intro s hs hk hb
  refine (heat s hs hk hb).bind fun y t _ ht hread => ?_
  cases y with
  | true => exact hp t (ht.ok hs) (hread.trans (le_of_add_right_le hk)) (fun h => by cases h)
  | false => exact hq t (ht.ok hs) ((Nat.add_le_add_right ht.le _).trans hk) (fun h => by cases h)

theorem gives_eat (x : Symbol) : Gives k w b false (eat x) fun _ => True :=
  gives_seen rfl ((gives_next rfl).made fun _ _ => trivial) (gives_pure trivial)

theorem gives_eatKeyword (x : Keyword) : Gives k w b false (eatKeyword x) fun _ => True :=
  gives_seen rfl ((gives_next rfl).made fun _ _ => trivial) (gives_pure trivial)

theorem gives_expect (x : Symbol) : Gives k w b c (expect x) fun _ => True :=
  gives_seen rfl ((gives_next rfl).made fun _ _ => trivial) gives_unexpected

theorem gives_expectKeyword (x : Keyword) : Gives k w b c (expectKeyword x) fun _ => True :=
  gives_seen rfl ((gives_next rfl).made fun _ _ => trivial) gives_unexpected

theorem gives_ident : Gives k w b c ident fun n => n.name ≠ "" := by
  refine gives_peek fun t ht => ?_
  split
  · exact (gives_next rfl).made fun _ _ => ht _ rfl
  · exact gives_unexpected

theorem gives_semicolon : Gives k w b false semicolon fun _ => True := by
  refine gives_peek fun t _ => ?_
  split
  · exact (gives_next rfl).made fun _ _ => trivial
  · exact (gives_next rfl).made fun _ _ => trivial
  · exact gives_pure trivial
  · exact gives_pure trivial
  · exact gives_pure trivial
  · exact gives_unexpected

/-! ### Skipping -/

theorem skipFrom_suffix (rule : Nat → Token → Skip) (depth : Nat) (head : Placed) (rest : List Placed) :
    (skipFrom rule depth head rest).1 :: (skipFrom rule depth head rest).2 <:+ head :: rest := by
  induction rest generalizing depth head with
  | nil => exact suffix_refl _
  | cons t ts ih =>
    rw [skipFrom]
    split
    · exact suffix_refl _
    · exact suffix_cons _ _
    · exact (ih _ _).trans (suffix_cons _ _)

theorem skip_behind (rule : Nat → Token → Skip) (s : State) : (skip rule s).2.Behind s :=
  ⟨skipFrom_suffix rule 0 s.head s.rest, prefix_refl _, id, rfl⟩

theorem gives_skip (rule : Nat → Token → Skip) : Gives k w b false (skip rule) fun _ => True :=
  fun s _ _ _ => ends_some (skip_behind rule s) trivial (skip_behind rule s).le

theorem closeFrom_suffix (depth : Nat) (head : Placed) (rest : List Placed) :
    (closeFrom depth head rest).2.1 :: (closeFrom depth head rest).2.2 <:+ head :: rest := by
  induction rest generalizing depth head with
  | nil => exact suffix_refl _
  | cons t ts ih =>
    rw [closeFrom]
    split
    · exact suffix_cons _ _
    · exact (ih _ _).trans (suffix_cons _ _)
    · split
      · exact suffix_cons _ _
      · exact (ih _ _).trans (suffix_cons _ _)
    · exact (ih _ _).trans (suffix_cons _ _)

theorem gives_braces : Gives k w b c braces fun _ => True := by
  have hclose : Gives k true false false (fun s : State => (some (closeFrom 1 s.head s.rest).1,
      { s with head := (closeFrom 1 s.head s.rest).2.1, rest := (closeFrom 1 s.head s.rest).2.2 })) fun _ => True := by
    intro s _ _ _
    have hbehind : State.Behind { s with head := _, rest := _ } s :=
      ⟨closeFrom_suffix 1 s.head s.rest, prefix_refl _, id, rfl⟩
    exact ends_some hbehind trivial hbehind.le
  exact (gives_expect _).then fun _ _ => hclose.bind fun _ _ => gives_ite (gives_pure trivial) gives_unexpected

/-! ### Loops -/

/-- Rounds that read a token before another one are as many as there are tokens at most. -/
theorem ends_iterate (h : Rounds k w step I) {n : ℕ} {a : σ} (ha : I a) (hs : s.Ok)
    (hk : s.rest.length + w.toNat ≤ k) (hn : s.rest.length < n) :
    Ends (fun _ => false) I s (iterate step n a s) := by
  induction n generalizing a s with
  | zero => cases hn
  | succ n ih =>
    refine (h a ha s hs hk (fun h => by cases h)).bind fun r t hr ht hread => ?_
    have hle := ht.le
    cases r with
    | inl a' => exact ih hr (ht.ok hs) (by omega) (lt_of_succ_le (hread.trans (le_of_lt_succ hn)))
    | inr c => exact ends_pure hr rfl

/-- What every round keeps holds at the end. -/
theorem gives_loop (hstart : I start) (h : Rounds k w step I) : Gives k w b false (loop step start) I :=
  fun _ hs hk _ => ends_iterate h hstart hs hk (lt_succ_self _)

theorem forall_mem_concat (has : ∀ b ∈ as, Q b) (ha : Q a) : ∀ b ∈ as ++ [a], Q b :=
  forall_mem_append.mpr ⟨has, forall_mem_singleton.mpr ha⟩

/-- Skipping that does not stop at once reads a token. -/
theorem skip_lt (hs : s.Ok) (heof : s.head.token ≠ .eof)
    (hrule : rule 0 s.head.token ≠ .stop) : (skip rule s).2.rest.length < s.rest.length := by
  obtain ⟨head, rest, level, errors⟩ := s
  cases rest with
  | nil => exact absurd hs.last heof
  | cons t ts =>
    change (skipFrom rule 0 head (t :: ts)).2.length < ts.length + 1
    rw [skipFrom]
    split
    · next hstop => exact absurd hstop hrule
    · exact lt_succ_self _
    · exact (skipFrom_suffix rule _ t ts).length_le

theorem skipStmt_lt (hs : s.Ok) (heof : s.head.token ≠ .eof) (hbrace : s.head.token ≠ .symbol .rightBrace) :
    (skipStmt s).2.rest.length < s.rest.length := by
  refine skip_lt hs heof ?_
  simp only [heof, hbrace, decide_false, Bool.and_false, if_false]
  split <;> simp

theorem attempt_bind {f : Option α → Parser β} : (attempt p >>= f) s = f (p s).1 (p s).2 := rfl

/-- A round in which nothing was read skips a token. -/
theorem ends_skipped {t u : State} {a : σ} (hu : u.Behind t) (ht : t.Behind s)
    (hskip : t.head = s.head → u.rest.length < t.rest.length) (ha : I a) :
    Ends Sum.isLeft (Sum.elim I I) s (some (.inl a), u) := by
  refine ends_some (hu.trans ht) ha ?_
  rcases Nat.lt_or_ge t.rest.length s.rest.length with hlt | hge
  · exact hu.le.trans_lt hlt
  · exact (hskip (ht.head hge)).trans_le ht.le

theorem rounds_separated (hp : Gives k true false false p Q) :
    Rounds k w (separatedStep p) fun as => ∀ a ∈ as, Q a :=
  fun _ h => gives_eaten (hp.made fun _ ha => (forall_mem_concat h ha)) (gives_stop h)

theorem gives_separated (hp : ∀ {w b c}, Gives k w b c p Q) : Gives k w b c (separated p) fun as => ∀ a ∈ as, Q a :=
  Gives.then hp fun _ ha => gives_loop (forall_mem_singleton.mpr ha) (rounds_separated hp)

theorem rounds_listed (hp : Gives k w false false p Q) (close : Symbol) :
    Rounds k w (listedStep close p) fun as => ∀ a ∈ as, Q a := by
  intro items h
  refine (gives_closes _).ite (gives_stop h) (hp.bind fun a ha => ?_)
  have hmore := forall_mem_concat h ha
  exact gives_eaten (gives_pure hmore) (gives_stop hmore)

theorem gives_listed (hp : Gives k w false false p Q) (close : Symbol) :
    Gives k w b false (listed close p) fun as => ∀ a ∈ as, Q a :=
  gives_loop (forall_mem_nil _) (rounds_listed hp close)

theorem rounds_ended (hp : Gives k w false true p Q) (close : Symbol) :
    Rounds k w (endedStep close p) fun as => ∀ a ∈ as, Q a := by
  intro items h
  refine (gives_closes _).ite (gives_stop h) (hp.then fun a ha => ?_)
  exact gives_semicolon.made fun _ _ => forall_mem_concat h ha

theorem gives_ended (hp : Gives k w false true p Q) (close : Symbol) :
    Gives k w b false (ended close p) fun as => ∀ a ∈ as, Q a :=
  gives_loop (forall_mem_nil _) (rounds_ended hp close)

end

/-! ## The rules of the grammar -/

end Parser

/-- No name in the expression is empty. -/
def Expr.Clean (e : Expr) : Prop := "" ∉ e.idents

/-- No name in the statement is empty. -/
def Stmt.Clean (s : Stmt) : Prop := "" ∉ s.words

/-- The parsers of a grammar read tokens and give trees without empty names, or fail with an error, where fewer than `k`
tokens are left behind the next. -/
structure Grammar.Ok (g : Grammar) (k : ℕ) : Prop where
  expr : ∀ n {b c}, Parser.Gives k true b c (g.expr n) Expr.Clean
  unary : ∀ {b c}, Parser.Gives k true b c g.unary Expr.Clean
  type : ∀ {b c}, Parser.Gives k true b c g.type Expr.Clean
  stmt : ∀ {b c}, Parser.Gives k true b c g.stmt Stmt.Clean
  cond : ∀ {b c}, Parser.Gives k true b c g.cond Stmt.Clean

theorem clean_identsAll (h : ∀ e ∈ es, e.Clean) : "" ∉ identsAll es := by
  intro hmem
  obtain ⟨e, he, hin⟩ := mem_identsAll.mp hmem
  exact h e he hin

theorem clean_stmtsWords (h : ∀ s ∈ ss, s.Clean) : "" ∉ stmtsWords ss := by
  intro hmem
  obtain ⟨s, hs, hin⟩ := mem_stmtsWords.mp hmem
  exact h s hs hin

theorem clean_ident (pos : Pos) (h : name ≠ "") : Expr.Clean (.ident pos name) := by
  simpa [Expr.Clean, Expr.idents] using h.symm

theorem clean_nameless {e : Expr} (h : e.idents = []) : e.Clean := by
  rw [Expr.Clean, h]
  exact not_mem_nil

/-- A statement in which no name stands. -/
theorem clean_wordless {s : Stmt} (h : s.words = []) : s.Clean := by
  rw [Stmt.Clean, h]
  exact not_mem_nil

theorem clean_value (hnames : ∀ n ∈ names, n.name ≠ "")
    (hvalues : ∀ e ∈ values, e.Clean) (pos : Pos) (ty : Option Expr) :
    "" ∉ Spec.words (.value ⟨pos, names, ty, values⟩) := by
  rw [Spec.words, mem_append]
  refine not_or.mpr ⟨fun hmem => ?_, clean_identsAll hvalues⟩
  obtain ⟨n, hn, hempty⟩ := List.mem_map.mp hmem
  exact hnames n hn hempty

theorem clean_specs {specs : List Spec} (h : ∀ s ∈ specs, "" ∉ s.words) : "" ∉ specs.flatMap Spec.words := by
  intro hmem
  obtain ⟨s, hs, hin⟩ := mem_flatMap.mp hmem
  exact h s hs hin

theorem clean_assign (hl : ∀ e ∈ lhs, e.Clean) (hr : ∀ e ∈ rhs, e.Clean) (pos : Pos)
    (op : AssignOp) : Stmt.Clean (.assign pos lhs op rhs) := by
  rw [Stmt.Clean, Stmt.words, mem_append]
  exact not_or.mpr ⟨clean_identsAll hl, clean_identsAll hr⟩

def Field.Clean (f : Field) : Prop := ∀ n ∈ f.names, n.name ≠ ""

theorem clean_func {fields : List Field × List Field} (hname : name.name ≠ "")
    (hfields : (∀ f ∈ fields.1, f.Clean) ∧ ∀ f ∈ fields.2, f.Clean) (hbody : "" ∉ (body.map Block.words).getD [])
    (pos : Pos) (hasReceiver : Bool) :
    "" ∉ Decl.words (.func ⟨pos, name, hasReceiver, fields.1, fields.2, body⟩) := by
  rw [Decl.words, FuncDecl.words, mem_cons, mem_append, mem_flatMap]
  rintro (hempty | ⟨f, hf, hmem⟩ | hmem)
  · exact hname hempty.symm
  · obtain ⟨n, hn, hempty⟩ := List.mem_map.mp hmem
    rcases mem_append.mp hf with hf | hf
    · exact hfields.1 f hf n hn hempty
    · exact hfields.2 f hf n hn hempty
  · exact hbody hmem

namespace Parser

variable {ps : List Param} {fields : List Field} {es : List Expr} {p : Parser Stmt} {s : Stmt} {k : ℕ} {w b c : Bool}

/-- The end of the text is none of the tokens that something is chosen by. -/
theorem isMore_of_some {α : Type} {choose : Token → Option α} {t : Token} {a : α} (h : choose t = some a)
    (heof : choose .eof = none) : isMore t = true := by
  cases t with
  | eof =>
    rw [heof] at h
    cases h
  | _ => rfl

/-! ### Rules that call no other -/

def Param.Clean : Param → Prop
  | .name id | .named id _ => id.name ≠ ""
  | .type _ => True

theorem Param.clean_group (hpending : ∀ n ∈ pending, n.name ≠ "") (hps : ∀ p ∈ ps, p.Clean)
    (h : group pending ps = .ok fields) : ∀ f ∈ fields, f.Clean := by
  fun_induction Param.group pending ps generalizing fields with
  | case1 =>
    cases h
    exact forall_mem_nil _
  | case2 => cases h
  | case3 pending id ps ih =>
    rw [forall_mem_cons] at hps
    exact ih (forall_mem_concat hpending hps.1) hps.2 h
  | case4 pending id ty ps ih =>
    rw [forall_mem_cons] at hps
    cases hrest : group [] ps with
    | error pos =>
      rw [hrest] at h
      cases h
    | ok more =>
      rw [hrest] at h
      cases h
      exact forall_mem_cons.mpr ⟨forall_mem_concat hpending hps.1, ih (forall_mem_nil _) hps.2 hrest⟩
  | case5 => cases h

theorem Param.clean_fields (hps : ∀ p ∈ ps, p.Clean) (h : Param.fields ps = .ok fields) : ∀ f ∈ fields, f.Clean := by
  rw [Param.fields] at h
  split at h
  · exact Param.clean_group (forall_mem_nil _) hps h
  · cases h
    intro f hf
    obtain ⟨p, -, rfl⟩ := List.mem_map.mp hf
    exact forall_mem_nil _

theorem gives_namedType (h : name ≠ "") :
    Gives k w true c (namedType pos name) Expr.Clean :=
  gives_read <| (gives_eat _).bind fun _ _ =>
    gives_ite (gives_ident.made fun _ _ => (clean_ident pos h)) (gives_pure (clean_ident pos h))

theorem gives_sliceSuffix (base : Expr) : Gives k w b false (sliceSuffix base) Expr.Clean :=
  (gives_skip _).bind fun _ _ => (gives_expect _).made fun _ _ => clean_nameless rfl

theorem gives_sameLine (cause : SyntaxError) : Gives k w b false (sameLine cause) fun _ => True :=
  gives_seesNewline.ite (gives_look fun _ => gives_fail) (gives_pure trivial)

theorem gives_pathSpec : Gives k w b c pathSpec fun s => "" ∉ s.words := by
  refine gives_look fun pos => gives_peek fun t _ => ?_
  extract_lets path
  have hpath : ∀ {w b c}, Gives k w b c (path ()) fun s => "" ∉ s.words := by
    refine gives_peek fun t _ => ?_
    split
    · exact gives_read <| gives_pure not_mem_nil
    · exact gives_unexpected
  split
  · exact gives_read <| hpath
  · exact gives_read <| hpath
  · exact hpath

theorem gives_single (h : ∀ e ∈ es, e.Clean) : Gives k w b false (single es) Expr.Clean := by
  unfold single
  split
  · next e => exact gives_pure (h e mem_cons_self)
  · exact gives_look fun _ => gives_fail

theorem gives_stepOrExpr (h : ∀ e ∈ es, e.Clean) (pos : Pos) : Gives k w b false (stepOrExpr pos es) Stmt.Clean := by
  refine gives_peek fun t _ => ?_
  split
  · exact gives_read <| (gives_single h).made fun _ he => he
  · exact gives_read <| (gives_single h).made fun _ he => he
  · exact (gives_single h).made fun _ he => he

/-- A statement that may be missing has no empty names. -/
theorem gives_headerInit (hp : Gives k true false false p Stmt.Clean) :
    Gives k true b false (headerInit p) fun o => "" ∉ optWords o :=
  (gives_sees _).ite (gives_pure not_mem_nil) (hp.made fun _ hs => hs)

theorem gives_condition (x : Keyword) (hs : s.Clean) : Gives k w b false (condition x s) Expr.Clean := by
  unfold condition
  split
  · exact gives_pure hs
  · exact gives_fail

theorem gives_terminated (hp : Gives k w b true p Stmt.Clean) : Gives k w b c (terminated p) Stmt.Clean :=
  hp.then fun _ hs => gives_semicolon.made fun _ _ => hs

theorem gives_skipped (hs : s.Clean) : Gives k w true c (skipped s) Stmt.Clean :=
  gives_read <| (gives_skip _).bind fun _ _ => gives_braces.made fun _ _ => hs

theorem gives_branch (pos : Pos) (kind : BranchKind) : Gives k w true c (branch pos kind) Stmt.Clean := by
  refine gives_read <| gives_seesIdent.ite ?_ (gives_pure (clean_wordless rfl))
  exact gives_ident.made fun _ _ => clean_wordless rfl

section

variable {g : Grammar} (hg : g.Ok k)

include hg

/-! ### Types -/

theorem gives_param : Gives k true b c (param g) Param.Clean := by
  refine gives_peek fun t _ => ?_
  split
  · exact gives_look fun _ => gives_fail
  · refine gives_ident.then fun id hid => gives_peek fun t _ => ?_
    split
    · exact gives_pure hid
    · exact gives_pure hid
    · exact gives_read <| gives_ident.made fun _ _ => trivial
    · exact gives_look fun _ => gives_fail
    · exact hg.type.made fun _ _ => hid
  · exact hg.type.made fun _ _ => trivial

theorem gives_parameters : Gives k w b c (parameters g) fun fs => ∀ f ∈ fs, f.Clean := by
  refine (gives_expect _).then fun _ _ => (gives_listed (gives_param hg) _).bind fun ps hps => ?_
  refine (gives_expect _).then fun _ _ => ?_
  split
  · next fields heq => exact gives_pure (Param.clean_fields hps heq)
  · exact gives_fail

theorem gives_signature :
    Gives k true b false (signature g) fun fs => (∀ f ∈ fs.1, f.Clean) ∧ ∀ f ∈ fs.2, f.Clean := by
  refine (gives_parameters hg).then fun params hparams => (gives_sees _).ite ?_ ?_
  · exact (gives_parameters hg).made fun results hresults => ⟨hparams, hresults⟩
  · refine gives_peek fun _ _ => gives_ite ?_ (gives_pure ⟨hparams, forall_mem_nil _⟩)
    refine hg.type.made fun ty _ => ⟨hparams, ?_⟩
    exact forall_mem_singleton.mpr (forall_mem_nil _)

theorem gives_arrayType : Gives k w b c (arrayType g) Expr.Clean := by
  refine (gives_expect _).then fun pos _ => (gives_eat _).ite ?_ ?_
  · exact hg.type.made fun _ _ => clean_nameless rfl
  · have hrest : ∀ length, Gives k true false false
        (do let _ ← expect .rightBracket; return .arrayType pos length (← g.type)) Expr.Clean :=
      fun _ => (gives_expect _).then fun _ _ => hg.type.made fun _ _ => clean_nameless rfl
    refine (gives_eat _).ite ?_ ?_
    · exact hrest none
    · exact ((hg.expr 1).nested.map (R := fun _ => True) fun _ _ => trivial).bind fun length _ => hrest length

theorem gives_field : Gives k w b c (field g) Field.Clean :=
  (gives_separated gives_ident).then fun _ hnames => hg.type.made fun _ _ => hnames

theorem gives_structType : Gives k w b c (structType g) Expr.Clean :=
  (gives_expectKeyword _).then fun _ _ => (gives_expect _).then fun _ _ =>
    (gives_ended (gives_field hg) _).bind fun _ _ => (gives_expect _).made fun _ _ => clean_nameless rfl

theorem gives_mapType (pos : Pos) : Gives k w true c (mapType g pos) Expr.Clean :=
  gives_read <| (gives_expect _).then fun _ _ => hg.type.then fun _ _ =>
    (gives_expect _).then fun _ _ => hg.type.made fun _ _ => clean_nameless rfl

theorem gives_chanType (pos : Pos) : Gives k w true c (chanType g pos) Expr.Clean :=
  gives_read <| (gives_eatKeyword _).bind fun _ _ => (gives_eat _).bind fun _ _ =>
    hg.type.made fun _ _ => clean_nameless rfl

theorem gives_type : Gives k w b c (type g) Expr.Clean := by
  refine gives_look fun pos => gives_peek fun t ht => ?_
  split
  · exact gives_namedType (ht _ rfl)
  · exact gives_arrayType hg
  · exact gives_structType hg
  · exact gives_read <| hg.type.made fun _ he => he
  · exact gives_read <| (gives_signature hg).made fun _ _ => clean_nameless rfl
  · exact gives_mapType hg pos
  · exact gives_chanType hg pos
  · exact gives_chanType hg pos
  · exact gives_read <| gives_braces.made fun _ _ => clean_nameless rfl
  · exact gives_read <| hg.type.then fun _ he => (gives_expect _).made fun _ _ => he
  · exact gives_unexpected

/-! ### Statement lists -/

theorem rounds_stmts : Rounds k true (stmtsStep g) fun ss => ∀ s ∈ ss, s.Clean := by
  intro items hitems s hs hk hb
  have hrun := hg.stmt (c := true) s hs hk hb
  change Ends _ _ s ((if ((decide (s.head.token = .symbol .rightBrace) || decide (s.head.token = .eof)) ||
    s.isFull) = true then pure (.inr items) else attempt g.stmt >>= _ : Parser (List Stmt ⊕ List Stmt)) s)
  split
  · exact ends_pure hitems rfl
  · next hmore =>
    simp only [Bool.or_eq_true, decide_eq_true_eq, not_or] at hmore
    rw [attempt_bind]
    cases hr : g.stmt s with
    | mk o t =>
      rw [hr] at hrun
      cases o with
      | some st =>
        obtain ⟨hst, hread⟩ := hrun.gives st rfl
        refine ends_some hrun.behind ?_ hread
        split
        · exact hitems
        · exact forall_mem_concat hitems hst
      | none =>
        refine ends_skipped (skip_behind _ t) hrun.behind (fun hhead => ?_) hitems
        rw [← hhead] at hmore
        exact skipStmt_lt (hrun.behind.ok hs) hmore.1.2 hmore.1.1

theorem gives_stmts : Gives k true b false (stmts g) fun ss => ∀ s ∈ ss, s.Clean :=
  gives_loop (forall_mem_nil _) (rounds_stmts hg)

theorem gives_block : Gives k w b c (block g) fun b => "" ∉ b.words :=
  (gives_expect _).then fun _ _ => (gives_stmts hg).bind fun _ hss =>
    (gives_expect _).made fun _ _ => clean_stmtsWords hss

theorem gives_funcBody : Gives k w b c (funcBody g) fun b => "" ∉ b.words := (gives_block hg).withLevel

/-! ### Expressions -/

theorem gives_funcOperand (pos : Pos) : Gives k w true c (funcOperand g pos) Expr.Clean := by
  refine gives_read <| (gives_signature hg).bind fun _ _ => ?_
  refine (gives_sees _).ite ?_ ?_
  · exact (gives_funcBody hg).made fun _ _ => clean_nameless rfl
  · exact gives_pure (clean_nameless rfl)

theorem gives_operand : Gives k w b c (operand g) Expr.Clean := by
  refine gives_look fun pos => gives_peek fun t ht => ?_
  split
  · next heq => exact (gives_next (isMore_of_some heq rfl)).made fun _ _ => clean_nameless rfl
  · split
    · exact gives_read <| gives_pure (clean_ident pos (ht _ rfl))
    · exact gives_read <| (hg.expr 1).nested.then fun _ he =>
        (gives_expect _).made fun _ _ => he
    · exact gives_funcOperand hg pos
    · exact gives_type hg
    · exact gives_type hg
    · exact gives_type hg
    · exact gives_type hg
    · exact gives_type hg
    · exact gives_unexpected

theorem gives_selectorSuffix (hbase : base.Clean) : Gives k true b false (selectorSuffix g base) Expr.Clean := by
  refine gives_peek fun t _ => ?_
  split
  · exact gives_ident.made fun _ _ => hbase
  · refine gives_read <| (gives_eatKeyword _).bind fun _ _ => ?_
    have hend : Gives k true false false (do let _ ← expect .rightParen; return .typeAssert base) Expr.Clean :=
      (gives_expect _).made fun _ _ => clean_nameless rfl
    exact gives_ite (hg.type.then fun _ _ => hend) hend
  · exact gives_unexpected

theorem gives_indexSuffix (hbase : base.Clean) : Gives k true b false (indexSuffix g base) Expr.Clean := by
  refine (gives_sees _).ite (gives_sliceSuffix base) ((hg.expr 1).then fun i hi => ?_)
  refine (gives_sees _).ite (gives_sliceSuffix base) ?_
  refine (gives_expect _).made fun _ _ => ?_
  rw [Expr.Clean, Expr.idents, mem_append]
  exact not_or.mpr ⟨hbase, hi⟩

theorem gives_argument : Gives k true b c (argument g) fun a => a.1.Clean :=
  (gives_sameLine _).bind fun _ _ => (hg.expr 1).then fun _ he => (gives_eat _).made fun _ _ => he

theorem gives_arguments : Gives k true b false (arguments g) fun as => ∀ a ∈ as.1, a.Clean := by
  refine (gives_listed (gives_argument hg) _).bind fun args hargs => (gives_sameLine _).bind fun _ _ => ?_
  refine (gives_expect _).made fun _ _ => fun a ha => ?_
  obtain ⟨x, hx, rfl⟩ := List.mem_map.mp ha
  exact hargs x hx

theorem gives_element : Gives k true b c (element g) Expr.Clean := by
  refine (gives_sameLine _).bind fun _ _ => (gives_sees _).ite ?_ ?_
  · exact gives_look fun _ => gives_fail
  · refine (hg.expr 1).then fun _ he => (gives_eat _).ite ?_ (gives_pure he)
    exact (hg.expr 1).made fun _ _ => clean_nameless rfl

theorem gives_elements : Gives k true b false (elements g) fun es => ∀ e ∈ es, e.Clean :=
  (gives_listed (gives_element hg) _).bind fun _ hes => (gives_sameLine _).bind fun _ _ =>
    (gives_expect _).made fun _ _ => hes

theorem rounds_suffix : Rounds k true (suffix g) Expr.Clean := by
  refine fun e he => gives_peek fun t _ => ?_
  split
  · exact gives_read <| (gives_selectorSuffix hg he).made fun _ h => h
  · exact gives_read <| (gives_indexSuffix hg he).nested.made fun _ h => h
  · refine gives_read <| (gives_arguments hg).nested.made fun args hargs => ?_
    change Expr.Clean (.call e args.1 args.2)
    rw [Expr.Clean, Expr.idents, mem_append]
    exact not_or.mpr ⟨he, clean_identsAll hargs⟩
  · refine gives_look fun _ => gives_ite ?_ (gives_stop he)
    refine gives_read <| (gives_elements hg).nested.made fun elems helems => ?_
    exact clean_identsAll helems
  · exact gives_stop he

theorem gives_primary : Gives k w b c (primary g) Expr.Clean :=
  (gives_operand hg).then fun _ he => gives_loop he (rounds_suffix hg)

theorem gives_unary : Gives k w b c (unary g) Expr.Clean := by
  refine gives_look fun _ => gives_peek fun _ _ => ?_
  split
  · next heq => exact (gives_next (isMore_of_some heq rfl)).then fun _ _ => hg.unary.made fun _ he => he
  · exact gives_primary hg

theorem rounds_binarySuffix (least : Nat) : Rounds k true (binarySuffix g least) Expr.Clean := by
  refine fun lhs hl => gives_peek fun _ _ => ?_
  split
  · exact gives_stop hl
  · next heq =>
    refine gives_ite (gives_stop hl) ((gives_next (isMore_of_some heq rfl)).then fun _ _ => ?_)
    refine (hg.expr _).made fun r hr => ?_
    change "" ∉ lhs.idents ++ r.idents
    rw [mem_append]
    exact not_or.mpr ⟨hl, hr⟩

theorem gives_binary (least : Nat) : Gives k w b c (binary g least) Expr.Clean :=
  (gives_unary hg).then fun _ he => gives_loop he (rounds_binarySuffix hg least)

theorem gives_expr : Gives k w b c (expr g) Expr.Clean := gives_binary hg 1

theorem gives_exprs : Gives k w b c (exprs g) fun es => ∀ e ∈ es, e.Clean := gives_separated (gives_expr hg)

/-! ### Declarations -/

theorem gives_typeSpec : Gives k w b c (typeSpec g) fun s => "" ∉ s.words := by
  refine gives_look fun _ => gives_ident.then fun name hname => (gives_eat _).bind fun _ _ => ?_
  refine (gives_type hg).made fun _ _ => ?_
  simpa [Spec.words] using hname.symm

theorem gives_valueSpec (isConst : Bool) : Gives k w b c (valueSpec g isConst) fun s => "" ∉ s.words := by
  refine gives_look fun pos => (gives_separated gives_ident).then fun names hnames => ?_
  refine (gives_sees _).bind fun _ _ => gives_seesSemicolon.bind fun _ _ => (gives_sees _).bind fun _ _ => ?_
  extract_lets rest
  have hrest : ∀ ty, Gives k true false false (rest ty) fun s => "" ∉ s.words := by
    refine fun ty => (gives_eat _).bind fun _ _ => ?_
    extract_lets build
    have hbuild : ∀ values, (∀ e ∈ values, e.Clean) → Gives k true false false (build values) fun s => "" ∉ s.words :=
      fun values hvalues => gives_ite gives_fail (gives_pure (clean_value hnames hvalues pos ty))
    exact gives_ite ((gives_exprs hg).then hbuild) (hbuild [] (forall_mem_nil _))
  refine gives_ite ?_ ?_
  · exact hrest none
  · exact ((gives_type hg).map (R := fun _ => True) fun _ _ => trivial).bind fun ty _ => hrest ty

theorem gives_spec (kind : GroupKind) : Gives k w b c (spec g kind) fun s => "" ∉ s.words := by
  cases kind with
  | imports => exact gives_pathSpec
  | type => exact gives_typeSpec hg
  | const => exact gives_valueSpec hg true
  | var => exact gives_valueSpec hg false

theorem gives_group (kind : GroupKind) : Gives k w true c (group g kind) fun d => "" ∉ d.specs.flatMap Spec.words := by
  refine (gives_next rfl).then fun _ _ => (gives_eat _).ite ?_ ?_
  · refine (gives_ended (gives_spec hg kind) _).bind fun specs hspecs => ?_
    exact (gives_expect _).made fun _ _ => clean_specs hspecs
  · exact (gives_spec hg kind).made fun s hs => clean_specs (forall_mem_singleton.mpr hs)

/-! ### Simple statements -/

theorem gives_marked : Gives k true b false (marked g) Stmt.Clean :=
  (gives_sees _).bind fun _ _ =>
    gives_ite (gives_look fun _ => gives_pure (clean_wordless rfl)) hg.stmt

theorem gives_simpleRest (h : ∀ e ∈ es, e.Clean) (labels : Bool) (pos : Pos) :
    Gives k true b false (simpleRest g labels pos es) Stmt.Clean := by
  refine gives_peek fun t _ => ?_
  split
  · refine gives_ite ?_ (gives_stepOrExpr h pos)
    exact gives_read <| (gives_marked hg).made fun _ _ => clean_wordless rfl
  · exact gives_read <| (gives_expr hg).made fun _ _ => clean_wordless rfl
  · exact gives_stepOrExpr h pos

theorem gives_assignment (hl : ∀ e ∈ lhs, e.Clean) (pos : Pos) (op : AssignOp) :
    Gives k true b false (assignment g pos lhs op) Stmt.Clean := by
  refine (gives_seesKeyword _).bind fun _ _ => gives_ite ?_ ?_
  · refine gives_step.bind fun _ _ => (gives_expr hg).then fun _ _ => (gives_block hg).then fun _ _ => ?_
    exact gives_pure (clean_wordless rfl)
  · exact (gives_exprs hg).made fun _ hr => clean_assign hl hr pos op

theorem gives_simpleStmt (labels : Bool) : Gives k w b c (simpleStmt g labels) Stmt.Clean := by
  refine gives_look fun pos => (gives_exprs hg).then fun lhs hl => gives_peek fun _ _ => ?_
  split
  · next heq => exact (gives_next (isMore_of_some heq rfl)).then fun _ _ => gives_assignment hg hl pos _
  · exact gives_simpleRest hg hl labels pos

/-! ### Conditionals and loops -/

theorem gives_condHeader : Gives k true b false (condHeader g) fun r => "" ∉ optWords r.1 ∧ r.2.Clean := by
  refine (gives_sees _).ite (gives_look fun _ => gives_fail) ?_
  refine (gives_headerInit (gives_simpleStmt hg false)).bind fun first hfirst => (gives_eat _).bind fun _ _ => ?_
  refine gives_ite ((gives_sees _).ite (gives_look fun _ => gives_fail) ?_) ?_
  · exact (gives_expr hg).made fun _ he => ⟨hfirst, he⟩
  · cases first with
    | none => exact gives_unexpected
    | some s => exact (gives_condition _ hfirst).made fun _ he => ⟨not_mem_nil, he⟩

theorem gives_otherBranch : Gives k true b false (otherBranch g) Stmt.Clean := by
  refine gives_peek fun t _ => ?_
  split
  · exact hg.cond
  · exact (gives_block hg).made fun _ hb => hb
  · exact gives_unexpected

theorem gives_cond : Gives k w b c (cond g) Stmt.Clean := by
  refine (gives_expectKeyword _).then fun pos _ => (gives_condHeader hg).withLevel.bind fun head hhead => ?_
  refine (gives_block hg).then fun body hbody => (gives_eatKeyword _).bind fun _ _ => ?_
  extract_lets build
  have hbuild : ∀ other, "" ∉ optWords other → Gives k true false false (build other) Stmt.Clean := by
    intro other hother
    refine gives_pure ?_
    rw [Stmt.Clean, Stmt.words, mem_append, mem_append, mem_append]
    exact not_or.mpr ⟨not_or.mpr ⟨not_or.mpr hhead, hbody⟩, hother⟩
  have hsome : Gives k true false false (some <$> otherBranch g) fun o => "" ∉ optWords o :=
    (gives_otherBranch hg).map fun _ hs => hs
  exact gives_ite (hsome.bind hbuild) (hbuild none not_mem_nil)

/-- The first clause of a loop has no empty names. -/
def LoopHeader.Clean : LoopHeader → Prop
  | .range => True
  | .clauses init _ _ => "" ∉ optWords init

theorem gives_firstClause : Gives k true b false (firstClause g) fun o => "" ∉ optWords o := by
  refine gives_look fun pos => (gives_exprs hg).then fun lhs hl => gives_peek fun _ _ => ?_
  split
  · next op heq =>
    refine (gives_next (isMore_of_some heq rfl)).then fun _ _ => (gives_eatKeyword _).ite ?_ ?_
    · exact (gives_expr hg).made fun _ _ => not_mem_nil
    · exact (gives_exprs hg).made fun _ hr => clean_assign hl hr pos op
  · exact (gives_stepOrExpr hl pos).made fun _ hs => hs

theorem gives_laterClauses (hinit : "" ∉ optWords init) :
    Gives k true b false (laterClauses g init) LoopHeader.Clean := by
  refine (gives_sees _).bind fun _ _ => ?_
  extract_lets rest
  have hrest : ∀ test, Gives k true false false (rest test) LoopHeader.Clean := by
    refine fun test => (gives_expect _).then fun _ _ => (gives_sees _).bind fun _ _ => ?_
    extract_lets build
    have hbuild : ∀ post, Gives k true false false (build post) LoopHeader.Clean := fun _ => gives_pure hinit
    refine gives_ite ?_ ?_
    · exact hbuild none
    · exact ((gives_simpleStmt hg false).map (R := fun _ => True) fun _ _ => trivial).bind fun post _ => hbuild post
  refine gives_ite ?_ ?_
  · exact hrest none
  · exact ((gives_expr hg).map (R := fun _ => True) fun _ _ => trivial).bind fun test _ => hrest test

theorem gives_loopHeader : Gives k true b false (loopHeader g) LoopHeader.Clean := by
  refine (gives_sees _).ite (gives_pure not_mem_nil) ?_
  refine (gives_eatKeyword _).ite ((gives_expr hg).made fun _ _ => trivial) ?_
  refine (gives_eat _).ite (gives_laterClauses hg not_mem_nil) ?_
  refine (gives_firstClause hg).bind fun first hfirst => ?_
  cases first with
  | none => exact gives_pure trivial
  | some s =>
    refine (gives_eat _).ite (gives_laterClauses hg hfirst) ?_
    exact (gives_condition _ hfirst).made fun _ _ => not_mem_nil

theorem gives_loopStmt : Gives k w b c (loopStmt g) Stmt.Clean := by
  refine (gives_expectKeyword _).then fun pos _ => (gives_loopHeader hg).withLevel.bind fun head hhead => ?_
  refine (gives_block hg).then fun body hbody => ?_
  cases head with
  | range => exact gives_pure (clean_wordless rfl)
  | clauses init test post =>
    refine gives_pure ?_
    rw [Stmt.Clean, Stmt.words, mem_append]
    exact not_or.mpr ⟨hhead, hbody⟩

/-! ### Statements -/

theorem gives_returned (pos : Pos) : Gives k w true c (returned g pos) Stmt.Clean := by
  refine gives_read <| gives_seesSemicolon.bind fun _ _ => ?_
  refine (gives_sees _).bind fun _ _ => gives_ite ?_ ?_
  · exact gives_pure (clean_wordless rfl)
  · exact (gives_exprs hg).made fun _ hes => clean_identsAll hes

theorem gives_keywordStmt (h : keywordStmt? g pos x = some p) :
    Gives k w true c p Stmt.Clean := by
  unfold keywordStmt? at h
  split at h
  all_goals cases h
  · exact (gives_group hg .var).map fun _ hd => hd
  · exact (gives_group hg .const).map fun _ hd => hd
  · exact (gives_group hg .type).map fun _ hd => hd
  · exact gives_cond hg
  · exact gives_loopStmt hg
  · exact gives_skipped (clean_wordless rfl)
  · exact gives_skipped (clean_wordless rfl)
  · exact gives_returned hg pos
  · exact gives_branch pos _
  · exact gives_branch pos _
  · exact gives_branch pos _
  · exact gives_branch pos _
  · exact gives_read <| (gives_expr hg).made fun _ _ => clean_wordless rfl
  · exact gives_read <| (gives_expr hg).made fun _ _ => clean_wordless rfl

theorem gives_plainStmt : Gives k w b c (plainStmt g) Stmt.Clean := by
  refine (gives_simpleStmt hg true).then fun s hs => ?_
  split
  · exact gives_pure hs
  · exact gives_semicolon.made fun _ _ => hs

theorem gives_stmt : Gives k w b c (stmt g) Stmt.Clean := by
  refine gives_look fun pos => gives_peek fun t _ => ?_
  split
  · exact gives_fail
  · split
    · next p heq => exact gives_terminated (gives_keywordStmt hg heq)
    · exact gives_plainStmt hg
  · exact gives_terminated ((gives_block hg).map (R := Stmt.Clean) fun _ hb => hb)
  · exact gives_read <| gives_pure (clean_wordless rfl)
  · exact gives_read <| gives_pure (clean_wordless rfl)
  · exact gives_plainStmt hg

end

end Parser

/-! ## Files -/

/-- **A rule calls others with fewer tokens** than it begins with: if these are in order there, so is the rule. -/
theorem Grammar.Ok.deepen {g : Grammar} (hg : g.Ok k) : g.deepen.Ok (k + 1) := by
  have hsucc : ∀ {α : Type} {p : Parser α} {Q : α → Prop} {b c : Bool},
      Parser.Gives k false b c p Q → Parser.Gives (k + 1) true b c p Q :=
    fun h s hs hk hb => h s hs (le_of_succ_le_succ hk) hb
  exact ⟨fun n => hsucc (Parser.gives_binary hg n), hsucc (Parser.gives_unary hg), hsucc (Parser.gives_type hg),
    hsucc (Parser.gives_stmt hg), hsucc (Parser.gives_cond hg)⟩

theorem Grammar.ok_layers (n : ℕ) : (Grammar.layers n).Ok n := by
  induction n with
  | zero =>
    have hnone : ∀ {α : Type} {p : Parser α} {Q : α → Prop} {b c : Bool}, Parser.Gives 0 true b c p Q :=
      fun s _ hk _ => absurd hk (not_succ_le_zero _)
    exact ⟨fun _ => hnone, hnone, hnone, hnone, hnone⟩
  | succ n ih => exact ih.deepen

namespace Parser

variable {g : Grammar} {k : ℕ} {w b c : Bool}

theorem gives_funcDecl (hg : g.Ok k) : Gives k w b c (funcDecl g) fun f => "" ∉ Decl.words (.func f) := by
  refine (gives_expectKeyword _).then fun pos _ => (gives_sees _).bind fun hasReceiver _ => ?_
  extract_lets rest
  have hrest : Gives k true false false (rest ()) fun f => "" ∉ Decl.words (.func f) := by
    refine gives_ident.then fun name hname => (gives_sees _).bind fun _ _ => ?_
    refine gives_ite (gives_look fun _ => gives_fail) ((gives_signature hg).bind fun fields hfields => ?_)
    refine (gives_sees _).bind fun _ _ => ?_
    extract_lets build
    have hbuild : ∀ body : Option Block, "" ∉ (body.map Block.words).getD [] →
        Gives k true false false (build body) fun f => "" ∉ Decl.words (.func f) :=
      fun body hbody => gives_semicolon.made fun _ _ => clean_func hname hfields hbody pos hasReceiver
    have hsome : Gives k true false false (some <$> funcBody g) fun body => "" ∉ (body.map Block.words).getD [] :=
      (gives_funcBody hg).map fun _ hb => hb
    exact gives_ite (hsome.bind hbuild) (hbuild none not_mem_nil)
  exact gives_ite ((gives_parameters hg).then fun _ _ => hrest) hrest

theorem gives_decl (hg : g.Ok k) : Gives k w b c (decl g) fun d => "" ∉ d.words := by
  refine gives_peek fun t _ => ?_
  split
  · next kind heq =>
    rw [isMore_of_some heq rfl]
    exact (gives_group hg kind).then fun _ hd => gives_semicolon.made fun _ _ => hd
  · refine gives_ite ((gives_funcDecl hg).made fun _ hf => hf) ?_
    exact gives_look fun _ => gives_fail

theorem rounds_decls (hg : g.Ok k) : Rounds k true (declsStep g) fun ds => ∀ d ∈ ds, "" ∉ d.words := by
  intro items hitems s hs hk hb
  have hrun := gives_decl (c := true) hg s hs hk hb
  change Ends _ _ s ((if (decide (s.head.token = .eof) || s.isFull) = true then pure (.inr items)
    else seesSemicolon >>= _ : Parser (List Decl ⊕ List Decl)) s)
  split
  · exact ends_pure hitems rfl
  · next hmore =>
    have hhead : isMore s.head.token = true := by
      cases ht : s.head.token <;> first | rfl | simp [ht] at hmore
    change Ends _ _ s ((if s.head.token.isSemicolon = true then next >>= _ else attempt (decl g) >>= _ :
      Parser (List Decl ⊕ List Decl)) s)
    split
    · exact ends_some s.behind_advance hitems (hs.length_advance hhead).le
    · rw [attempt_bind]
      cases hr : decl g s with
      | mk o t =>
        rw [hr] at hrun
        cases o with
        | some d =>
          obtain ⟨hd, hread⟩ := hrun.gives d rfl
          exact ends_some hrun.behind (forall_mem_concat hitems hd) hread
        | none =>
          refine ends_skipped ((skip_behind _ t.advance).trans t.behind_advance) hrun.behind (fun heq => ?_) hitems
          have hlen := (hrun.behind.ok hs).length_advance (heq ▸ hhead)
          exact (skip_behind _ t.advance).le.trans_lt (lt_of_succ_le hlen.le)

theorem gives_decls (hg : g.Ok k) : Gives k true b false (decls g) fun ds => ∀ d ∈ ds, "" ∉ d.words :=
  gives_loop (forall_mem_nil _) (rounds_decls hg)

theorem gives_file (hg : g.Ok k) : Gives k true b false (file g) fun f => "" ∉ f.words := by
  refine (gives_skip _).bind fun _ _ => (gives_expectKeyword _).then fun _ _ => gives_ident.then fun _ _ => ?_
  refine gives_semicolon.bind fun _ _ => (gives_decls hg).made fun ds hds => fun hmem => ?_
  obtain ⟨d, hd, hin⟩ := mem_flatMap.mp hmem
  exact hds d hd hin

def begun (head : Placed) (rest : List Placed) : State := ⟨head, rest, 0, []⟩

/-- How a file ends whose tokens are in order. -/
theorem ends_begun {head : Placed} (h : (begun head rest).Ok) :
    Ends (fun _ => false) (fun f : File => "" ∉ f.words) (begun head rest)
      (file (.layers (rest.length + 1)) (begun head rest)) :=
  gives_file (b := false) (Grammar.ok_layers _) _ h (Nat.le_refl _) (fun h => by cases h)

end Parser

/-- What tokens that are in order are read as: a file without empty names, if no error was recorded, or the errors. -/
theorem File.verdict_ofTokens {head : Placed} (h : (Parser.begun head rest).Ok) :
    (∃ file s, File.ofTokens (head :: rest) = .ok file ∧ "" ∉ file.words ∧ s.errors = [] ∧
      Parser.file (.layers (rest.length + 1)) (Parser.begun head rest) = (some file, s)) ∨
    ∃ es, File.ofTokens (head :: rest) = .error es ∧ es ≠ [] ∧ es.length ≤ Parser.errorLimit := by
  have hends := Parser.ends_begun h
  rw [File.ofTokens, ← Parser.begun]
  cases hrun : Parser.file (.layers (rest.length + 1)) (Parser.begun head rest) with
  | mk result s =>
    rw [hrun] at hends
    have hfew := hends.behind.few (Nat.zero_le _)
    cases result with
    | none => exact .inr ⟨s.errors, rfl, hends.fails rfl, hfew⟩
    | some file =>
      by_cases herrors : s.errors = []
      · exact .inl ⟨file, s, by simp [herrors], (hends.gives file rfl).1, herrors, rfl⟩
      · exact .inr ⟨s.errors, by simp [herrors], herrors, hfew⟩

end Surface

/-! ## Source text -/

namespace Scan

/-- A name that is read has one character at least. -/
theorem lexemesFrom_clean (h : lexemesFrom offset cs = .ok ls) :
    ∀ l ∈ ls, ∀ t, l.2 = .token t → Surface.Parser.Clean t := by
  fun_induction lexemesFrom offset cs generalizing ls with
  | case1 =>
    cases h
    exact forall_mem_nil _
  | case2 => cases h
  | case3 offset c rest l n hlexeme ls' hrest ih =>
    cases h
    refine forall_mem_cons.mpr ⟨?_, ih hrest⟩
    rintro t rfl name rfl rfl
    obtain ⟨hpos, hreads⟩ := reads_lexeme hlexeme
    obtain ⟨m, rfl⟩ := Nat.exists_eq_add_of_lt hpos
    rw [Nat.zero_add, take_succ_cons] at hreads
    cases hreads
  | case4 => cases h

/-- Placed tokens are in order, and the end of the text is behind them. -/
theorem place_clean (h : ∀ l ∈ ls, ∀ t, l.2 = .token t → Surface.Parser.Clean t) (index : LineIndex) (stop : Nat)
    (canEnd : Bool) : ∃ ts pos, place index stop canEnd ls = ts ++ [⟨.eof, pos⟩] ∧
      ∀ p ∈ ts, Surface.Parser.Clean p.token := by
  have hend : ∀ (canEnd : Bool) (pos : Pos), ∀ p ∈ if canEnd then [Placed.mk .newline pos] else [],
      Surface.Parser.Clean p.token := by
    rintro canEnd pos p hp name heq
    split at hp
    · rw [mem_singleton.mp hp] at heq
      cases heq
    · cases hp
  fun_induction place index stop canEnd ls with
  | case1 canEnd => exact ⟨_, _, rfl, hend canEnd _⟩
  | case2 canEnd o ls ih | case3 canEnd o ls ih => exact ih (forall_mem_cons.mp h).2
  | case4 canEnd o ls ih | case5 canEnd o ls ih =>
    obtain ⟨ts, pos, heq, hts⟩ := ih (forall_mem_cons.mp h).2
    exact ⟨_, pos, by rw [heq, ← append_assoc], forall_mem_append.mpr ⟨hend canEnd _, hts⟩⟩
  | case6 canEnd o t ls ih =>
    rw [forall_mem_cons] at h
    obtain ⟨ts, pos, heq, hts⟩ := ih h.2
    exact ⟨_ :: ts, pos, by rw [heq, cons_append], forall_mem_cons.mpr ⟨h.1 t rfl, hts⟩⟩

end Scan

theorem tokenize_ok (h : tokenize source = .ok ts) :
    ∃ head rest, ts = head :: rest ∧ (Surface.Parser.begun head rest).Ok := by
  rw [tokenize] at h
  split at h
  · next ls hlex =>
    cases h
    obtain ⟨ts, pos, hplace, hts⟩ :=
      Scan.place_clean (Scan.lexemesFrom_clean hlex) (.ofChars source.toList) (byteLength source.toList) false
    have hclean : ∀ t ∈ ts ++ [⟨.eof, pos⟩], Surface.Parser.Clean t.token :=
      forall_mem_append.mpr ⟨hts, forall_mem_singleton.mpr fun name h => by cases h⟩
    rw [hplace]
    cases ts with
    | nil => exact ⟨_, _, rfl, hclean, rfl⟩
    | cons head rest => exact ⟨head, _, rfl, hclean, by simp [Surface.Parser.begun]⟩
  · cases h

namespace Surface

/-- **No name in the syntax tree of a source is empty.** -/
theorem File.clean_ofSource {source : String} (h : File.ofSource source = .ok file) : "" ∉ file.words := by
  rw [File.ofSource] at h
  split at h
  · next hts =>
    obtain ⟨head, rest, rfl, hok⟩ := tokenize_ok hts
    rcases File.verdict_ofTokens hok with ⟨file', s, hfile, hclean, -⟩ | ⟨es, herror, -⟩
    · rw [hfile] at h
      cases h
      exact hclean
    · rw [herror] at h
      cases h
  · cases h

/-! ## Verdicts -/

namespace Parser

/-- Every loop of the rules either leaves or reads a token before its next round, where fewer than `k` tokens are left
behind the next. -/
structure Advances (g : Grammar) (k : ℕ) : Prop where
  decls : Rounds k true (declsStep g) fun ds => ∀ d ∈ ds, "" ∉ d.words
  stmts : Rounds k true (stmtsStep g) fun ss => ∀ s ∈ ss, s.Clean
  specs : ∀ kind, Rounds k true (endedStep .rightParen (spec g kind)) fun ss => ∀ s ∈ ss, "" ∉ s.words
  fields : Rounds k true (endedStep .rightBrace (field g)) fun fs => ∀ f ∈ fs, f.Clean
  params : Rounds k true (listedStep .rightParen (param g)) fun ps => ∀ p ∈ ps, p.Clean
  arguments : Rounds k true (listedStep .rightParen (argument g)) fun as => ∀ a ∈ as, a.1.Clean
  elements : Rounds k true (listedStep .rightBrace (element g)) fun es => ∀ e ∈ es, e.Clean
  names : Rounds k true (separatedStep ident) fun ns => ∀ n ∈ ns, n.name ≠ ""
  exprs : Rounds k true (separatedStep (expr g)) fun es => ∀ e ∈ es, e.Clean
  suffixes : Rounds k true (suffix g) Expr.Clean
  operators : ∀ least, Rounds k true (binarySuffix g least) Expr.Clean

/-- **Reading a source ends with a verdict.** The rules call each other with fewer tokens than they begin with, loops
and recovery go forward, and there is a file if no error was recorded and else an error, but no more than ten. -/
theorem source_decided (source : String) :
    (∀ (g : Grammar) k, g.Ok k → g.deepen.Ok (k + 1) ∧ Advances g k) ∧
    (∀ s : State, s.Ok → (skipStmt s).2.Behind s ∧ (skipDecl s).2.Behind s ∧
      Ends (fun _ => true) (fun _ => True) s (braces s) ∧
      (s.head.token ≠ .eof → s.head.token ≠ .symbol .rightBrace → (skipStmt s).2.rest.length < s.rest.length)) ∧
    ((∃ f head rest s, File.ofSource source = .ok f ∧ tokenize source = .ok (head :: rest) ∧
        file (.layers (rest.length + 1)) (begun head rest) = (some f, s) ∧ s.errors = []) ∨
      ∃ es, File.ofSource source = .error es ∧ 1 ≤ es.length ∧ es.length ≤ 10) := by
  refine ⟨fun g k hg => ⟨hg.deepen, ?_⟩, fun s hs => ⟨skip_behind _ s, skip_behind _ s, ?_, fun heof hbrace => ?_⟩, ?_⟩
  · exact ⟨rounds_decls hg, rounds_stmts hg, fun kind => rounds_ended (gives_spec hg kind) _,
      rounds_ended (gives_field hg) _, rounds_listed (gives_param hg) _, rounds_listed (gives_argument hg) _,
      rounds_listed (gives_element hg) _, rounds_separated gives_ident, rounds_separated (gives_expr hg),
      rounds_suffix hg, fun least => rounds_binarySuffix hg least⟩
  · exact gives_braces (w := false) (b := false) s hs (Nat.le_refl _) (fun h => by cases h)
  · exact skipStmt_lt hs heof hbrace
  · rw [File.ofSource]
    cases hts : tokenize source with
    | error pos => exact .inr ⟨_, rfl, Nat.le_refl _, Nat.one_le_ofNat⟩
    | ok ts =>
      obtain ⟨head, rest, rfl, hok⟩ := tokenize_ok hts
      rcases File.verdict_ofTokens hok with ⟨file, s, hfile, -, herrors, hrun⟩ | ⟨es, herror, hne, hfew⟩
      · exact .inl ⟨file, head, rest, s, hfile, rfl, hrun, herrors⟩
      · exact .inr ⟨es, herror, List.length_pos_iff.mpr hne, hfew⟩

/-- A name before the end of the text. -/
def lonelyName : State := begun ⟨.ident "x", default⟩ [⟨.eof, default⟩]

theorem lonelyName_decided : (Grammar.layers 2).deepen.Ok 3 ∧ Advances (.layers 2) 2 ∧ lonelyName.Ok ∧
    (skipStmt lonelyName).2.rest.length < lonelyName.rest.length := by
  have hok : lonelyName.Ok := by
    refine ⟨List.forall_mem_cons.mpr ⟨fun name h => ?_, List.forall_mem_singleton.mpr fun name h => ?_⟩, rfl⟩
    · cases h
      decide
    · cases h
  obtain ⟨hrules, hskip, -⟩ := source_decided "x"
  obtain ⟨hdeepen, hadvances⟩ := hrules (.layers 2) 2 (Grammar.ok_layers 2)
  exact ⟨hdeepen, hadvances, hok, (hskip lonelyName hok).2.2.2 (by decide) (by decide)⟩

end Parser

end Surface

end GameMedia.Shader
