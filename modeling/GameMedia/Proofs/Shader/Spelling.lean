import GameMedia.Proofs.Shader.Words

/-!
# Reading written expressions

The text of an expression determines its tree, up to what the target spells alike. A word runs up to a bracket, a comma
or a blank, and behind an operand stands a closing bracket or a comma, so a reader that looks at one or two characters
finds every node where it was written. The reader takes texts on trust: it is meant for what the writer writes, and says
nothing of other texts.
-/

namespace GameMedia.Shader

open List

namespace Code

/-! ## Spelled trees -/

/-- A node without its operands, with operators, built-in functions and numbers as the target spells them. -/
inductive Label where
  | blank
  | number (text : String)
  | uniform (index : Nat)
  | texture (index : Nat)
  | localVar (index : Nat)
  | member (index : Nat)
  | builtin (name : String)
  | swizzle (letters : String)
  | func (index : Nat)
  | unary (op : String)
  | binary (op : String)
  | select
  | call
  | field
  | index

inductive Spelled where
  | node (label : Label) (parts : List Spelled)

def Expr.label (d : Target.Dialect) : Expr → Label
  | .blank => .blank
  | .number c _ => .number c.literal
  | .uniform i => .uniform i
  | .texture i => .texture i
  | .localVar i => .localVar i
  | .member i => .member i
  | .builtin f => .builtin (d.builtinName f)
  | .swizzle s => .swizzle s
  | .func i => .func i
  | .unary op _ => .unary op.text
  | .binary op _ _ => .binary op.text
  | .select _ _ _ => .select
  | .call _ _ => .call
  | .field _ _ => .field
  | .index _ _ => .index

/-- The tree of an expression as far as the target tells nodes apart. -/
def Expr.spelled (d : Target.Dialect) (e : Expr) : Spelled :=
  .node (e.label d) (e.operands.attach.map fun o => Expr.spelled d o.1)
termination_by sizeOf e
decreasing_by exact Expr.sizeOf_operand_lt o.2

theorem Expr.spelled_eq (d : Target.Dialect) (e : Expr) :
    e.spelled d = .node (e.label d) (e.operands.map (Expr.spelled d)) := by
  rw [Expr.spelled, List.attach_map_val]

/-- A node that is written with all of its operands, each of them once, behind its own name. -/
def Expr.isDirect : Expr → Bool
  | .builtin f => f ≠ .texelAt && f ≠ .frontFacing
  | .call (.builtin f) args => !(f = .min || f = .max) || args.length ≤ 2
  | _ => true

end Code

namespace Target

open Code

/-! ## Words -/

def brackets : List Char := ['(', ')', '[', ']', ',', ' ']

def isPlain (c : Char) : Bool := !brackets.contains c

/-- Behind an operand the text ends, or a bracket or a comma follows. -/
def Stops (r : List Char) : Prop := ∀ c ∈ r.head?, c ∈ [')', ']', ',']

def numberedNames (index : Slot → Nat) : List (Char × (Nat → Label)) :=
  [('U', .uniform), ('T', .texture), ('M', .member), ('F', .func), ('A', fun i => .localVar (index (.attribute i))),
    ('V', fun i => .localVar (index (.varying i))), ('l', fun i => .localVar (index (.plain i)))]

/-- Numbers begin with a digit or a sign, but for truth values and what no double can hold. -/
def isNumberWord (s : String) : Bool :=
  ["true", "false", "inf"].contains s || (s.toList.headD ' ').isDigit || s.toList.headD ' ' == '-' && s != "-"

/-- The node that a word stands for, where `index` tells the variable of a slot. -/
def wordLabel (index : Slot → Nat) (s : String) : Label :=
  if isNumberWord s then .number s
  else
    (((numberedNames index).lookup (s.toList.headD ' ')).bind fun f =>
        (Literal.digitsFrom 10 0 s.toList.tail).map f).getD <|
      if s = "gl_Position" then .localVar (index .position)
      else if ["+", "-", "!"].contains s then .unary s
      else if isSwizzle s then .swizzle s
      else .builtin s

/-- The text is one word, and stands for the node. -/
structure IsWord (index : Slot → Nat) (s : String) (l : Label) : Prop where
  ne : s.toList ≠ []
  plain : lacks brackets s = true
  label : wordLabel index s = l

section

variable {index : Slot → Nat} {s : String} {r : List Char}

theorem takeWhile_word (hs : lacks brackets s = true) (hr : ∀ c ∈ r.head?, c ∈ brackets) :
    (s.toList ++ r).takeWhile isPlain = s.toList ∧ (s.toList ++ r).dropWhile isPlain = r := by
  have hword : ∀ c ∈ s.toList, isPlain c = true := List.all_eq_true.mp hs
  rw [takeWhile_append_of_pos hword, dropWhile_append_of_pos hword]
  cases r with
  | nil => simp
  | cons c r =>
    have hc : isPlain c = false := by simpa [isPlain] using hr c rfl
    simp [hc]

theorem Stops.mem_brackets (h : Stops r) : ∀ c ∈ r.head?, c ∈ brackets := by
  intro c hc
  have := h c hc
  simp only [brackets, mem_cons, not_mem_nil, or_false] at this ⊢
  tauto

theorem isWord_numbered (letter : String) (hletter : letter.toList = [c]) (hplain : brackets.contains c = false)
    (hc : (c.isDigit || ['-', 't', 'f', 'i'].contains c) = false) (hf : (numberedNames index).lookup c = some f)
    (i : Nat) : IsWord index (letter ++ toString i) (f i) := by
  have htext : (letter ++ toString i).toList = c :: Nat.toDigits 10 i := by
    rw [String.toList_append, hletter, show (toString i).toList = Nat.toDigits 10 i from Nat.toList_repr]
    rfl
  refine ⟨by simp [hletter], by rw [lacks_append, lacks_nat (by decide), lacks, hletter, all_cons, hplain]; rfl, ?_⟩
  generalize letter ++ toString i = s at htext
  have hwords : s ∉ ["true", "false", "inf"] := by
    have hall : ["true", "false", "inf"].all (fun t => ['-', 't', 'f', 'i'].contains (t.toList.headD ' ')) = true := by
      decide
    intro hs
    have hhead := List.all_eq_true.mp hall s hs
    rw [htext, headD_cons] at hhead
    rw [hhead, Bool.or_true] at hc
    cases hc
  have hnumber : isNumberWord s = false := by simp_all [isNumberWord]
  simp only [wordLabel, hnumber, htext, headD_cons, hf, tail_cons, Literal.digitsFrom_toDigits]
  rfl

theorem isNumberWord_literal (c : Constant) : isNumberWord c.literal = true := by
  rcases c.literal_text with hword | ⟨negative, w, f, htext, hw, hne, -⟩
  · have hall : ["true", "false", "inf", "-inf"].all isNumberWord = true := by decide
    exact List.all_eq_true.mp hall _ hword
  · obtain ⟨x, w, rfl⟩ := exists_cons_of_ne_nil hne
    cases negative with
    | false => simp [isNumberWord, htext, Literal.signChars, hw x mem_cons_self]
    | true =>
      have hlong : c.literal ≠ "-" := by
        intro h
        simp [h, Literal.signChars] at htext
      simp [isNumberWord, htext, Literal.signChars, hlong]

theorem isWord_literal (c : Constant) : IsWord index c.literal (.number c.literal) where
  ne := by
    intro h
    exact absurd (String.toList_eq_nil_iff.mp h ▸ isNumberWord_literal c) (by decide)
  plain := literal_lacks (by decide) c
  label := if_pos (isNumberWord_literal c)

theorem isWord_swizzle (h : isSwizzle s = true) : IsWord index s (.swizzle s) := by
  obtain ⟨hne, hletters⟩ := swizzle_letters h
  refine ⟨hne, lacks_swizzle h (by decide), ?_⟩
  obtain ⟨c, cs, htext⟩ := exists_cons_of_ne_nil hne
  have hc : c ∈ componentLetters := hletters c (htext ▸ mem_cons_self)
  have hhead : (!c.isDigit && c != '-') = true :=
    have hall : componentLetters.all (fun c => !c.isDigit && c != '-') = true := by decide
    List.all_eq_true.mp hall c hc
  have hname : ((numberedNames index).lookup c).isNone = true :=
    have hall : componentLetters.all (fun c => ((numberedNames index).lookup c).isNone) = true := rfl
    List.all_eq_true.mp hall c hc
  have hne : ∀ t ∈ ["true", "false", "inf", "gl_Position", "+", "-", "!"], s ≠ t := by
    rintro t ht rfl
    have hall : ["true", "false", "inf", "gl_Position", "+", "-", "!"].all (!isSwizzle ·) = true := by decide
    simpa [h] using List.all_eq_true.mp hall s ht
  simp only [forall_mem_cons, Bool.and_eq_true, Bool.not_eq_true', bne_iff_ne] at hne hhead
  rw [Option.isNone_iff_eq_none] at hname
  simp [wordLabel, isNumberWord, htext, hname, hhead, hne, h]

theorem isWord_builtin (unit : CoordUnit) (f : Builtin) :
    IsWord index (Glsl.builtinName unit f) (.builtin (Glsl.builtinName unit f)) := by
  have hne : Glsl.builtinName unit f ≠ "" := by cases unit <;> cases f <;> decide
  refine ⟨by simpa using hne, ?_, ?_⟩
  · cases unit <;> cases f <;> decide
  · cases unit <;> cases f <;> rfl

end

/-! ## The reader -/

/-- Operands in parentheses, up to the closing one. -/
def readArgs (read : List Char → Option (Spelled × List Char)) : Nat → List Char → Option (List Spelled × List Char)
  | 0, _ => none
  | n + 1, cs => do
    let a ← read cs
    if a.2.head? = some ',' then
      let as ← readArgs read n (a.2.drop 2)
      return (a.1 :: as.1, as.2)
    else return ([a.1], a.2.drop 1)

/-- An operand in parentheses, and what the text behind them makes of it. -/
def readGroup (read : List Char → Option (Spelled × List Char)) (cs : List Char) : Option (Spelled × List Char) := do
  let a ← read cs
  let rest := a.2.drop 2
  if a.2[1]? = some '.' then
    let b ← read rest
    return (.node .field [a.1, b.1], b.2)
  else if a.2[1]? = some '[' then
    let b ← read rest
    return (.node .index [a.1, b.1], b.2.drop 1)
  else
    let op := rest.takeWhile isPlain
    let b ← read ((rest.dropWhile isPlain).drop 2)
    if op = ['?'] then
      let c ← read (b.2.drop 5)
      return (.node .select [a.1, b.1, c.1], c.2.drop 1)
    else return (.node (.binary (String.ofList op)) [a.1, b.1], b.2.drop 1)

/-- An operator before its operand, or the call of what a word names. -/
def applied : Label → List Spelled → Spelled
  | .unary op, as => .node (.unary op) as
  | l, as => .node .call (.node l [] :: as)

/-- One expression and the text behind it. -/
def read (index : Slot → Nat) : Nat → List Char → Option (Spelled × List Char)
  | 0, _ => none
  | n + 1, cs =>
    let w := cs.takeWhile isPlain
    let rest := cs.dropWhile isPlain
    let l := wordLabel index (String.ofList w)
    if w = [] then if rest.head? = some '(' then readGroup (read index n) (rest.drop 1) else none
    else if rest.head? ≠ some '(' then some (.node l [], rest)
    else if rest[1]? = some ')' then some (applied l [], rest.drop 2)
    else (readArgs (read index n) rest.length (rest.drop 1)).map fun x => (applied l x.1, x.2)

/-- The text is read as the tree of the expression, wherever it stands. -/
def Reads (d : Dialect) (index : Slot → Nat) (n : Nat) (e : Expr) (s : String) : Prop :=
  ∀ r, Stops r → read index n (s.toList ++ r) = some (e.spelled d, r)

section

variable {d : Dialect} {index : Slot → Nat} {n : Nat} {e : Expr} {s : String} {l : Label}

theorem IsWord.reads (h : IsWord index s (e.label d)) (he : e.operands = []) : Reads d index (n + 1) e s := by
  intro r hr
  obtain ⟨htake, hdrop⟩ := takeWhile_word h.plain hr.mem_brackets
  have hopen : r.head? ≠ some '(' := fun hc => absurd (hr _ hc) (by decide)
  rw [read, htake, hdrop, if_neg h.ne, if_pos hopen, String.ofList_toList, h.label, e.spelled_eq, he]
  rfl

/-- No text of an expression closes a bracket that is open before it. -/
theorem Reads.head (h : Reads d index n e s) : ∃ c cs, s.toList = c :: cs ∧ c ≠ ')' := by
  have hread := h [] (by simp [Stops])
  rw [append_nil] at hread
  cases n with
  | zero => cases hread
  | succ n =>
    cases hs : s.toList with
    | nil =>
      rw [hs] at hread
      cases hread
    | cons c cs =>
      refine ⟨c, cs, rfl, ?_⟩
      rintro rfl
      rw [hs] at hread
      cases hread

theorem read_group (cs : List Char) : read index (n + 1) ('(' :: cs) = readGroup (read index n) cs := rfl

theorem read_applied (h : IsWord index s l) (cs : List Char) :
    read index (n + 1) (s.toList ++ '(' :: cs) =
      if cs.head? = some ')' then some (applied l [], cs.drop 1)
      else (readArgs (read index n) (cs.length + 1) cs).map fun x => (applied l x.1, x.2) := by
  obtain ⟨htake, hdrop⟩ := takeWhile_word (r := '(' :: cs) h.plain (by simp [brackets])
  rw [read, htake, hdrop, if_neg h.ne, if_neg (by simp), String.ofList_toList, h.label]
  cases cs <;> rfl

theorem readArgs_texts (h : List.Forall₂ (Reads d index n) es ss) (hne : es ≠ [])
    (hm : (", ".intercalate ss).toList.length < m) :
    ∃ c cs, (", ".intercalate ss).toList = c :: cs ∧ c ≠ ')' ∧
      ∀ r, readArgs (read index n) m (c :: cs ++ ')' :: r) = some (es.map (Expr.spelled d), r) := by
  induction h generalizing m with
  | nil => exact absurd rfl hne
  | @cons e s es ss hs hss ih =>
    obtain ⟨m, rfl⟩ := Nat.exists_eq_add_one_of_ne_zero (Nat.ne_zero_of_lt hm)
    obtain ⟨c, cs, htext, hc⟩ := hs.head
    cases hss with
    | nil =>
      refine ⟨c, cs, by rw [String.intercalate_singleton, htext], hc, fun r => ?_⟩
      rw [← htext, readArgs, hs _ (by simp [Stops])]
      rfl
    | @cons e' s' es ss hs' hss =>
      have hshort : (", ".intercalate (s' :: ss)).toList.length < m := by
        simp only [String.intercalate_cons_cons, String.toList_append, length_append, htext, length_cons] at hm
        omega
      obtain ⟨c', cs', hrest, -, hread⟩ := ih (cons_ne_nil _ _) hshort
      refine ⟨c, cs ++ ',' :: ' ' :: (c' :: cs'), ?_, hc, fun r => ?_⟩
      · rw [String.intercalate_cons_cons, String.toList_append, String.toList_append, hrest, htext, append_assoc]
        rfl
      · rw [← cons_append, ← htext, append_assoc, readArgs, hs _ (by simp [Stops])]
        change (readArgs (read index n) m (c' :: cs' ++ ')' :: r)).bind _ = _
        rw [hread r]
        rfl

theorem read_plainCall (h : IsWord index s l) (hss : List.Forall₂ (Reads d index n) es ss) (r : List Char) :
    read index (n + 1) ((plainCall s ss).toList ++ r) = some (applied l (es.map (Expr.spelled d)), r) := by
  have htext : (plainCall s ss).toList ++ r = s.toList ++ '(' :: ((", ".intercalate ss).toList ++ ')' :: r) := by
    simp only [plainCall, String.toList_append, append_assoc]
    rfl
  rw [htext, read_applied h]
  cases hss with
  | nil => rfl
  | @cons _ s' _ ss hs hss =>
    have hlong : (", ".intercalate (s' :: ss)).toList.length <
        ((", ".intercalate (s' :: ss)).toList ++ ')' :: r).length + 1 := by
      rw [length_append]
      omega
    obtain ⟨c, cs, hargs, hc, hread⟩ := readArgs_texts (.cons hs hss) (cons_ne_nil _ _) hlong
    rw [hargs] at hread ⊢
    rw [if_neg (by simpa using hc), hread r]
    rfl

theorem readGroup_operator {cs r r' : List Char}
    (hs : lacks brackets s = true ∧ s.toList ≠ ['?'])
    (ha : rd cs = some (a, ')' :: ' ' :: (s.toList ++ ' ' :: '(' :: r))) (hb : rd r = some (b, ')' :: r')) :
    readGroup rd cs = some (.node (.binary s) [a, b], r') := by
  obtain ⟨htake, hdrop⟩ := takeWhile_word (r := ' ' :: '(' :: r) hs.1 (by simp [brackets])
  simp [readGroup, ha, htake, hdrop, hs.2, hb]

end

namespace Glsl

variable {unit : CoordUnit} {body : Body} {index : Slot → Nat}

theorem isWord_slot (h : Function.LeftInverse index body.slot) (i : Nat) :
    IsWord index (slotName (body.slot i)) (.localVar i) := by
  have hslot : ∀ s, IsWord index (slotName s) (.localVar (index s)) := by
    rintro (i | _ | i | i)
    · exact isWord_numbered "A" rfl rfl rfl rfl i
    · exact ⟨by decide, by decide, rfl⟩
    · exact isWord_numbered "V" rfl rfl rfl rfl i
    · exact isWord_numbered "l" rfl rfl rfl rfl i
  simpa only [h i] using hslot (body.slot i)

/-- **The reader undoes the writer.** The induction is on the fuel, which every operand needs less of. -/
theorem exprText_reads (h : Function.LeftInverse index body.slot) (n : Nat) (e : Expr) (hn : sizeOf e < n)
    (he : e.nodes.all Expr.isDirect = true) :
    Writes (exprText (dialect .es300 unit) body e) (Reads (dialect .es300 unit) index n e) := by
  induction n generalizing e with
  | zero => exact absurd hn (Nat.not_lt_zero _)
  | succ n ihn =>
  have ih : ∀ o ∈ e.operands, Writes (exprText (dialect .es300 unit) body o) (Reads (dialect .es300 unit) index n o) := by
    intro o ho
    refine ihn o (by have := Expr.sizeOf_operand_lt ho; omega) (List.all_eq_true.mpr fun x hx => ?_)
    refine List.all_eq_true.mp he x (Expr.mem_nodes_iff.mpr (.operand ho (Expr.mem_nodes_iff.mp hx)))
  cases e with
  | blank => exact writes_error
  | number c k => exact writes_ok ((isWord_literal c).reads rfl)
  | uniform i => exact writes_ok ((isWord_numbered "U" rfl rfl rfl rfl i).reads rfl)
  | texture i => exact writes_ok ((isWord_numbered "T" rfl rfl rfl rfl i).reads rfl)
  | localVar i => exact writes_ok ((isWord_slot h i).reads rfl)
  | member i => exact writes_ok ((isWord_numbered "M" rfl rfl rfl rfl i).reads rfl)
  | builtin f => exact writes_ok ((isWord_builtin unit f).reads rfl)
  | swizzle s =>
    rw [exprText]
    split
    · next hs => exact writes_ok ((isWord_swizzle hs).reads rfl)
    · exact writes_error
  | func i => exact writes_ok ((isWord_numbered "F" rfl rfl rfl rfl i).reads rfl)
  | unary op e =>
    cases op with
    | add | sub | not =>
      refine (ih e (by simp [Expr.operands])).bind fun s hs => writes_ok fun r hr => ?_
      rw [Expr.spelled_eq]
      exact read_plainCall ⟨by decide, by decide, rfl⟩ (.cons hs .nil) r
    | _ => exact writes_error
  | binary op l r =>
    refine (ih l (by simp [Expr.operands])).bind fun s hs => (ih r (by simp [Expr.operands])).bind fun t ht => ?_
    rw [show (dialect .es300 unit).binary op s t = plainBinary op s t from if_neg (by simp)]
    refine writes_ok fun r' hr => ?_
    have hop : lacks brackets op.text = true ∧ op.text.toList ≠ ['?'] := by cases op <;> decide
    have htext : (plainBinary op s t).toList ++ r' =
        '(' :: (s.toList ++ ')' :: ' ' :: (op.text.toList ++ ' ' :: '(' :: (t.toList ++ ')' :: r'))) := by
      simp [plainBinary]
    rw [htext, read_group, Expr.spelled_eq _ (.binary op l r)]
    exact readGroup_operator hop (hs _ (by simp [Stops])) (ht _ (by simp [Stops]))
  | select c t f =>
    refine (ih c (by simp [Expr.operands])).bind fun s hs => (ih t (by simp [Expr.operands])).bind fun s₁ hs₁ => ?_
    refine (ih f (by simp [Expr.operands])).bind fun s₂ hs₂ => writes_ok fun r hr => ?_
    have htext : ("(" ++ s ++ ") ? (" ++ s₁ ++ ") : (" ++ s₂ ++ ")").toList ++ r = '(' :: (s.toList ++
        ')' :: ' ' :: '?' :: ' ' :: '(' :: (s₁.toList ++ ')' :: ' ' :: ':' :: ' ' :: '(' :: (s₂.toList ++ ')' :: r))) := by
      simp
    rw [htext, read_group, readGroup, hs _ (by simp [Stops]), Expr.spelled_eq _ (.select c t f)]
    change (read index n (s₁.toList ++ _)).bind _ = _
    rw [hs₁ _ (by simp [Stops])]
    change (read index n (s₂.toList ++ _)).bind _ = _
    rw [hs₂ _ (by simp [Stops])]
    rfl
  | call f args =>
    refine (exprTexts_writes fun e he => ih e (mem_cons_of_mem _ he)).bind fun ss hss => ?_
    cases f with
    | builtin f =>
      have hf := List.all_eq_true.mp he _ (Expr.mem_nodes_iff.mpr (.operand mem_cons_self .self))
      have hshort := List.all_eq_true.mp he _ (Expr.mem_nodes_iff.mpr .self)
      have hnone : (dialect .es300 unit).builtinCall f ss = none := by
        change builtinCall unit f ss = none
        unfold builtinCall
        split <;> simp_all [Expr.isDirect]
      have hfew : ¬((f = .min ∨ f = .max) ∧ 2 < ss.length) := by
        rintro ⟨rfl | rfl, hlong⟩ <;> simp [Expr.isDirect, hss.length_eq] at hshort <;> omega
      simp only [callText, hnone, if_neg hfew]
      refine writes_ok fun r hr => ?_
      rw [Expr.spelled_eq _ (.call _ _), Expr.operands, map_cons, Expr.spelled_eq _ (.builtin f)]
      exact read_plainCall (isWord_builtin unit f) hss r
    | func i =>
      refine writes_ok fun r hr => ?_
      rw [Expr.spelled_eq _ (.call _ _), Expr.operands, map_cons, Expr.spelled_eq _ (.func i)]
      exact read_plainCall (isWord_numbered "F" rfl rfl rfl rfl i) hss r
    | _ => exact writes_error
  | field b m =>
    refine (ih b (by simp [Expr.operands])).bind fun s hs => (ih m (by simp [Expr.operands])).bind fun t ht => ?_
    refine writes_ok fun r hr => ?_
    have htext : ("(" ++ s ++ ")." ++ t).toList ++ r = '(' :: (s.toList ++ ')' :: '.' :: (t.toList ++ r)) := by simp
    rw [htext, read_group, readGroup, hs _ (by simp [Stops]), Expr.spelled_eq _ (.field b m)]
    change (read index n (t.toList ++ r)).bind _ = _
    rw [ht r hr]
    rfl
  | index b i =>
    refine (ih b (by simp [Expr.operands])).bind fun s hs => (ih i (by simp [Expr.operands])).bind fun t ht => ?_
    refine writes_ok fun r hr => ?_
    have htext : ("(" ++ s ++ ")[" ++ t ++ "]").toList ++ r = '(' :: (s.toList ++ ')' :: '[' :: (t.toList ++ ']' :: r)) := by
      simp
    rw [htext, read_group, readGroup, hs _ (by simp [Stops]), Expr.spelled_eq _ (.index b i)]
    change (read index n (t.toList ++ _)).bind _ = _
    rw [ht _ (by simp [Stops])]
    rfl

/-- **Expressions with one text have one tree.** -/
theorem spelled_eq_of_exprText (unit : CoordUnit) (body : Body) {a b : Expr} {s : String}
    (ha : a.nodes.all Expr.isDirect = true) (hb : b.nodes.all Expr.isDirect = true)
    (hsa : exprText (dialect .es300 unit) body a = .ok s) (hsb : exprText (dialect .es300 unit) body b = .ok s) :
    a.spelled (dialect .es300 unit) = b.spelled (dialect .es300 unit) := by
  have hindex := Function.leftInverse_invFun body.slot_injective
  have hread (e : Expr) (he : e.nodes.all Expr.isDirect = true) (hs : exprText (dialect .es300 unit) body e = .ok s)
      (hn : sizeOf e < sizeOf a + sizeOf b + 1) :=
    exprText_reads hindex _ e hn he s hs [] (by simp [Stops])
  have heq := (hread a ha hsa (by omega)).symm.trans (hread b hb hsb (by omega))
  exact congrArg Prod.fst (Option.some.inj heq)

/-- A choice between parts of a product and of an array. -/
def choiceSample (mul : Op) : Expr :=
  .select (.binary .lt (.unary .sub (.number (.int (-1)) .int)) (.call (.builtin .max) [.localVar 0, .localVar 1]))
    (.field (.binary mul (.localVar 1) (.uniform 0)) (.swizzle "xy")) (.index (.call (.func 2) []) (.localVar 1))

theorem choiceSample_spelled :
    (choiceSample .componentMul).spelled (dialect .es300 .pixels) =
      (choiceSample .matrixMul).spelled (dialect .es300 .pixels) :=
  spelled_eq_of_exprText .pixels (.ofFunc default) (by decide) (by decide)
    (s := "((-(-1)) < (max(l0, l1))) ? (((l1) * (U0)).xy) : ((F2())[l1])") rfl rfl

end Glsl

end Target

end GameMedia.Shader
