import GameMedia.Proofs.Shader.Calls
import GameMedia.Proofs.Shader.Emission
import GameMedia.Proofs.Shader.Literals

/-!
# Function names in written code

What a text calls can be read off it: the name of a function is a word of a line, and nothing else that is written looks
like one. A `Piece` is text within a line that names functions of a given set only. Pieces are put together where words
cannot run into each other, which is at brackets, operators and blanks, and so an expression or a block is written with
the names of the functions it mentions and no others.
-/

namespace GameMedia.Shader.Target

open List Nat Code

variable {i : Nat} {c : Char} {w cs : List Char} {s : String}

/-! ## Words -/

/-- Letters, digits and underscores make up names and numbers. -/
def isWordChar (c : Char) : Bool := c.isAlphanum || c == '_'

def words (line : List Char) : List (List Char) := line.splitOnP fun c => !isWordChar c

def funcWord (i : Nat) : List Char := s!"F{i}".toList

theorem funcWord_eq (i : Nat) : funcWord i = 'F' :: (toString i).toList := by
  rw [funcWord, String.toList_append]
  rfl

theorem funcWord_injective (h : funcWord i = funcWord j) : i = j := by
  rw [funcWord_eq, funcWord_eq, cons.injEq] at h
  exact repr_inj.mp (String.toList_inj.mp h.2)

theorem mem_funcWord (i : Nat) : 'F' ∈ funcWord i := funcWord_eq i ▸ mem_cons_self

theorem words_append_cons (hc : isWordChar c = false) (a b : List Char) : words (a ++ c :: b) = words a ++ words b :=
  splitOnP_append_cons a b (by simp [hc])

theorem words_eq_singleton (h : ∀ c ∈ w, isWordChar c = true) : words w = [w] :=
  splitOnP_eq_singleton fun c hc => by simp [h c hc]

theorem isWordChar_of_mem_funcWord (h : c ∈ funcWord i) : isWordChar c = true := by
  rw [funcWord_eq, mem_cons, show (toString i).toList = toDigits 10 i from toList_repr] at h
  rcases h with rfl | h
  · decide
  · have := isDigit_of_mem_toDigits (by decide) (by decide) h
    simp [isWordChar, Char.isAlphanum, this]

theorem words_funcWord (i : Nat) : words (funcWord i) = [funcWord i] :=
  words_eq_singleton fun _ => isWordChar_of_mem_funcWord

theorem mem_of_mem_splitOnP {l : List Char} (hw : w ∈ l.splitOnP p) (hc : c ∈ w) : c ∈ l := by
  induction l generalizing w with
  | nil =>
    rw [splitOnP_nil, mem_singleton] at hw
    exact hw ▸ hc
  | cons x xs ih =>
    rw [splitOnP_cons_eq_if_modifyHead] at hw
    split at hw
    · rcases mem_cons.mp hw with rfl | hw
      · exact absurd hc not_mem_nil
      · exact mem_cons_of_mem _ (ih hw hc)
    · cases hsplit : xs.splitOnP p with
      | nil => exact absurd hsplit (splitOnP_ne_nil p xs)
      | cons v vs =>
        rw [hsplit, modifyHead_cons, mem_cons] at hw
        rcases hw with rfl | hw
        · rcases mem_cons.mp hc with rfl | hc
          · exact mem_cons_self
          · exact mem_cons_of_mem _ (ih (hsplit ▸ mem_cons_self) hc)
        · exact mem_cons_of_mem _ (ih (hsplit ▸ mem_cons_of_mem _ hw) hc)

/-- The first text ends, or the second begins, with a character that no word has. -/
def Apart (a b : List Char) : Prop :=
  (∀ c ∈ a.getLast?, isWordChar c = false) ∨ ∀ c ∈ b.head?, isWordChar c = false

theorem mem_words_append (h : Apart a b) (hw : w ∈ words (a ++ b)) : w ∈ words a ∨ w ∈ words b := by
  rcases h with h | h
  · rcases eq_nil_or_concat a with rfl | ⟨a, c, rfl⟩
    · exact .inr hw
    · rw [concat_eq_append] at h hw ⊢
      have hc : isWordChar c = false := h c (by simp)
      rw [append_assoc, singleton_append, words_append_cons hc, mem_append] at hw
      exact hw.imp_left fun hw => by rw [words_append_cons hc]; exact mem_append_left _ hw
  · cases b with
    | nil => exact .inl (by rwa [append_nil] at hw)
    | cons c b =>
      have hc : isWordChar c = false := h c rfl
      rw [words_append_cons hc, mem_append] at hw
      refine hw.imp_right fun hw => ?_
      rw [show words (c :: b) = words [] ++ words b from words_append_cons hc [] b]
      exact mem_append_right _ hw

/-! ## Characters that a text does not have -/

/-- The text has none of the characters. -/
def lacks (cs : List Char) (s : String) : Bool := s.toList.all fun c => !cs.contains c

/-- The capital that function names begin with, and the end of a line. -/
def nameOrBreak : List Char := ['F', '\n']

theorem not_mem_of_lacks (h : lacks cs s = true) (hc : c ∈ cs) : c ∉ s.toList := by
  intro hmem
  simpa [hc] using List.all_eq_true.mp h c hmem

@[simp]
theorem lacks_append : lacks cs (s ++ t) = (lacks cs s && lacks cs t) := by
  rw [lacks, String.toList_append, all_append, lacks, lacks]

theorem lacks_of_digits (hcs : cs.all (!Char.isDigit ·) = true) (hds : ∀ d ∈ ds, d.isDigit = true) :
    lacks cs (String.ofList ds) = true := by
  rw [lacks, String.toList_ofList, List.all_eq_true]
  intro d hd
  rw [Bool.not_eq_true', contains_eq_mem, decide_eq_false_iff_not]
  intro hmem
  simpa [hds d hd] using List.all_eq_true.mp hcs d hmem

theorem lacks_nat (h : cs.all (!Char.isDigit ·) = true) (n : Nat) : lacks cs (toString n) = true := by
  rw [show toString n = String.ofList (toDigits 10 n) from repr_eq_ofList_toDigits]
  exact lacks_of_digits h fun d hd => isDigit_of_mem_toDigits (by decide) (by decide) hd

theorem lacks_numbered (letter : String) (i : Nat) (h : lacks nameOrBreak letter = true := by decide) :
    lacks nameOrBreak (letter ++ toString i) = true := by
  rw [lacks_append, h, lacks_nat (by decide)]
  rfl

theorem lacks_intercalate (hsep : lacks cs sep = true)
    (h : ∀ s ∈ ss, lacks cs s = true) : lacks cs (sep.intercalate ss) = true := by
  induction ss with
  | nil => simp [lacks]
  | cons s ss ih =>
    rw [forall_mem_cons] at h
    cases ss with
    | nil => simpa using h.1
    | cons t ts => simp only [String.intercalate_cons_cons, lacks_append, h.1, hsep, ih h.2, Bool.and_self]

/-- What numbers are written with besides digits. -/
def numberMarks : List Char := ['-', '.', 't', 'r', 'u', 'e', 'f', 'a', 'l', 's', 'i', 'n']

theorem literal_lacks (h : cs.all (fun x => !x.isDigit && !numberMarks.contains x) = true) (c : Constant) :
    lacks cs c.literal = true := by
  have hall : ∀ x ∈ c.literal.toList, (x.isDigit || numberMarks.contains x) = true := by
    rcases c.literal_text with hword | ⟨negative, w, f, htext, hw, -, hf⟩
    · have hwords : ["true", "false", "inf", "-inf"].all
          (fun s => s.toList.all fun x => x.isDigit || numberMarks.contains x) = true := by decide
      exact List.all_eq_true.mp (List.all_eq_true.mp hwords _ hword)
    · rw [htext]
      intro x hx
      simp only [mem_append] at hx
      rcases hx with (hx | hx) | hx
      · exact Literal.mem_signChars hx ▸ by decide
      · simp [hw x hx]
      · rcases hf x hx with hx | hx
        · simp [hx]
        · have hmarks : ['-', '.', 'e'].all numberMarks.contains = true := by decide
          rw [List.all_eq_true.mp hmarks x hx, Bool.or_true]
  refine List.all_eq_true.mpr fun x hx => ?_
  rw [Bool.not_eq_true', contains_eq_mem, decide_eq_false_iff_not]
  intro hmem
  have hnone := List.all_eq_true.mp h x hmem
  rw [← Bool.not_or, hall x hx] at hnone
  cases hnone

theorem lacks_literal (c : Constant) : lacks nameOrBreak c.literal = true := literal_lacks (by decide) c

def componentLetters : List Char := ["xyzw", "rgba", "stpq"].flatMap String.toList

theorem swizzle_letters (h : isSwizzle s = true) : s.toList ≠ [] ∧ ∀ c ∈ s.toList, c ∈ componentLetters := by
  simp only [isSwizzle, Bool.and_eq_true, Bool.not_eq_true', isEmpty_eq_false_iff, List.any_eq_true,
    List.all_eq_true] at h
  obtain ⟨⟨hne, -⟩, alphabet, halphabet, hall⟩ := h
  exact ⟨hne, fun c hc => mem_flatMap.mpr ⟨alphabet, halphabet, contains_iff_mem.mp (hall c hc)⟩⟩

theorem lacks_swizzle (h : isSwizzle s = true) (hcs : componentLetters.all (!cs.contains ·) = true) :
    lacks cs s = true :=
  List.all_eq_true.mpr fun c hc => List.all_eq_true.mp hcs c ((swizzle_letters h).2 c hc)

/-! ## Pieces -/

/-- Text within a line whose words name functions of `C` only. -/
structure Piece (C : Nat → Prop) (s : String) : Prop where
  inline : '\n' ∉ s.toList
  named : ∀ i, funcWord i ∈ words s.toList → C i

/-- Text within a line without a word that begins as function names do. -/
def isQuiet (s : String) : Bool := !s.toList.contains '\n' && (words s.toList).all (·.head? != some 'F')

def opens (s : String) : Bool := isQuiet s && s.toList.getLast?.any (!isWordChar ·)

def closes (s : String) : Bool := isQuiet s && s.toList.head?.any (!isWordChar ·)

section

variable {C : Nat → Prop} {s t x y name : String} {args : List String}

theorem piece_of_lacks (h : lacks nameOrBreak s = true) : Piece C s where
  inline := not_mem_of_lacks h (by decide)
  named := by
    intro i hi
    exact absurd (mem_of_mem_splitOnP hi (mem_funcWord i)) (not_mem_of_lacks h (by decide))

theorem piece_of_quiet (h : isQuiet s = true := by decide) : Piece C s := by
  simp only [isQuiet, Bool.and_eq_true, Bool.not_eq_true', contains_eq_mem, decide_eq_false_iff_not,
    List.all_eq_true, bne_iff_ne, ne_eq] at h
  refine ⟨h.1, fun i hi => ?_⟩
  exact absurd rfl (funcWord_eq i ▸ h.2 _ hi)

theorem Piece.append (hs : Piece C s) (ht : Piece C t) (h : Apart s.toList t.toList) : Piece C (s ++ t) where
  inline := by
    rw [String.toList_append, mem_append, not_or]
    exact ⟨hs.inline, ht.inline⟩
  named := by
    intro i hi
    rw [String.toList_append] at hi
    exact (mem_words_append h hi).elim (hs.named i) (ht.named i)

theorem Piece.lead (hx : Piece C x) (hs : opens s = true := by decide) : Piece C (s ++ x) := by
  rw [opens, Bool.and_eq_true, Option.any_eq_true] at hs
  obtain ⟨hs, c, hc, hlast⟩ := hs
  exact (piece_of_quiet hs).append hx (.inl fun d hd => by simp_all)

theorem Piece.trail (hx : Piece C x) (hs : closes s = true := by decide) : Piece C (x ++ s) := by
  rw [closes, Bool.and_eq_true, Option.any_eq_true] at hs
  obtain ⟨hs, c, hc, hfirst⟩ := hs
  exact hx.append (piece_of_quiet hs) (.inr fun d hd => by simp_all)

/-- Two pieces with a bracket, an operator or the like between them. -/
theorem Piece.glue (hx : Piece C x) (hy : Piece C y) (hopen : opens s = true := by decide)
    (hclose : closes s = true := by decide) : Piece C (x ++ s ++ y) := by
  refine (hx.trail hclose).append hy (.inl fun d hd => ?_)
  rw [opens, Bool.and_eq_true, Option.any_eq_true] at hopen
  obtain ⟨-, c, hc, hlast⟩ := hopen
  rw [String.toList_append, getLast?_append, hc, Option.some_or, Option.mem_def, Option.some.injEq] at hd
  simpa [← hd] using hlast

theorem Piece.intercalate (h : ∀ s ∈ ss, Piece C s) (hopen : opens sep = true := by decide)
    (hclose : closes sep = true := by decide) : Piece C (sep.intercalate ss) := by
  induction ss with
  | nil => exact piece_of_quiet (s := "")
  | cons s ss ih =>
    rw [forall_mem_cons] at h
    cases ss with
    | nil => simpa using h.1
    | cons t ts =>
      rw [String.intercalate_cons_cons]
      exact h.1.glue (ih h.2) hopen hclose

theorem piece_funcName (h : C i) : Piece C s!"F{i}" where
  inline := fun hc => absurd (isWordChar_of_mem_funcWord hc) (by decide)
  named := by
    intro j hj
    change funcWord j ∈ words (funcWord i) at hj
    rw [words_funcWord, mem_singleton] at hj
    exact funcWord_injective hj ▸ h

theorem plainCall_piece (hname : Piece C name) (hargs : ∀ a ∈ args, Piece C a) : Piece C (plainCall name args) :=
  (hname.glue (Piece.intercalate hargs)).trail

theorem nestCalls_piece (hname : Piece C name) (hargs : ∀ a ∈ args, Piece C a) : Piece C (nestCalls name args) := by
  cases args with
  | nil => exact hname.trail
  | cons a as =>
    rw [forall_mem_cons] at hargs
    obtain ⟨ha, has⟩ := hargs
    rw [nestCalls]
    induction as generalizing a with
    | nil => exact ha
    | cons b bs ih =>
      rw [forall_mem_cons] at has
      refine ih _ ?_ has.2
      exact ((hname.glue ha).glue has.1).trail

end

/-! ## Written text -/

/-- What is written, if anything is, is as said. -/
def Writes {α : Type} (x : Emit α) (P : α → Prop) : Prop := ∀ a, x = .ok a → P a

section

variable {α β : Type} {x : Emit α} {P Q : α → Prop}

theorem writes_ok (h : P a) : Writes (.ok a) P := fun _ hb => Except.ok.inj hb ▸ h

theorem writes_error : Writes (.error e) P := fun _ h => by cases h

theorem Writes.imp (hx : Writes x P) (h : ∀ a, P a → Q a) : Writes x Q := fun a ha => h a (hx a ha)

theorem Writes.bind (hx : Writes x P) (hf : ∀ a, P a → Writes (f a) R) :
    Writes (x >>= f) R := by
  cases x with
  | error e => exact writes_error
  | ok a => exact hf a (hx a rfl)

end

/-- What types are written without: also what would open a parameter list or indent a line. -/
def typeBreaks : List Char := ['F', '\n', '(', '\t']

theorem lacks_nameOrBreak (h : lacks typeBreaks s = true) : lacks nameOrBreak s = true := by
  refine List.all_eq_true.mpr fun c hc => ?_
  have := List.all_eq_true.mp h c hc
  simp_all [typeBreaks, nameOrBreak]

/-- The dialect's own words are not names of functions, and it keeps the pieces it puts together apart. -/
structure Dialect.Tidy (d : Dialect) : Prop where
  types : ∀ t, Writes (d.typeParts t) fun x => lacks typeBreaks x.1 = true ∧ lacks typeBreaks x.2 = true
  zeros : ∀ t, Writes (d.zeroValue t) (lacks nameOrBreak · = true)
  slots : ∀ s, lacks nameOrBreak (d.slotName s) = true
  uniforms : ∀ i, lacks nameOrBreak (d.uniformName i) = true
  builtins : ∀ f C, Piece C (d.builtinName f)
  binary : ∀ {C op l r}, Piece C l → Piece C r → Piece C (d.binary op l r)
  builtinCall : ∀ {C f args s}, (∀ a ∈ args, Piece C a) → d.builtinCall f args = some s → Piece C s
  implicitArgs : ∀ C, ∀ a ∈ d.implicitArgs, Piece C a
  returnLine : ∀ {C v} k, (∀ s ∈ v, Piece C s) → Piece C (d.returnLine k v)
  discardLines : ∀ C, ∀ l ∈ d.discardLines, Piece C l

section

variable {d : Dialect} {body : Body} {C : Nat → Prop} {level : Nat} {t : Ty} {ls : List String} {chain : List Block}

/-! ## Expressions -/

theorem callText_piece (hd : d.Tidy) (hf : ∀ i, f = .func i → C i) (hargs : ∀ a ∈ args, Piece C a) :
    Writes (callText d f args) (Piece C) := by
  cases f with
  | builtin f =>
    rw [callText]
    split
    · next s hs => exact writes_ok (hd.builtinCall hargs hs)
    · split
      · exact writes_ok (nestCalls_piece (hd.builtins f C) hargs)
      · exact writes_ok (plainCall_piece (hd.builtins f C) hargs)
  | func i =>
    refine writes_ok (plainCall_piece (piece_funcName (hf i rfl)) ?_)
    exact forall_mem_append.mpr ⟨hd.implicitArgs C, hargs⟩
  | _ => exact writes_error

theorem exprTexts_writes (h : ∀ e ∈ es, Writes (exprText d body e) (P e)) :
    Writes (exprTexts d body es) (List.Forall₂ P es) := by
  induction es with
  | nil => exact writes_ok .nil
  | cons e es ih =>
    rw [forall_mem_cons] at h
    exact h.1.bind fun _ hs => (ih h.2).bind fun _ hss => writes_ok (.cons hs hss)

theorem exprTexts_piece (h : ∀ e ∈ es, Writes (exprText d body e) (Piece C)) :
    Writes (exprTexts d body es) fun ss => ∀ s ∈ ss, Piece C s := by
  refine (exprTexts_writes h).imp fun ss hss => ?_
  induction hss with
  | nil => exact forall_mem_nil _
  | cons hs _ ih => exact forall_mem_cons.mpr ⟨hs, ih (forall_mem_cons.mp h).2⟩

/-- **An expression is written with the names of the functions it mentions.** -/
theorem exprText_piece (e : Expr) (hd : d.Tidy) (h : ∀ i, Expr.Contains (.func i) e → C i) :
    Writes (exprText d body e) (Piece C) := by
  have ih : ∀ o ∈ e.operands, Writes (exprText d body o) (Piece C) := fun o ho =>
    exprText_piece o hd fun i hi => h i (.operand ho hi)
  cases e with
  | blank => exact writes_error
  | number c k => exact writes_ok (piece_of_lacks (lacks_literal c))
  | uniform i => exact writes_ok (piece_of_lacks (hd.uniforms i))
  | texture i => exact writes_ok (piece_of_lacks (lacks_numbered "T" i))
  | localVar i => exact writes_ok (piece_of_lacks (hd.slots _))
  | member i => exact writes_ok (piece_of_lacks (lacks_numbered "M" i))
  | builtin f => exact writes_ok (hd.builtins f C)
  | swizzle s =>
    rw [exprText]
    split
    · next hs => exact writes_ok (piece_of_lacks (lacks_swizzle hs (by decide)))
    · exact writes_error
  | func i => exact writes_ok (piece_funcName (h i .self))
  | unary op e =>
    have he := ih e mem_cons_self
    cases op with
    | add | sub | not =>
      refine he.bind fun _ h => writes_ok ?_
      exact ((piece_of_quiet).glue h).trail
    | _ => exact writes_error
  | binary op l r =>
    refine (ih l (by simp [Expr.operands])).bind fun _ hl => (ih r (by simp [Expr.operands])).bind fun _ hr => ?_
    exact writes_ok (hd.binary hl hr)
  | select c t f =>
    refine (ih c (by simp [Expr.operands])).bind fun _ hc => (ih t (by simp [Expr.operands])).bind fun _ ht => ?_
    refine (ih f (by simp [Expr.operands])).bind fun _ hf => writes_ok ?_
    exact (((hc.lead).glue ht).glue hf).trail
  | call f args =>
    have hargs := exprTexts_piece fun e he => ih e (mem_cons_of_mem _ he)
    exact hargs.bind fun _ hss => callText_piece hd (fun i hi => h i (.operand mem_cons_self (hi ▸ .self))) hss
  | field b n =>
    refine (ih b (by simp [Expr.operands])).bind fun _ hb => (ih n (by simp [Expr.operands])).bind fun _ hn => ?_
    exact writes_ok ((hb.lead).glue hn)
  | index b i =>
    refine (ih b (by simp [Expr.operands])).bind fun _ hb => (ih i (by simp [Expr.operands])).bind fun _ hi => ?_
    exact writes_ok (((hb.lead).glue hi).trail)
termination_by sizeOf e
decreasing_by exact Expr.sizeOf_operand_lt ho

/-! ## Statements -/

theorem toList_tabs (n : Nat) : (tabs n).toList = replicate n '\t' := by
  rw [tabs, String.pushn_eq_repeat_push]
  induction n with
  | zero => rfl
  | succ n ih => rw [Nat.repeat, String.toList_push, ih, replicate_succ']

structure Indented (C : Nat → Prop) (line : String) : Prop where
  piece : Piece C line
  tab : line.toList.head? = some '\t'

theorem Piece.indented (h : Piece C s) (hlevel : 0 < level) : Indented C (tabs level ++ s) where
  piece := by
    have htabs : lacks nameOrBreak (tabs level) = true := by
      rw [lacks, toList_tabs, all_replicate]
      simp [nameOrBreak]
    refine (piece_of_lacks htabs).append h (.inl fun c hc => ?_)
    rw [toList_tabs] at hc
    obtain rfl := eq_of_mem_replicate (mem_of_getLast? hc)
    decide
  tab := by
    obtain ⟨n, rfl⟩ := Nat.exists_eq_add_of_lt hlevel
    rw [String.toList_append, toList_tabs, Nat.zero_add, replicate_succ]
    rfl

theorem lacks_op (op : Op) : lacks nameOrBreak op.text = true := by
  cases op <;> decide

theorem varDecl_lacks (hd : d.Tidy) (h : lacks nameOrBreak name = true) :
    Writes (d.varDecl t name) (lacks nameOrBreak · = true) := by
  refine (hd.types t).bind fun x hx => writes_ok ?_
  simp only [lacks_append, lacks_nameOrBreak hx.1, lacks_nameOrBreak hx.2, h]
  decide

theorem initLines_lacks (hd : d.Tidy) (h : lacks nameOrBreak name = true) :
    Writes (d.initLines name t declare) fun ls => ∀ l ∈ ls, lacks nameOrBreak l = true := by
  have hdecl := varDecl_lacks (t := t) hd h
  unfold Dialect.initLines
  by_cases hnone : t.isNone = true
  · rw [if_pos hnone]
    exact writes_ok (forall_mem_nil _)
  rw [if_neg hnone]
  by_cases harray : t.tag = .array ∧ (!d.arraysAreValues) = true
  · -- an array is set element by element
    rw [if_pos harray]
    have helems : ∀ zero, lacks nameOrBreak zero = true →
        ∀ l ∈ (range t.length).map fun i => s!"{name}[{i}] = {zero};", lacks nameOrBreak l = true := by
      intro zero hz l hl
      obtain ⟨i, -, rfl⟩ := List.mem_map.mp hl
      change lacks nameOrBreak (name ++ "[" ++ toString i ++ "] = " ++ zero ++ ";") = true
      simp only [lacks_append, h, hz, lacks_nat (show nameOrBreak.all (!Char.isDigit ·) = true by decide)]
      decide
    cases t.elem? with
    | none => exact writes_error
    | some e =>
      refine (hd.zeros e).bind fun zero hz => ?_
      cases declare with
      | false => exact writes_ok (helems zero hz)
      | true =>
        refine hdecl.bind fun _ hv => writes_ok (forall_mem_cons.mpr ⟨?_, helems zero hz⟩)
        rw [lacks_append, hv]
        decide
  · rw [if_neg harray]
    have hline : ∀ target zero, lacks nameOrBreak target = true → lacks nameOrBreak zero = true →
        ∀ l ∈ [target ++ " = " ++ zero ++ ";"], lacks nameOrBreak l = true := by
      intro target zero ht hz
      rw [forall_mem_singleton]
      simp only [lacks_append, ht, hz]
      decide
    refine (hd.zeros t).bind fun zero hz => ?_
    cases declare with
    | false => exact writes_ok (hline _ _ h hz)
    | true => exact hdecl.bind fun _ hv => writes_ok (hline _ _ hv hz)

theorem indentedAll (hlevel : 0 < level) (h : ∀ l ∈ ls, Piece C l) : ∀ l ∈ ls.map (tabs level ++ ·), Indented C l := by
  rw [List.forall_mem_map]
  exact fun l hl => (h l hl).indented hlevel

theorem declLines_indented (hd : d.Tidy) (hlevel : 0 < level) :
    Writes (declLines d body level i ts) fun ls => ∀ l ∈ ls, Indented C l := by
  induction ts generalizing i with
  | nil => exact writes_ok (forall_mem_nil _)
  | cons t ts ih =>
    refine (initLines_lacks hd (hd.slots _)).bind fun ls hls => ih.bind fun _ hrest => writes_ok ?_
    exact forall_mem_append.mpr ⟨indentedAll hlevel fun l hl => piece_of_lacks (hls l hl), hrest⟩

theorem stmt_initLines_indented (hd : d.Tidy) (hlevel : 0 < level) :
    Writes (initLines d body level chain i) fun ls => ∀ l ∈ ls, Indented C l := by
  unfold initLines
  split
  · exact writes_ok (forall_mem_nil _)
  · refine Writes.bind (P := fun _ => True) (fun _ _ => trivial) fun t _ => ?_
    refine (initLines_lacks hd (hd.slots _)).bind fun ls hls => writes_ok ?_
    exact indentedAll hlevel fun l hl => piece_of_lacks (hls l hl)

theorem assignLines_indented (hlevel : 0 < level) (hl : Writes (exprText d body l) (Piece C))
    (hr : Writes (exprText d body r) (Piece C)) :
    Writes (assignLines d body level chain l r) fun ls => ∀ x ∈ ls, Indented C x := by
  refine hl.bind fun ltext hleft => hr.bind fun rtext hright => ?_
  have hwhole : ∀ x ∈ [tabs level ++ ltext ++ " = " ++ rtext ++ ";"], Indented C x := by
    rw [forall_mem_singleton]
    have := ((hleft.glue (s := " = ") hright).trail (s := ";")).indented hlevel
    simpa only [String.append_assoc] using this
  dsimp only
  split
  · split
    · exact writes_ok hwhole
    · refine Writes.bind (P := fun _ => True) (fun _ _ => trivial) fun t _ => ?_
      split
      · refine writes_ok (List.forall_mem_map.mpr fun k _ => Piece.indented ?_ hlevel)
        have hk : Piece C (toString k) := piece_of_lacks (lacks_nat (by decide) k)
        have helem := hleft.glue (s := "[") hk
        have hboth := helem.glue (s := "] = ") hright
        exact (hboth.glue (s := "[") hk).trail (s := "];")
      · exact writes_ok hwhole
  · exact writes_ok hwhole

theorem stepText_lacks (hv : lacks nameOrBreak v = true) :
    Writes (stepText v step) (lacks nameOrBreak · = true) := by
  unfold stepText
  split
  · exact writes_error
  · split
    · refine writes_ok ?_
      rw [lacks_append, hv]
      split <;> decide
    · split
      · refine writes_ok ?_
        simp only [lacks_append, hv, lacks_literal]
        decide
      · split
        · refine writes_ok ?_
          simp only [lacks_append, hv, lacks_literal]
          decide
        · exact writes_error

theorem loopHead_lacks (c : Counter) (hd : d.Tidy) : Writes (loopHead d body c) (lacks nameOrBreak · = true) := by
  have hv : lacks nameOrBreak (localName d body c.index) = true := hd.slots _
  unfold loopHead
  split
  · exact writes_error
  · refine (stepText_lacks hv).bind fun step hstep => (varDecl_lacks hd hv).bind fun decl hdecl => writes_ok ?_
    change lacks nameOrBreak ("for (" ++ decl ++ " = " ++ c.start.literal ++ "; " ++ localName d body c.index ++ " " ++
      c.op.text ++ " " ++ c.stop.literal ++ "; " ++ step ++ ") \x7b") = true
    simp only [lacks_append, hv, hstep, hdecl, lacks_literal, lacks_op]
    decide

/-- A pair of braces with lines between them. -/
theorem braced {head : String} (hlevel : 0 < level) (hhead : Piece C head) (h : ∀ l ∈ ls, Indented C l) :
    ∀ l ∈ (tabs level ++ head) :: (ls ++ [tabs level ++ "\x7d"]), Indented C l := by
  rw [forall_mem_cons, forall_mem_append, forall_mem_singleton]
  exact ⟨hhead.indented hlevel, h, (piece_of_quiet).indented hlevel⟩

mutual

/-- **A block is written in indented lines, with the names of the functions it mentions.** -/
theorem blockLines_indented (b : Block) {level : Nat} {chain : List Block} (hd : d.Tidy) (hlevel : 0 < level)
    (h : ∀ i, Block.Contains (.func i) b → C i) :
    Writes (blockLines d body level chain b) fun ls => ∀ l ∈ ls, Indented C l := by
  cases b with
  | mk vars offset ss =>
    have hdecls : Writes (declLines d body level offset vars) fun ls => ∀ l ∈ ls, Indented C l :=
      declLines_indented hd hlevel
    refine hdecls.bind fun _ hdecls => ?_
    refine Writes.bind (stmtsLines_indented ss hd hlevel ?_ ?_) fun _ hrest => writes_ok ?_
    · exact fun s hs e he i hi => h i (.own hs he hi)
    · exact fun s hs c hc i hi => h i (.inner hs hc hi)
    · exact forall_mem_append.mpr ⟨hdecls, hrest⟩

theorem stmtsLines_indented (ss : List Stmt) {level : Nat} {chain : List Block} (hd : d.Tidy) (hlevel : 0 < level)
    (hown : ∀ s ∈ ss, ∀ e ∈ s.own, ∀ i, Expr.Contains (.func i) e → C i)
    (hinner : ∀ s ∈ ss, ∀ c ∈ s.inner, ∀ i, Block.Contains (.func i) c → C i) :
    Writes (stmtsLines d body level chain ss) fun ls => ∀ l ∈ ls, Indented C l := by
  cases ss with
  | nil => exact writes_ok (forall_mem_nil _)
  | cons s ss =>
    rw [forall_mem_cons] at hown hinner
    refine (stmtLines_indented s hd hlevel hown.1 hinner.1).bind fun _ hs => ?_
    refine (stmtsLines_indented ss hd hlevel hown.2 hinner.2).bind fun _ hrest => writes_ok ?_
    exact forall_mem_append.mpr ⟨hs, hrest⟩

theorem stmtLines_indented (s : Stmt) {level : Nat} {chain : List Block} (hd : d.Tidy) (hlevel : 0 < level)
    (hown : ∀ e ∈ s.own, ∀ i, Expr.Contains (.func i) e → C i)
    (hinner : ∀ c ∈ s.inner, ∀ i, Block.Contains (.func i) c → C i) :
    Writes (stmtLines d body level chain s) fun ls => ∀ l ∈ ls, Indented C l := by
  have hexpr : ∀ e ∈ s.own, Writes (exprText d body e) (Piece C) := fun e he => exprText_piece e hd (hown e he)
  cases s with
  | expr e =>
    refine (hexpr e mem_cons_self).bind fun _ he => writes_ok (forall_mem_singleton.mpr ?_)
    simpa only [String.append_assoc] using (he.trail (s := ";")).indented hlevel
  | block b =>
    refine (blockLines_indented b hd level.succ_pos (hinner b mem_cons_self)).bind fun _ hb => writes_ok ?_
    exact braced hlevel (piece_of_quiet) hb
  | assign l r =>
    exact assignLines_indented hlevel (hexpr l (by simp [Stmt.own])) (hexpr r (by simp [Stmt.own]))
  | init i => exact stmt_initLines_indented hd hlevel
  | branch c t f =>
    have hhead : ∀ text, Piece C text → Piece C ("if (" ++ text ++ ") \x7b") := fun text h =>
      (h.lead).trail
    cases f with
    | none =>
      refine (hexpr c mem_cons_self).bind fun text hc => ?_
      refine (blockLines_indented t hd level.succ_pos (hinner t mem_cons_self)).bind fun _ ht => writes_ok ?_
      simpa only [String.append_assoc] using braced hlevel (hhead text hc) ht
    | some f =>
      refine (hexpr c mem_cons_self).bind fun text hc => ?_
      refine (blockLines_indented t hd level.succ_pos (hinner t (by simp [Stmt.inner]))).bind fun _ ht => ?_
      refine (blockLines_indented f hd level.succ_pos (hinner f (by simp [Stmt.inner]))).bind fun _ hf => ?_
      refine writes_ok ?_
      have helse : Indented C (tabs level ++ "\x7d else \x7b") := (piece_of_quiet).indented hlevel
      have hlines := forall_mem_append.mpr
        ⟨forall_mem_append.mpr ⟨ht, forall_mem_singleton.mpr helse⟩, hf⟩
      simpa only [String.append_assoc] using braced hlevel (hhead text hc) hlines
  | loop c b =>
    refine (loopHead_lacks c hd).bind fun _ hhead => ?_
    refine (blockLines_indented b hd level.succ_pos (hinner b mem_cons_self)).bind fun _ hb => writes_ok ?_
    exact braced hlevel (piece_of_lacks hhead) hb
  | next | leave => exact writes_ok (forall_mem_singleton.mpr ((piece_of_quiet).indented hlevel))
  | ret v =>
    cases v with
    | none => exact writes_ok (forall_mem_singleton.mpr ((hd.returnLine _ (by simp)).indented hlevel))
    | some e =>
      refine (hexpr e mem_cons_self).bind fun _ he => writes_ok (forall_mem_singleton.mpr ?_)
      exact (hd.returnLine _ (by simpa using he)).indented hlevel
  | discard => exact writes_ok (indentedAll hlevel (hd.discardLines C))

end

theorem bodyLines_indented (hd : d.Tidy) (h : ∀ i, Block.Contains (.func i) body.top → C i) :
    Writes (bodyLines d body) fun ls => ∀ l ∈ ls, Indented C l :=
  blockLines_indented body.top hd Nat.one_pos h

end

/-! ## GLSL -/

theorem plainName_lacks (h : ∀ tag, lacks typeBreaks (name tag) = true) (t : Ty) :
    Writes (plainName name t) (lacks typeBreaks · = true) := by
  unfold plainName
  split
  all_goals first | exact writes_error | exact writes_ok (h _)

theorem suffixParts_lacks (h : ∀ tag, lacks typeBreaks (name tag) = true) (t : Ty) :
    Writes (suffixParts name t) fun x => lacks typeBreaks x.1 = true ∧ lacks typeBreaks x.2 = true := by
  fun_induction suffixParts name t with
  | case1 t ts n ih =>
    refine ih.bind fun x hx => writes_ok ⟨hx.1, ?_⟩
    change lacks typeBreaks ("[" ++ toString n ++ "]" ++ x.2) = true
    simp only [lacks_append, hx.2, lacks_nat (show typeBreaks.all (!Char.isDigit ·) = true by decide)]
    decide
  | case2 t _ => exact (plainName_lacks h t).bind fun _ hx => writes_ok ⟨hx, rfl⟩

namespace Glsl

theorem zeroValue_lacks (t : Ty) : Writes (zeroValue t) (lacks nameOrBreak · = true) := by
  have hname : ∀ tag, lacks typeBreaks (typeName tag) = true := by
    intro tag
    cases tag <;> decide
  fun_induction zeroValue t with
  | case1 | case2 => exact writes_ok (by decide)
  | case3 => exact writes_error
  | case4 t ts n ih =>
    refine ih.bind fun zero hz => (suffixParts_lacks hname _).bind fun x hx => writes_ok ?_
    have hzeros : lacks nameOrBreak (", ".intercalate (replicate n zero)) = true :=
      lacks_intercalate (by decide) fun s hs => eq_of_mem_replicate hs ▸ hz
    simp only [plainCall, lacks_append, lacks_nameOrBreak hx.1, lacks_nameOrBreak hx.2, hzeros]
    decide
  | case5 t _ _ _ _ =>
    refine (plainName_lacks hname t).bind fun _ hx => writes_ok ?_
    rw [lacks_append, lacks_nameOrBreak hx]
    decide

theorem dialect_tidy (version : GlslVersion) (unit : CoordUnit) : (dialect version unit).Tidy where
  types := suffixParts_lacks fun tag => by cases tag <;> decide
  zeros := zeroValue_lacks
  slots := by
    intro s
    rcases s with i | _ | i | i
    · exact lacks_numbered "A" i
    · exact (show lacks nameOrBreak "gl_Position" = true by decide)
    · exact lacks_numbered "V" i
    · exact lacks_numbered "l" i
  uniforms := lacks_numbered "U"
  builtins := by
    intro f C
    have hquiet : isQuiet (builtinName unit f) = true := by cases unit <;> cases f <;> decide
    exact piece_of_quiet hquiet
  binary := by
    intro C op l r hl hr
    change Piece C (binary version op l r)
    unfold binary
    split
    · exact ((hl.lead (s := "modInt((")).glue hr).trail
    · have hop : Piece C op.text := piece_of_lacks (lacks_op op)
      have hleft := (hl.lead (s := "(")).glue (s := ") ") hop
      exact (hleft.glue (s := " (") hr).trail
  builtinCall := by
    intro C f args s hargs h
    change builtinCall unit f args = some s at h
    unfold builtinCall at h
    split at h
    · next tex pos =>
      have htex := hargs tex mem_cons_self
      have hpos := hargs pos (mem_cons_of_mem _ mem_cons_self)
      split at h
      · cases h
        exact ((htex.lead (s := "texture(")).glue hpos).trail
      · cases h
        exact ((htex.lead (s := "texelFetch(")).glue hpos).trail
    · cases h
      exact piece_of_quiet
    · cases h
  implicitArgs := fun _ => forall_mem_nil _
  returnLine := by
    intro C v k hv
    cases v with
    | none => exact piece_of_quiet (s := "return;")
    | some s => exact ((hv s rfl).lead (s := "return ")).trail (s := ";")
  discardLines := by
    intro C l hl
    have hall : ["discard;", "return vec4(0.0);"].all isQuiet = true := by decide
    exact piece_of_quiet (List.all_eq_true.mp hall l hl)

end Glsl

end GameMedia.Shader.Target
