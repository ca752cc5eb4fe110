import GameMedia.Shader.Directive
import GameMedia.Shader.Surface.Parser.File
import GameMedia.Proofs.Shader.Tokens

/-!
# Directives and tokens

The unit directive is read line by line from the source text, while everything else is read from tokens. Here the two
are brought together. A text is cut into the pieces that its lexemes stand for, and each piece says what it means for
the directive: a comment that is first on its line may be one, and the token `package` ends the part of the text where
one may stand.

The lines and the pieces agree as long as no line that begins inside a piece looks like a directive or a clause, and
the first `package` begins its line and is a word of its own there.
-/

namespace GameMedia

open List Prod

/-! ## Lines of a text in parts -/

namespace Text

variable {text cs : List Char}

def firstLine (cs : List Char) : List Char := cs.takeWhile (· ≠ '\n')

/-- The lines that begin inside a text. The last of them goes on in what is behind it. -/
def linesWithin : List Char → List Char → List (List Char)
  | [], _ => []
  | c :: text, rest => (if c = '\n' then [firstLine (text ++ rest)] else []) ++ linesWithin text rest

theorem lines_eq (cs : List Char) : lines cs = firstLine cs :: linesWithin cs [] := by
  induction cs with
  | nil => rfl
  | cons c cs ih =>
    rw [lines, ih, linesWithin, append_nil]
    by_cases hc : c = '\n'
    · rw [if_pos hc, if_pos hc, hc]
      rfl
    · rw [if_neg hc, if_neg hc, firstLine, firstLine, takeWhile_cons_of_pos (by simpa using hc)]
      rfl

theorem linesWithin_append (text text' rest : List Char) :
    linesWithin (text ++ text') rest = linesWithin text (text' ++ rest) ++ linesWithin text' rest := by
  induction text with
  | nil => rfl
  | cons c text ih => rw [cons_append, linesWithin, linesWithin, ih, append_assoc, append_assoc]

theorem linesWithin_eq_nil (h : '\n' ∉ text) (rest : List Char) : linesWithin text rest = [] := by
  induction text with
  | nil => rfl
  | cons c text ih =>
    rw [mem_cons, not_or] at h
    rw [linesWithin, if_neg (Ne.symm h.1), nil_append, ih h.2]

theorem firstLine_append (h : '\n' ∉ text) (rest : List Char) : firstLine (text ++ rest) = text ++ firstLine rest := by
  refine takeWhile_append_of_pos fun c hc => ?_
  simpa using ne_of_mem_of_not_mem hc h

theorem not_mem_firstLine (cs : List Char) : '\n' ∉ firstLine cs := by
  intro hmem
  simpa using mem_takeWhile_imp hmem

theorem exists_firstLine_append (cs : List Char) : ∃ tail, cs = firstLine cs ++ tail ∧ firstLine tail = [] := by
  refine ⟨cs.dropWhile (· ≠ '\n'), takeWhile_append_dropWhile.symm, ?_⟩
  rw [firstLine, takeWhile_eq_nil_iff]
  intro hlen
  exact dropWhile_get_zero_not _ _ hlen

/-! ## Trimming -/

def trimEnd (cs : List Char) : List Char := (cs.reverse.dropWhile isWhiteSpace).reverse

theorem trim_eq (cs : List Char) : trim cs = trimEnd (cs.dropWhile isWhiteSpace) := rfl

theorem trim_append_left (h : ∀ c ∈ blanks, isWhiteSpace c = true) (cs : List Char) :
    trim (blanks ++ cs) = trim cs := by
  rw [trim_eq, trim_eq, dropWhile_append_of_pos h]

theorem trim_of_head (hc : isWhiteSpace c = false) (cs : List Char) : trim (c :: cs) = trimEnd (c :: cs) := by
  rw [trim_eq, dropWhile_cons_of_neg (by simp [hc])]

theorem trimEnd_prefix (cs : List Char) : trimEnd cs <+: cs := by
  rw [trimEnd, ← reverse_suffix, reverse_reverse]
  exact dropWhile_suffix _

theorem trimEnd_eq_nil : trimEnd cs = [] ↔ ∀ c ∈ cs, isWhiteSpace c = true := by
  rw [trimEnd, reverse_eq_nil_iff, dropWhile_eq_nil_iff]
  simp only [mem_reverse]

theorem trimEnd_append {start : List Char} (h : ∀ c ∈ start.getLast?, isWhiteSpace c = false) (cs : List Char) :
    trimEnd (start ++ cs) = start ++ trimEnd cs := by
  have hstart : start.reverse.dropWhile isWhiteSpace = start.reverse := by
    rw [dropWhile_eq_self_iff]
    intro hlen
    rw [h _ (by rw [← head?_reverse, head?_eq_getElem?, List.getElem?_eq_getElem hlen]; rfl)]
    exact Bool.false_ne_true
  rw [trimEnd, trimEnd, reverse_append, dropWhile_append, hstart]
  split
  · next hnil =>
    rw [List.isEmpty_iff] at hnil
    rw [hnil, reverse_reverse, reverse_nil, append_nil]
  · rw [reverse_append, reverse_reverse]

theorem trimEnd_of_head {c : Char} (hc : isWhiteSpace c = false) (cs : List Char) :
    trimEnd (c :: cs) = c :: trimEnd cs := by
  have hlast : ∀ d ∈ [c].getLast?, isWhiteSpace d = false := by simpa using hc
  exact trimEnd_append hlast cs

theorem trimEnd_cons (h : trimEnd cs ≠ []) (c : Char) : trimEnd (c :: cs) = c :: trimEnd cs := by
  have hne : (cs.reverse.dropWhile isWhiteSpace).isEmpty = false := by
    rw [isEmpty_eq_false_iff]
    exact fun hnil => h (by rw [trimEnd, hnil, reverse_nil])
  rw [trimEnd, trimEnd, reverse_cons, dropWhile_append, hne]
  simp

theorem trim_eq_nil : trim cs = [] ↔ trimEnd cs = [] := by
  rw [trim_eq, trimEnd_eq_nil, trimEnd_eq_nil]
  induction cs with
  | nil => rfl
  | cons c cs ih =>
    by_cases hc : isWhiteSpace c = true
    · rw [dropWhile_cons_of_pos hc, ih, forall_mem_cons, and_iff_right hc]
    · rw [dropWhile_cons_of_neg hc]

theorem trim_trimEnd (cs : List Char) : trim (trimEnd cs) = trim cs := by
  induction cs with
  | nil => rfl
  | cons c cs ih =>
    by_cases hc : isWhiteSpace c = true
    · have hblank : ∀ d ∈ [c], isWhiteSpace d = true := by simpa using hc
      by_cases hcs : trimEnd cs = []
      · have hall : trimEnd (c :: cs) = [] :=
          trimEnd_eq_nil.mpr (forall_mem_cons.mpr ⟨hc, trimEnd_eq_nil.mp hcs⟩)
        rw [hall, trim_eq_nil.mpr hall]
        rfl
      · rw [trimEnd_cons hcs, ← singleton_append, trim_append_left hblank, ih, ← singleton_append,
          trim_append_left hblank]
    · rw [Bool.not_eq_true] at hc
      rw [trim_of_head hc, trimEnd_of_head hc, trim_of_head hc, trimEnd_of_head hc, trimEnd, trimEnd, reverse_reverse,
        dropWhile_idempotent]

theorem after?_eq_some : after? start cs = some rest ↔ cs = start.toList ++ rest := by
  rw [after?]
  constructor
  · intro h
    split at h
    · next hpre =>
      obtain ⟨tail, rfl⟩ := isPrefixOf_iff_prefix.mp hpre
      rw [← String.length_toList, drop_left] at h
      rw [Option.some.inj h]
    · cases h
  · rintro rfl
    rw [if_pos ( isPrefixOf_iff_prefix.mpr (prefix_append _ _)), ← String.length_toList, drop_left]

theorem after?_trimEnd (h : ∀ c ∈ start.toList.getLast?, isWhiteSpace c = false) (cs : List Char) :
    after? start (trimEnd cs) = (after? start cs).map trimEnd := by
  ext rest
  rw [Option.map_eq_some_iff, after?_eq_some]
  constructor
  · intro heq
    obtain ⟨blanks, hcs⟩ := trimEnd_prefix cs
    rw [heq, append_assoc] at hcs
    refine ⟨rest ++ blanks, after?_eq_some.mpr hcs.symm, ?_⟩
    rw [← hcs, trimEnd_append h] at heq
    exact append_cancel_left heq
  · rintro ⟨rest, hrest, rfl⟩
    rw [after?_eq_some.mp hrest, trimEnd_append h]

end Text

namespace Shader

/-! ## Classes of lines -/

namespace Directive

open Text (after? firstLine isWhiteSpace linesWithin trim trimEnd)

/-- The value of a comment that is a unit directive: white space divides it from the words before. -/
def unitComment? (text : List Char) : Option String :=
  match after? "//kage:unit" text with
  | some (c :: cs) => if isWhiteSpace c = true ∧ trim cs ≠ [] then some (String.ofList (trim cs)) else none
  | _ => none

def wordEnds (rest : List Char) : Bool :=
  rest.all isWhiteSpace || rest.head? == some ' ' || rest.head? == some '\t'

theorem endsWord_trimEnd (h : wordEnds rest = true) : endsWord (trimEnd rest) = true := by
  simp only [wordEnds, Bool.or_eq_true, List.all_eq_true, beq_iff_eq, or_assoc] at h
  by_cases hnil : trimEnd rest = []
  · rw [hnil]
    rfl
  · cases rest with
    | nil => exact absurd rfl hnil
    | cons c rest =>
      have hc : c = ' ' ∨ c = '\t' := by
        rcases h with hall | hhead
        · exact absurd (Text.trimEnd_eq_nil.mpr hall) hnil
        · simpa using hhead
      obtain ⟨blanks, hpre⟩ := Text.trimEnd_prefix (c :: rest)
      cases htrim : trimEnd (c :: rest) with
      | nil => exact absurd htrim hnil
      | cons d ds =>
        rw [htrim] at hpre
        obtain ⟨rfl, -⟩ := List.cons.inj hpre
        simpa [endsWord] using hc

theorem unitValue?_trimEnd (c : Char) (cs : List Char) : unitValue? (trimEnd (c :: cs)) =
    if isWhiteSpace c = true ∧ trim cs ≠ [] then some (String.ofList (trim cs)) else none := by
  by_cases hcs : trimEnd cs = []
  · rw [if_neg fun h => h.2 (Text.trim_eq_nil.mpr hcs)]
    by_cases hc : isWhiteSpace c = true
    · have hall : trimEnd (c :: cs) = [] :=
        Text.trimEnd_eq_nil.mpr (forall_mem_cons.mpr ⟨hc, Text.trimEnd_eq_nil.mp hcs⟩)
      rw [hall]
      rfl
    · rw [Text.trimEnd_of_head (eq_false_of_ne_true hc), unitValue?, if_neg hc]
  · have hne : trim cs ≠ [] := fun h => hcs (Text.trim_eq_nil.mp h)
    rw [Text.trimEnd_cons hcs, unitValue?, Text.trim_trimEnd]
    simp only [hne, ne_eq, not_false_eq_true, and_true]

theorem not_isWhiteSpace_package : ∀ c ∈ "package".toList.getLast?, isWhiteSpace c = false := by
  rintro c ⟨⟩
  decide

theorem not_isWhiteSpace_unit : ∀ c ∈ "//kage:unit".toList.getLast?, isWhiteSpace c = false := by
  rintro c ⟨⟩
  decide

section

variable {c : Char} {cs : List Char}

/-- A line that begins with `package`. -/
theorem classify_of_package (hc : isWhiteSpace c = false) (h : after? "package" (c :: cs) = some rest) :
    classify (trim (c :: cs)) = if endsWord (trimEnd rest) then .package else .other := by
  rw [Text.trim_of_head hc, classify, Text.after?_trimEnd not_isWhiteSpace_package, h]
  rfl

/-- A line that begins with something else, and not with white space. -/
theorem classify_of_not_package (hc : isWhiteSpace c = false) (h : after? "package" (c :: cs) = none) :
    classify (trim (c :: cs)) = ((unitComment? (c :: cs)).map .unit).getD .other := by
  rw [Text.trim_of_head hc, classify, Text.after?_trimEnd not_isWhiteSpace_package,
    Text.after?_trimEnd not_isWhiteSpace_unit, h, unitComment?]
  cases after? "//kage:unit" (c :: cs) with
  | none => rfl
  | some rest =>
    cases rest with
    | nil => rfl
    | cons d rest =>
      dsimp only [Option.map_none, Option.map_some, Option.bind_some]
      rw [unitValue?_trimEnd]
      by_cases hvalue : isWhiteSpace d = true ∧ trim rest ≠ []
      · rw [if_pos hvalue]
        rfl
      · rw [if_neg hvalue]
        rfl

end

end Directive

/-! ## Pieces of a text -/

namespace Scan

open Text (firstLine isWhiteSpace)

variable {cs : List Char}

/-- A stretch of a text with the lexeme that it is. -/
structure Piece where
  lexeme : Lexeme
  text : List Char

/-- The pieces that a text is cut into, up to where no lexeme begins. -/
def pieces (cs : List Char) : List Piece :=
  match cs with
  | [] => []
  | c :: rest =>
    match lexeme (c :: rest) with
    | none => []
    | some (l, n) => ⟨l, (c :: rest).take n⟩ :: pieces (rest.drop (n - 1))
termination_by cs.length
decreasing_by simp only [List.length_drop, List.length_cons]; omega

def chars (ps : List Piece) : List Char := ps.flatMap Piece.text

/-- The pieces are those of the text. -/
inductive Cut : List Char → List Piece → Prop
  | nil : Cut [] []
  | cons {cs : List Char} {l : Lexeme} {n : Nat} {ps : List Piece} : lexeme cs = some (l, n) → Cut (cs.drop n) ps →
    Cut cs (⟨l, cs.take n⟩ :: ps)

theorem Cut.chars_eq (h : Cut cs ps) : chars ps = cs := by
  induction h with
  | nil => rfl
  | @cons cs l n ps hl hps ih =>
    have hcons : chars (⟨l, cs.take n⟩ :: ps) = cs.take n ++ chars ps := rfl
    rw [hcons, ih, take_append_drop]

theorem cut_pieces (h : lexemesFrom offset cs = .ok ls) : Cut cs (pieces cs) := by
  fun_induction lexemesFrom offset cs generalizing ls with
  | case1 =>
    rw [pieces]
    exact .nil
  | case2 => cases h
  | case3 offset c rest l n hlexeme ls' hrest ih =>
    have hdrop : rest.drop (n - 1) = (c :: rest).drop n := by
      obtain ⟨m, rfl⟩ := Nat.exists_eq_add_of_lt (reads_lexeme hlexeme).1
      rw [Nat.zero_add, drop_succ_cons, Nat.add_sub_cancel]
    rw [pieces, hlexeme]
    exact .cons hlexeme (hdrop ▸ ih hrest)
  | case4 => cases h

/-! ### What begins a lexeme -/

section

variable {c : Char} {cs : List Char} {l : Lexeme} {n : Nat} {t : Token}

theorem isWhiteSpace_of_isBlank (h : isBlank c = true) : isWhiteSpace c = true := by
  simp only [isBlank, Bool.or_eq_true, decide_eq_true_eq] at h
  rcases h with ((rfl | rfl) | rfl) | rfl
  all_goals decide

theorem not_isWhiteSpace_of_le (hlo : 0x21 ≤ lo.toNat) (hhi : hi.toNat ≤ 0x84) (h : lo ≤ c ∧ c ≤ hi) :
    isWhiteSpace c = false := by
  have hc : 0x21 ≤ c.toNat ∧ c.toNat ≤ 0x84 := ⟨le_trans hlo h.1, le_trans h.2 hhi⟩
  simp only [isWhiteSpace, Text.whiteSpaceRanges, any_cons, any_nil, Bool.or_false, Bool.or_eq_false_iff,
    Bool.and_eq_false_iff, decide_eq_false_iff_not]
  omega

theorem not_isWhiteSpace_of_isDigit (h : isDigit c = true) : isWhiteSpace c = false := by
  simp only [isDigit, Bool.and_eq_true, decide_eq_true_eq] at h
  exact not_isWhiteSpace_of_le (by decide) (by decide) h

theorem not_isWhiteSpace_of_isLetter (h : isLetter c = true) : isWhiteSpace c = false := by
  simp only [isLetter, Bool.or_eq_true, Bool.and_eq_true, decide_eq_true_eq] at h
  rcases h with (h | h) | rfl
  · exact not_isWhiteSpace_of_le (by decide) (by decide) h
  · exact not_isWhiteSpace_of_le (by decide) (by decide) h
  · decide

theorem not_isWhiteSpace_of_isWordChar (h : isWordChar c = true) : isWhiteSpace c = false := by
  rcases Bool.or_eq_true_iff.mp h with h | h
  · exact not_isWhiteSpace_of_isLetter h
  · exact not_isWhiteSpace_of_isDigit h

theorem symbolLexeme_head (h : symbolLexeme (c :: cs) = some r) : isWhiteSpace c = false := by
  obtain ⟨⟨text, s⟩, hfind, -⟩ := Option.map_eq_some_iff.mp h
  have hfirst := find?_some hfind
  have hpre : text <+: c :: cs := isPrefixOf_iff_prefix.mp hfirst
  obtain ⟨s', -, hs'⟩ := mem_map.mp (List.mem_of_find?_eq_some hfind)
  obtain ⟨rfl, rfl⟩ := mk.inj hs'
  obtain ⟨rest, hrest⟩ := hpre
  cases s'
  all_goals
    obtain ⟨rfl, -⟩ := cons.inj hrest
    decide

theorem map_token {α : Type} {x : Option α} {f : α → Lexeme × Nat} (hf : ∀ a, ∃ t, (f a).1 = .token t)
    (h : x.map f = some r) : ∃ t, r.1 = .token t := by
  obtain ⟨a, -, rfl⟩ := Option.map_eq_some_iff.mp h
  exact hf a

/-- **How a lexeme begins**: a line break, blanks, one of the two comments, or a token, which begins with no white
space. -/
theorem lexeme_cases (h : lexeme (c :: cs) = some (l, n)) :
    (c = '\n' ∧ l = .lineBreak ∧ n = 1) ∨
    (isBlank c = true ∧ l = .blank ∧ n = 1 + runWidth isBlank cs) ∨
    (∃ rest, c :: cs = '/' :: '/' :: rest ∧ l = .blank ∧ n = 2 + runWidth (· ≠ '\n') rest) ∨
    (∃ rest b, c :: cs = '/' :: '*' :: rest ∧ l = .comment b) ∨
    (∃ t, l = .token t) ∧ isWhiteSpace c = false := by
  unfold lexeme at h
  split at h
  · cases h
  · next rest heq =>
    obtain ⟨rfl, rfl⟩ := mk.inj (Option.some.inj h)
    exact .inr (.inr (.inl ⟨rest, heq, rfl, rfl⟩))
  · next rest heq =>
    obtain ⟨m, -, hl⟩ := Option.map_eq_some_iff.mp h
    exact .inr (.inr (.inr (.inl ⟨rest, _, heq, (congrArg fst hl).symm⟩)))
  · next d rest heq =>
    obtain ⟨rfl, -⟩ := cons.inj heq
    refine .inr (.inr (.inr (.inr ⟨?_, by decide⟩)))
    split at h <;> exact map_token (fun _ => ⟨_, rfl⟩) h
  · next heq =>
    obtain ⟨rfl, rfl⟩ := cons.inj heq
    split at h
    · next hc =>
      obtain ⟨rfl, rfl⟩ := mk.inj (Option.some.inj h)
      exact .inl ⟨hc, rfl, rfl⟩
    · split at h
      · next hc =>
        obtain ⟨rfl, rfl⟩ := mk.inj (Option.some.inj h)
        exact .inr (.inl ⟨hc, rfl, rfl⟩)
      · refine .inr (.inr (.inr (.inr ?_)))
        split at h
        · next hc => exact ⟨⟨_, (congrArg fst (Option.some.inj h)).symm⟩, not_isWhiteSpace_of_isLetter hc⟩
        · split at h
          · next hc => exact ⟨map_token (fun _ => ⟨_, rfl⟩) h, not_isWhiteSpace_of_isDigit hc⟩
          · split at h
            · next hc => exact ⟨map_token (fun _ => ⟨_, rfl⟩) h, hc ▸ by decide⟩
            · split at h
              · next hc => exact ⟨map_token (fun _ => ⟨_, rfl⟩) h, hc ▸ by decide⟩
              · split at h
                · next hc => exact ⟨map_token (fun _ => ⟨_, rfl⟩) h, hc ▸ by decide⟩
                · exact ⟨map_token (fun _ => ⟨_, rfl⟩) h, symbolLexeme_head h⟩

theorem lexeme_package (h : ∀ d ∈ rest.head?, isWordChar d = false) :
    lexeme ("package".toList ++ rest) = some (.token (.keyword .package), 7) := by
  have hend : rest.takeWhile isWordChar = [] := by
    cases rest with
    | nil => rfl
    | cons d rest => exact takeWhile_cons_of_neg (by simp [h d rfl])
  have hwidth : runWidth isWordChar (['a', 'c', 'k', 'a', 'g', 'e'] ++ rest) = 6 := by
    rw [runWidth, takeWhile_append_of_pos (all_eq_true.mp rfl), hend]
    rfl
  have hlexeme : lexeme ("package".toList ++ rest) =
      some (cut wordToken (1 + runWidth isWordChar (['a', 'c', 'k', 'a', 'g', 'e'] ++ rest)) ("package".toList ++ rest)) :=
    rfl
  rw [hlexeme, hwidth]
  rfl

theorem take_package (h : lexeme cs = some (.token (.keyword .package), n)) : cs.take n = "package".toList := by
  have hreads := (reads_lexeme h).2
  generalize cs.take n = taken at hreads
  generalize cs.drop n = rest at hreads
  cases hreads with
  | token => rfl

end

end Scan

/-! ## Lines and pieces -/

namespace Directive

open Scan (Piece chars Cut lexeme isWordChar)
open Text (after? firstLine isWhiteSpace linesWithin trim trimEnd)

/-- What a piece says, where `first` tells whether only blanks are before it on its line. -/
def pieceMarks (first : Bool) (p : Piece) : List Line :=
  match p.lexeme with
  | .blank => if first then ((unitComment? p.text).map Line.unit).toList else []
  | .token t => if t = .keyword .package then [.package] else []
  | .lineBreak | .comment _ => []

/-- Whether only blanks are before the next piece on its line. -/
def firstAfter (first : Bool) (p : Piece) : Bool :=
  match p.lexeme with
  | .lineBreak => true
  | .blank => first && p.text.head? != some '/'
  | .comment _ | .token _ => false

/-- **The directives and clauses of a text**: each comment that is first on its line and gives a unit, and each token
`package`. -/
def marks (first : Bool) : List Piece → List Line
  | [] => []
  | p :: ps => pieceMarks first p ++ marks (firstAfter first p) ps

/-- The lines that begin inside a comment or a token. -/
def innerLines : List Piece → List (List Char)
  | [] => []
  | p :: ps => (if p.lexeme = .lineBreak then [] else linesWithin p.text (chars ps)) ++ innerLines ps

def opensLine (first : Bool) : List Piece → Bool
  | [] => true
  | p :: ps =>
    if p.lexeme = .token (.keyword .package) then first && wordEnds (firstLine (chars ps))
    else opensLine (firstAfter first p) ps

/-- What the lines of a text are, where `first` tells whether the first of them counts. -/
def lineClasses (first : Bool) (cs : List Char) : List Line :=
  ((if first then [firstLine cs] else []) ++ linesWithin cs []).map fun l => classify (trim l)

variable {first inPackage : Bool} {cs text rest : List Char} {n : Nat} {ls : List Line} {u : CoordUnit}

theorem coordUnit_eq (source : String) : coordUnit source = readUnit false none (lineClasses true source.toList) := by
  rw [coordUnit, Text.lines_eq]
  rfl

/-- Lines that say nothing are passed over. -/
theorem readUnit_append (h : ∀ l ∈ ls, l = .other ∨ inPackage = true ∧ l = .package) (ms : List Line) :
    readUnit inPackage found (ls ++ ms) = readUnit inPackage found ms := by
  induction ls with
  | nil => rfl
  | cons l ls ih =>
    rw [forall_mem_cons] at h
    rcases h.1 with rfl | ⟨rfl, rfl⟩
    · exact ih h.2
    · exact ih h.2

theorem lineClasses_lineBreak (first : Bool) (rest : List Char) :
    lineClasses first ('\n' :: rest) = (if first then [.other] else []) ++ lineClasses true rest := by
  cases first
  · simp [lineClasses, linesWithin]
  · simp [lineClasses, linesWithin, firstLine]
    decide

theorem lineClasses_blanks (h : ∀ c ∈ text, Scan.isBlank c = true) :
    lineClasses first (text ++ rest) = lineClasses first rest := by
  have hnew : '\n' ∉ text := fun hmem => by simpa [Scan.not_isBlank_newline] using h _ hmem
  rw [lineClasses, lineClasses, Text.linesWithin_append, Text.linesWithin_eq_nil hnew, nil_append,
    Text.firstLine_append hnew, map_append, map_append]
  congr 1
  cases first
  · rfl
  · simp only [if_true, map_cons, map_nil,
      Text.trim_append_left fun c hc => Scan.isWhiteSpace_of_isBlank (h c hc)]

theorem lineClasses_append (first : Bool) (text rest : List Char) : lineClasses first (text ++ rest) =
    (if first then [classify (trim (firstLine (text ++ rest)))] else []) ++
      (linesWithin text rest).map (fun l => classify (trim l)) ++ lineClasses false rest := by
  rw [lineClasses, lineClasses, Text.linesWithin_append, append_nil]
  cases first
  · simp
  · simp

/-! ### The line that a piece begins -/

section

variable {c : Char} {t : Token}

theorem unitComment?_eq_none (h : ¬ ['/', '/'] <+: text) : unitComment? text = none := by
  rw [unitComment?]
  cases hafter : after? "//kage:unit" text with
  | none => rfl
  | some rest =>
    rw [Text.after?_eq_some.mp hafter] at h
    exact absurd ⟨_, rfl⟩ h

theorem firstLine_cons (hc : isWhiteSpace c = false) : firstLine (c :: cs) = c :: firstLine cs := by
  refine takeWhile_cons_of_pos ?_
  have hne : c ≠ '\n' := by
    rintro rfl
    cases hc
  simpa using hne

theorem not_isWordChar_of_endsWord (h : endsWord (trimEnd (firstLine cs)) = true) :
    ∀ d ∈ cs.head?, isWordChar d = false := by
  intro d hd
  obtain ⟨cs, rfl⟩ := head?_eq_some_iff.mp hd
  by_contra hword
  have hblank := Scan.not_isWhiteSpace_of_isWordChar (eq_true_of_ne_false hword)
  rw [firstLine_cons hblank, Text.trimEnd_of_head hblank] at h
  have hd : d = ' ' ∨ d = '\t' := by simpa [endsWord] using h
  rcases hd with rfl | rfl
  · cases hblank
  · cases hblank

theorem classify_comment (rest : List Char) : classify (trim (firstLine ('/' :: '*' :: rest))) = .other := by
  have hslash : isWhiteSpace '/' = false := by decide
  have hstar : isWhiteSpace '*' = false := by decide
  have hpackage : after? "package" ('/' :: firstLine ('*' :: rest)) = none := rfl
  rw [firstLine_cons hslash, classify_of_not_package hslash hpackage, firstLine_cons hstar,
    unitComment?_eq_none (by simp)]
  rfl

/-- A line that begins with a token other than `package` says nothing. -/
theorem classify_token (h : lexeme (c :: cs) = some (.token t, n)) (ht : t ≠ .keyword .package) :
    classify (trim (firstLine (c :: cs))) = .other := by
  have hc : isWhiteSpace c = false := by
    rcases Scan.lexeme_cases h with ⟨-, hl, -⟩ | ⟨-, hl, -⟩ | ⟨_, -, hl, -⟩ | ⟨_, _, -, hl⟩ | ⟨-, hc⟩
    · cases hl
    · cases hl
    · cases hl
    · cases hl
    · exact hc
  rw [firstLine_cons hc]
  cases hpackage : after? "package" (c :: firstLine cs) with
  | some rest =>
    rw [classify_of_package hc hpackage]
    refine if_neg fun hends => ht ?_
    -- the word would be the whole token
    obtain ⟨tail, hcs, htail⟩ := Text.exists_firstLine_append cs
    have hline := Text.after?_eq_some.mp hpackage
    have hrest : '\n' ∉ rest := by
      have hnew : '\n' ∉ firstLine (c :: cs) := Text.not_mem_firstLine _
      rw [firstLine_cons hc, hline, mem_append, not_or] at hnew
      exact hnew.2
    have hwhole : c :: cs = "package".toList ++ (rest ++ tail) := by
      rw [← append_assoc, ← hline, cons_append, ← hcs]
    have hfirst : firstLine (rest ++ tail) = rest := by rw [Text.firstLine_append hrest, htail, append_nil]
    rw [hwhole, Scan.lexeme_package (not_isWordChar_of_endsWord (hfirst.symm ▸ hends))] at h
    cases h
    rfl
  | none =>
    have hslashes : ¬ ['/', '/'] <+: c :: firstLine cs := by
      rintro ⟨rest, heq⟩
      obtain ⟨rfl, hline⟩ := cons.inj heq
      obtain ⟨tail, hcs, -⟩ := Text.exists_firstLine_append cs
      rw [hcs, ← hline] at h
      cases h
    rw [classify_of_not_package hc hpackage, unitComment?_eq_none hslashes]
    rfl

/-- A line that begins with `package` is a clause if the word ends there. -/
theorem classify_package (rest : List Char) : classify (trim (firstLine ("package".toList ++ rest))) =
    if endsWord (trimEnd (firstLine rest)) then .package else .other := by
  have hnew : '\n' ∉ "package".toList := by decide
  have hp : isWhiteSpace 'p' = false := by decide
  rw [Text.firstLine_append hnew]
  exact classify_of_package hp (Text.after?_eq_some.mpr rfl)

theorem classify_lineComment (htext : text = '/' :: '/' :: firstLine rest) :
    classify (trim (firstLine ('/' :: '/' :: rest))) = ((unitComment? text).map .unit).getD .other := by
  have hslash : isWhiteSpace '/' = false := by decide
  rw [firstLine_cons hslash, firstLine_cons hslash, classify_of_not_package hslash rfl, htext]

end

/-! ### Reading lines and reading pieces -/

/-- Whatever is behind the same lines may be read for something else that gives the same. -/
theorem readUnit_congr
    (h : ∀ b f, (inPackage = true ∨ .package ∈ ls → b = true) → readUnit b f ms = readUnit b f ms') :
    readUnit inPackage found (ls ++ ms) = readUnit inPackage found (ls ++ ms') := by
  induction ls generalizing inPackage found with
  | nil => exact h inPackage found fun hb => hb.elim id fun hmem => absurd hmem not_mem_nil
  | cons l ls ih =>
    cases l with
    | package => exact ih fun b f hb => h b f fun _ => hb (.inl rfl)
    | other =>
      refine ih fun b f hb => h b f fun hmem => hb (hmem.imp_right fun hmem => ?_)
      exact mem_of_ne_of_mem (by simp) hmem
    | unit value =>
      have hls : ∀ f', readUnit inPackage f' (ls ++ ms) = readUnit inPackage f' (ls ++ ms') := by
        intro f'
        refine ih fun b f hb => h b f fun hmem => hb (hmem.imp_right fun hmem => ?_)
        exact mem_of_ne_of_mem (by simp) hmem
      simp only [cons_append, readUnit, hls]

/-- A piece that says nothing new, neither on the line it begins on nor on those that begin inside it. -/
theorem readUnit_quiet
    (hfirst : classify (trim (firstLine cs)) = .other ∨ inPackage = true ∧ classify (trim (firstLine cs)) = .package)
    (hinner : ∀ line ∈ linesWithin (cs.take n) (cs.drop n), classify (trim line) = .other) :
    readUnit inPackage found (lineClasses first cs) = readUnit inPackage found (lineClasses false (cs.drop n)) := by
  have hsplit := lineClasses_append first (cs.take n) (cs.drop n)
  rw [take_append_drop] at hsplit
  rw [hsplit]
  refine readUnit_append (forall_mem_append.mpr ⟨?_, ?_⟩) _
  · cases first
    · exact forall_mem_nil _
    · simpa using hfirst
  · intro l hl
    obtain ⟨line, hline, rfl⟩ := mem_map.mp hl
    exact .inl (hinner line hline)

theorem readUnit_lineComment (first inPackage : Bool) (found : Option CoordUnit)
    (htext : text = '/' :: '/' :: firstLine rest) :
    ∀ tail, '/' :: '/' :: rest = text ++ tail → readUnit inPackage found (lineClasses first ('/' :: '/' :: rest)) =
      readUnit inPackage found (pieceMarks first ⟨.blank, text⟩ ++ lineClasses false tail) := by
  intro tail hsplit
  have hnew : '\n' ∉ text := by
    rw [htext, mem_cons, mem_cons]
    simpa using Text.not_mem_firstLine rest
  have hclasses := lineClasses_append first text tail
  rw [← hsplit, classify_lineComment htext, Text.linesWithin_eq_nil hnew] at hclasses
  rw [hclasses]
  cases first
  · rfl
  · cases hunit : unitComment? text with
    | none => simp [pieceMarks, hunit, readUnit]
    | some value => simp [pieceMarks, hunit]

theorem lineClasses_blank_piece (hc : Scan.isBlank c = true) (htext : ∀ d ∈ text, Scan.isBlank d = true)
    (first : Bool) (rest : List Char) : lineClasses first (c :: text ++ rest) =
      pieceMarks first ⟨.blank, c :: text⟩ ++ lineClasses (firstAfter first ⟨.blank, c :: text⟩) rest := by
  have hslash : c ≠ '/' := by
    rintro rfl
    cases hc
  have hmarks : pieceMarks first ⟨.blank, c :: text⟩ = [] := by
    have hunit : unitComment? (c :: text) = none := unitComment?_eq_none (by simpa using fun h => absurd h hslash.symm)
    simp [pieceMarks, hunit]
  have hafter : firstAfter first ⟨.blank, c :: text⟩ = first := by simp [firstAfter, hslash]
  rw [hmarks, hafter, lineClasses_blanks (forall_mem_cons.mpr ⟨hc, htext⟩)]
  rfl

theorem readUnit_package (hclause : inPackage = true ∨ first = true ∧ wordEnds (firstLine rest) = true)
    (found : Option CoordUnit) : readUnit inPackage found (lineClasses first ("package".toList ++ rest)) =
      readUnit true found (lineClasses false rest) := by
  have hwithin : linesWithin "package".toList rest = [] := Text.linesWithin_eq_nil (by decide) rest
  have hclass := classify_package rest
  rw [lineClasses_append, hclass, hwithin]
  rcases hclause with rfl | ⟨rfl, hends⟩
  · refine readUnit_append ?_ _
    cases first
    · exact forall_mem_nil _
    · by_cases hends : endsWord (trimEnd (firstLine rest)) = true
      · simp [hends]
      · simp [hends]
  · rw [endsWord_trimEnd hends]
    rfl

/-- **One piece.** Its lines are read as what it says, and then the lines behind it. -/
theorem readUnit_piece (h : lexeme cs = some (l, n))
    (hinner : l ≠ .lineBreak → ∀ line ∈ linesWithin (cs.take n) (cs.drop n), classify (trim line) = .other)
    (hclause : inPackage = true ∨ (l = .token (.keyword .package) → first = true ∧ wordEnds (firstLine (cs.drop n)) = true)) :
    readUnit inPackage found (lineClasses first cs) = readUnit inPackage found
      (pieceMarks first ⟨l, cs.take n⟩ ++ lineClasses (firstAfter first ⟨l, cs.take n⟩) (cs.drop n)) := by
  cases cs with
  | nil => cases h
  | cons c cs =>
    have hsplit := take_append_drop n (c :: cs)
    rcases Scan.lexeme_cases h with ⟨rfl, rfl, rfl⟩ | ⟨hc, rfl, rfl⟩ | ⟨rest, heq, rfl, rfl⟩ | ⟨rest, b, heq, rfl⟩ |
      ⟨⟨t, rfl⟩, -⟩
    · rw [lineClasses_lineBreak]
      refine readUnit_append ?_ _
      cases first
      · exact forall_mem_nil _
      · simp
    · rw [Nat.add_comm, take_succ_cons, Scan.take_runWidth] at hsplit ⊢
      have htext : ∀ d ∈ cs.takeWhile Scan.isBlank, Scan.isBlank d = true := fun d hd => mem_takeWhile_imp hd
      rw [← lineClasses_blank_piece hc htext first, hsplit]
    · have htext : ('/' :: '/' :: rest).take (2 + Scan.runWidth (· ≠ '\n') rest) = '/' :: '/' :: firstLine rest := by
        rw [Nat.add_comm, take_succ_cons, take_succ_cons, Scan.take_runWidth]
        rfl
      have hafter : firstAfter first ⟨.blank, '/' :: '/' :: firstLine rest⟩ = false := Bool.and_false first
      rw [heq] at hsplit ⊢
      rw [htext] at hsplit ⊢
      rw [hafter]
      exact readUnit_lineComment first inPackage found rfl _ hsplit.symm
    · rw [heq] at hinner ⊢
      exact readUnit_quiet (.inl (classify_comment rest)) (hinner (by simp))
    · by_cases ht : t = .keyword .package
      · subst ht
        rw [Scan.take_package h] at hsplit ⊢
        have hread := readUnit_package (hclause.imp_right fun h => h rfl) found
        rw [hsplit] at hread
        exact hread
      · have hmarks : pieceMarks first ⟨.token t, (c :: cs).take n⟩ = [] := if_neg ht
        rw [hmarks]
        exact readUnit_quiet (.inl (classify_token h ht)) (hinner (by simp))

theorem mem_pieceMarks_package (h : p.lexeme = .token (.keyword .package)) : .package ∈ pieceMarks first p := by
  rw [pieceMarks, h]
  exact mem_singleton_self _

/-- **Every piece.** The lines of a text are read as its directives and clauses. -/
theorem readUnit_pieces (h : Cut cs ps) (hinner : ∀ line ∈ innerLines ps, classify (trim line) = .other)
    (hclause : inPackage = true ∨ opensLine first ps = true) :
    readUnit inPackage found (lineClasses first cs) = readUnit inPackage found (marks first ps) := by
  induction h generalizing inPackage found first with
  | nil =>
    cases first
    · rfl
    · rfl
  | @cons cs l n ps hl hps ih =>
    rw [innerLines, forall_mem_append, hps.chars_eq] at hinner
    rw [readUnit_piece hl ?_ ?_, marks]
    · refine readUnit_congr fun b f hb => ih hinner.2 ?_
      rcases hclause with hclause | hopens
      · exact .inl (hb (.inl hclause))
      · rw [opensLine] at hopens
        by_cases hl : l = .token (.keyword .package)
        · exact .inl (hb (.inr (mem_pieceMarks_package hl)))
        · rw [if_neg hl] at hopens
          exact .inr hopens
    · intro hne line hline
      exact hinner.1 line (by rwa [if_neg hne])
    · refine hclause.imp_right fun hopens heq => ?_
      rw [opensLine, if_pos heq, hps.chars_eq] at hopens
      simpa using hopens

/-! ## The unit of a source -/

def unitValues : List Line → List String
  | [] => []
  | .unit value :: ls => value :: unitValues ls
  | .package :: ls | .other :: ls => unitValues ls

/-- **The unit that directives ask for.** None stands behind the first clause and at most one before it, which names the
unit. Without one, it is texels. -/
@[mk_iff selects_iff]
structure Selects (ls : List Line) (u : CoordUnit) : Prop where
  behind : unitValues (ls.dropWhile (· ≠ .package)) = []
  before : unitValues (ls.takeWhile (· ≠ .package)) = [] ∧ u = .texels ∨
    ∃ value, unitValues (ls.takeWhile (· ≠ .package)) = [value] ∧ unit? value = some u

theorem readUnit_inPackage : readUnit true found ls = .ok u ↔ unitValues ls = [] ∧ found.getD .texels = u := by
  induction ls with
  | nil => simp [readUnit, unitValues]
  | cons l ls ih =>
    cases l with
    | package | other => exact ih
    | unit value => simp [readUnit, unitValues]

theorem readUnit_found : readUnit false (some v) ls = .ok u ↔
    unitValues (ls.dropWhile (· ≠ .package)) = [] ∧ unitValues (ls.takeWhile (· ≠ .package)) = [] ∧ v = u := by
  induction ls with
  | nil => simp [readUnit, unitValues]
  | cons l ls ih =>
    cases l with
    | package => simp [readUnit, unitValues, readUnit_inPackage]
    | other => simpa [readUnit, unitValues] using ih
    | unit value => simp [readUnit, unitValues]

theorem readUnit_ok_iff : readUnit false none ls = .ok u ↔ Selects ls u := by
  induction ls with
  | nil => simp [readUnit, selects_iff, unitValues, @eq_comm _ u]
  | cons l ls ih =>
    cases l with
    | package => simp [readUnit, selects_iff, unitValues, readUnit_inPackage, @eq_comm _ u]
    | other => simpa [readUnit, selects_iff, unitValues] using ih
    | unit value =>
      cases hunit : unit? value with
      | none => simp [readUnit, selects_iff, unitValues, hunit]
      | some v => simp [readUnit, selects_iff, unitValues, hunit, readUnit_found]

end Directive

open Directive Scan in
/-- **Lines and tokens agree about directives.** A source asks for a unit just if no comment that gives one, first on its
line, stands behind the token `package`, and at most one before it, whose value is the unit. This holds of a text of
tokens where no line that begins inside a comment or a token looks like a directive or a clause, and where the first
`package` begins its line and a blank, a tab or nothing but white space is behind it. -/
theorem coordUnit_agrees {source : String} {ts : List Placed} (h : tokenize source = .ok ts)
    (hinner : ∀ line ∈ innerLines (pieces source.toList), classify (Text.trim line) = .other)
    (hclause : opensLine true (pieces source.toList) = true) (u : CoordUnit) :
    coordUnit source = .ok u ↔ Selects (marks true (pieces source.toList)) u := by
  have hcut : Cut source.toList (pieces source.toList) := by
    rw [tokenize] at h
    cases hlex : lexemesFrom 0 source.toList with
    | error offset =>
      rw [hlex] at h
      cases h
    | ok ls => exact cut_pieces hlex
  rw [coordUnit_eq, readUnit_pieces hcut hinner (.inr hclause), readUnit_ok_iff]

def commentedText : String :=
  "/* the unit\n * is below */\n\t//kage:unit  pixels\npackage main // not //kage:unit\nimport `a\nb`\n"

open Directive Scan in
theorem commentedText_agrees : (tokenize commentedText).isOk = true ∧
    (coordUnit commentedText = .ok .pixels ↔ Selects (marks true (pieces commentedText.toList)) .pixels) ∧
    marks true (pieces commentedText.toList) = [.unit "pixels", .package] := by
  have htokens : (tokenize commentedText).isOk = true := by decide +kernel
  have hinner : (innerLines (pieces commentedText.toList)).all (fun line => classify (Text.trim line) = .other) =
      true := by decide +kernel
  cases hts : tokenize commentedText with
  | error pos =>
    rw [hts] at htokens
    cases htokens
  | ok ts => exact ⟨rfl, coordUnit_agrees hts (by simpa using hinner) (by decide +kernel) .pixels, by decide +kernel⟩

/-- A comment is before the clause on its line, and a directive is behind it. -/
def hiddenClause : String := "/* notes */ package main\n//kage:unit pixels\n"

open Directive Scan in
/-- The directive is taken although it stands behind the token `package`. -/
theorem hiddenClause_disagrees : (Surface.File.ofSource hiddenClause).isOk = true ∧
    coordUnit hiddenClause = .ok .pixels ∧ ∀ u, ¬ Selects (marks true (pieces hiddenClause.toList)) u := by
  have hmarks : marks true (pieces hiddenClause.toList) = [.package, .unit "pixels"] := by decide +kernel
  refine ⟨by decide +kernel, by decide +kernel, fun u hu => ?_⟩
  have hbehind := hu.behind
  rw [hmarks] at hbehind
  cases hbehind

end Shader

end GameMedia
