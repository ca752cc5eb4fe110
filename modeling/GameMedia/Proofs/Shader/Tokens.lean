import GameMedia.Proofs.Shader.Lines
import GameMedia.Shader.Token.Scan

/-!
# Tokens and the text they stand in

Scanning loses nothing: a source text is made of gaps and tokens in turn, and the gaps have only blanks, line breaks and
comments. The tokens come out in this order with the positions at which their texts begin. In between there is a line
end just where the gap behind a token that can end a statement breaks the line, and one behind the last token if it can
end a statement.
-/

namespace GameMedia.Shader

open List Prod

/-! ## Positions -/

@[simp]
theorem byteLength_append (cs ds : List Char) : byteLength (cs ++ ds) = byteLength cs + byteLength ds := by
  induction cs with
  | nil => exact (Nat.zero_add _).symm
  | cons c cs ih => rw [cons_append, byteLength, byteLength, ih, Nat.add_assoc]

namespace Pos

def behind (p : Pos) : List Char → Pos
  | [] => p
  | c :: cs => behind (if c = '\n' then ⟨p.line + 1, 1⟩ else ⟨p.line, p.col + c.utf8Size⟩) cs

theorem foldl_step_textBytes (p : Pos) (cs : List Char) : (textBytes cs).foldl step p = p.behind cs := by
  induction cs generalizing p with
  | nil => rfl
  | cons c cs ih => rw [textBytes, flatMap_cons, foldl_append, foldl_step_char, behind, ← ih, textBytes]

end Pos

def linesLength : Nat → List Char → Nat
  | 0, _ => 0
  | _ + 1, [] => 0
  | n + 1, c :: cs => c.utf8Size + linesLength (if c = '\n' then n else n + 1) cs

/-- The byte offset that a line and a column mean in a text. -/
def Pos.offset (cs : List Char) (p : Pos) : Nat := linesLength (p.line - 1) cs + (p.col - 1)

namespace LineIndex

/-- **The index finds the position that walking the text gives.** -/
theorem pos_byteLength (before rest : List Char) :
    (ofChars (before ++ rest)).pos (byteLength before) = Pos.start.behind before := by
  have hle : byteLength before ≤ byteLength (before ++ rest) := by
    rw [byteLength_append]
    exact Nat.le_add_right _ _
  rw [pos_eq_foldl hle, textBytes, flatMap_append, ← textBytes, take_left' (length_textBytes before),
    Pos.foldl_step_textBytes]

end LineIndex

theorem Pos.one_le_col_behind {p : Pos} (h : 1 ≤ p.col) (cs : List Char) : 1 ≤ (p.behind cs).col := by
  induction cs generalizing p with
  | nil => exact h
  | cons c cs ih =>
    rw [behind]
    split
    · exact ih (Nat.le_refl 1)
    · exact ih (Nat.le_add_right_of_le h)

/-- Walking some text counts its lines, and leaves the bytes behind the last line break for the column. -/
theorem Pos.behind_spec (p : Pos) (before rest : List Char) : ∃ lines, (p.behind before).line = p.line + lines ∧
    linesLength lines (before ++ rest) + (p.behind before).col =
      byteLength before + if lines = 0 then p.col else 1 := by
  induction before generalizing p with
  | nil =>
    refine ⟨0, rfl, ?_⟩
    rw [linesLength, behind, byteLength, if_pos rfl]
  | cons c before ih =>
    rw [behind, byteLength, cons_append]
    by_cases hc : c = '\n'
    · obtain ⟨lines, hline, hcol⟩ := ih ⟨p.line + 1, 1⟩
      dsimp only at hline hcol
      rw [ite_self] at hcol
      refine ⟨lines + 1, ?_, ?_⟩
      · rw [if_pos hc, hline]
        omega
      · rw [if_pos hc, linesLength, if_pos hc, if_neg (Nat.succ_ne_zero _)]
        omega
    · obtain ⟨lines, hline, hcol⟩ := ih ⟨p.line, p.col + c.utf8Size⟩
      dsimp only at hline hcol
      refine ⟨lines, ?_, ?_⟩
      · rw [if_neg hc, hline]
      · rw [if_neg hc]
        cases lines with
        | zero =>
          rw [if_pos rfl, linesLength] at hcol ⊢
          omega
        | succ lines =>
          rw [if_neg (Nat.succ_ne_zero _)] at hcol ⊢
          rw [linesLength, if_neg hc]
          omega

/-- **A position means the offset that it was found from.** -/
theorem Pos.offset_behind (before rest : List Char) :
    (start.behind before).offset (before ++ rest) = byteLength before := by
  obtain ⟨lines, hline, hcol⟩ := behind_spec start before rest
  have hpos : 1 ≤ (start.behind before).col := one_le_col_behind (Nat.le_refl 1) before
  have hlines : (start.behind before).line - 1 = lines := by
    rw [hline, start]
    exact Nat.add_sub_cancel_left 1 lines
  have hone : (if lines = 0 then start.col else 1) = 1 := ite_self 1
  rw [hone] at hcol
  rw [offset, hlines]
  omega

/-! ## Lexemes -/

/-- The text between tokens, with what is behind it: blanks, line breaks and comments. A comment with two slashes runs to
the end of its line, and one with a star to the first star and slash. -/
inductive Skipped : List Char → List Char → Prop
  | done {rest : List Char} : Skipped [] rest
  | blank {c : Char} {gap rest : List Char} : c ∈ [' ', '\t', '\r', '\x0c'] → Skipped gap rest → Skipped (c :: gap) rest
  | lineBreak {gap rest : List Char} : Skipped gap rest → Skipped ('\n' :: gap) rest
  | lineComment {body gap rest : List Char} : '\n' ∉ body → (∀ c ∈ (gap ++ rest).head?, c = '\n') → Skipped gap rest →
    Skipped ('/' :: '/' :: body ++ gap) rest
  | blockComment {body gap rest : List Char} : ¬ ['*', '/'] <:+: body → Skipped gap rest →
    Skipped ('/' :: '*' :: body ++ '*' :: '/' :: gap) rest

/-- Whether a token stands in the text. -/
def Token.isWritten : Token → Bool
  | .newline | .eof => false
  | _ => true

def Placed.isWritten (p : Placed) : Bool := p.token.isWritten

/-- What a lexeme says of the text it stands for and of what is behind it. -/
inductive Reads : Lexeme → List Char → List Char → Prop
  | blank {taken rest : List Char} : (∀ {gap rest' : List Char}, rest = gap ++ rest' → Skipped gap rest' →
      Skipped (taken ++ gap) rest') → '\n' ∉ taken → Reads .blank taken rest
  | lineBreak {rest : List Char} : Reads .lineBreak ['\n'] rest
  | comment {body rest : List Char} : ¬ ['*', '/'] <:+: body →
    Reads (.comment (body.contains '\n')) ('/' :: '*' :: body ++ ['*', '/']) rest
  | token {t : Token} {rest : List Char} : t.isWritten = true → Reads (.token t) t.text.toList rest

namespace Scan

variable {rest : List Char}

section

variable {p : Char → Bool} {cs : List Char}

theorem take_runWidth : cs.take (runWidth p cs) = cs.takeWhile p := by
  have h : (cs.takeWhile p ++ cs.dropWhile p).take (runWidth p cs) = cs.takeWhile p := take_left
  rwa [takeWhile_append_dropWhile] at h

theorem drop_runWidth : cs.drop (runWidth p cs) = cs.dropWhile p := by
  have h : (cs.takeWhile p ++ cs.dropWhile p).drop (runWidth p cs) = cs.dropWhile p := drop_left
  rwa [takeWhile_append_dropWhile] at h

end

/-- A comment ends at its first star and slash. -/
theorem commentEnd_eq (h : commentEnd cs = some n) :
    ∃ body rest, cs = body ++ '*' :: '/' :: rest ∧ n = body.length + 2 ∧ ¬ ['*', '/'] <:+: body := by
  fun_induction commentEnd cs generalizing n with
  | case1 => cases h
  | case2 rest =>
    cases h
    exact ⟨[], rest, rfl, rfl, by simp⟩
  | case3 c cs hnot ih =>
    obtain ⟨m, hm, rfl⟩ := Option.map_eq_some_iff.mp h
    obtain ⟨body, rest, rfl, rfl, hbody⟩ := ih hm
    refine ⟨c :: body, rest, rfl, by rw [length_cons]; omega, ?_⟩
    rw [infix_cons_iff]
    rintro (hfirst | hlater)
    · -- a star and a slash at the front would have been the end
      obtain ⟨tail, htail⟩ := hfirst
      obtain ⟨rfl, rfl⟩ := cons.inj htail
      exact hnot _ rfl rfl
    · exact hbody hlater

/-! ### Widths -/

/-- A width that is found is not zero. -/
def Advances (width : Option Nat) : Prop := ∀ n ∈ width, 0 < n

theorem advances_map_add (hm : 0 < m) (width : Option Nat) : Advances (width.map (m + ·)) := by
  intro n hn
  obtain ⟨k, -, rfl⟩ := Option.mem_map.mp hn
  exact Nat.add_pos_left hm k

theorem Advances.wider (h : Advances w) (h' : Advances w') : Advances (wider w w') := by
  cases w with
  | none =>
    cases w' with
    | none => exact h
    | some n => exact h'
  | some m =>
    cases w' with
    | none => exact h
    | some n =>
      intro k hk
      cases hk
      exact lt_max_of_lt_left (h m rfl)

theorem Advances.marked (cs : List Char) (width : Option Nat) : Advances (marked cs width) := by
  intro n hn
  obtain ⟨m, -, hm⟩ := Option.bind_eq_some_iff.mp hn
  split at hm
  · cases hm
    exact Nat.succ_pos m
  · cases hm

theorem advances_decimalWidth (cs : List Char) : Advances (decimalWidth cs) := by
  intro n hn
  cases cs with
  | nil => cases hn
  | cons c cs =>
    rw [decimalWidth] at hn
    split at hn
    · cases hn
      omega
    · cases hn

theorem advances_basedWidth (cs : List Char) : Advances (basedWidth cs) := by
  unfold basedWidth
  split
  · split
    · exact advances_map_add (by decide) _
    · split
      · exact advances_map_add (by decide) _
      · split
        · exact advances_map_add (by decide) _
        · intro n hn
          cases hn
  · intro n hn
    cases hn

theorem advances_pointedWidth (cs : List Char) : Advances (pointedWidth cs) := by
  intro n hn
  obtain ⟨m, -, hm⟩ := Option.bind_eq_some_iff.mp hn
  split at hm
  · cases hm
    rw [withExponent]
    omega
  · cases hm

theorem advances_fractionWidth (cs : List Char) : Advances (fractionWidth cs) := by
  unfold fractionWidth
  split
  · intro n hn
    obtain ⟨m, -, rfl⟩ := Option.mem_map.mp hn
    rw [withExponent]
    omega
  · intro n hn
    cases hn

theorem advances_scaledWidth (cs : List Char) : Advances (scaledWidth cs) := by
  intro n hn
  obtain ⟨m, hm, hn⟩ := Option.bind_eq_some_iff.mp hn
  obtain ⟨e, -, he⟩ := Option.bind_eq_some_iff.mp hn
  cases he
  have := advances_decimalWidth cs m hm
  omega

theorem advances_intWidth (cs : List Char) : Advances (intWidth cs) :=
  (advances_decimalWidth cs).wider (advances_basedWidth cs)

theorem advances_floatWidth (cs : List Char) : Advances (floatWidth cs) :=
  (advances_pointedWidth cs).wider ((advances_fractionWidth cs).wider (advances_scaledWidth cs))

theorem advances_imagWidth (cs : List Char) : Advances (imagWidth cs) :=
  (Advances.marked cs _).wider ((Advances.marked cs _).wider ((Advances.marked cs _).wider (Advances.marked cs _)))

theorem advances_charWidth (cs : List Char) : Advances (charWidth cs) := by
  unfold charWidth
  split
  · intro n hn
    cases hn
  · exact advances_map_add Nat.one_pos _
  · intro n hn
    cases hn

theorem advances_rawWidth (cs : List Char) : Advances (rawWidth cs) := by
  intro n hn
  rw [rawWidth] at hn
  split at hn
  · cases hn
    omega
  · cases hn

theorem widest_mem (h : widest readings = some (n, make)) :
    (some n, make) ∈ readings := by
  fun_induction widest readings with
  | case1 => cases h
  | case2 make' rest ih => exact mem_cons_of_mem _ (ih h)
  | case3 m make₁ rest k make₂ hrest hlt ih =>
    obtain ⟨rfl, rfl⟩ := mk.inj (Option.some.inj h)
    exact mem_cons_of_mem _ (ih hrest)
  | case4 m make₁ rest k make₂ hrest hlt ih =>
    obtain ⟨rfl, rfl⟩ := mk.inj (Option.some.inj h)
    exact mem_cons_self
  | case5 m make₁ rest hrest ih =>
    obtain ⟨rfl, rfl⟩ := mk.inj (Option.some.inj h)
    exact mem_cons_self

/-! ### Readings -/

variable {cs : List Char} {l : Lexeme} {n : Nat}

theorem reads_cut (hmake : ∀ s, (make s).text = s ∧ (make s).isWritten = true) (h : cut make n cs = (l, n)) :
    Reads l (cs.take n) (cs.drop n) := by
  obtain ⟨rfl, -⟩ := mk.inj h
  obtain ⟨htext, hwritten⟩ := hmake (String.ofList (cs.take n))
  have hreads : Reads (.token (make (String.ofList (cs.take n)))) _ (cs.drop n) := .token hwritten
  rwa [htext, String.toList_ofList] at hreads

theorem text_wordToken (s : String) : (wordToken s).text = s ∧ (wordToken s).isWritten = true := by
  unfold wordToken
  cases hword : Keyword.ofWord? s with
  | none => exact ⟨rfl, rfl⟩
  | some k =>
    have hk := find?_some hword
    exact ⟨eq_of_beq hk, rfl⟩

theorem reads_numberLexeme (h : numberLexeme cs = some (l, n)) : 0 < n ∧ Reads l (cs.take n) (cs.drop n) := by
  obtain ⟨⟨m, make⟩, hwidest, hcut⟩ := Option.map_eq_some_iff.mp h
  obtain rfl : m = n := congrArg snd hcut
  have hmem := widest_mem hwidest
  simp only [mem_cons, not_mem_nil, or_false, mk.injEq] at hmem
  rcases hmem with ⟨hwidth, rfl⟩ | ⟨hwidth, rfl⟩ | ⟨hwidth, rfl⟩
  · exact ⟨advances_intWidth cs m hwidth.symm, reads_cut (fun s => ⟨rfl, rfl⟩) hcut⟩
  · exact ⟨advances_floatWidth cs m hwidth.symm, reads_cut (fun s => ⟨rfl, rfl⟩) hcut⟩
  · exact ⟨advances_imagWidth cs m hwidth.symm, reads_cut (fun s => ⟨rfl, rfl⟩) hcut⟩

theorem reads_symbolLexeme (h : symbolLexeme cs = some (l, n)) : 0 < n ∧ Reads l (cs.take n) (cs.drop n) := by
  obtain ⟨⟨text, s⟩, hfind, hl⟩ := Option.map_eq_some_iff.mp h
  obtain ⟨rfl, rfl⟩ := mk.inj hl
  have hfirst := find?_some hfind
  have hprefix : text <+: cs := isPrefixOf_iff_prefix.mp hfirst
  obtain ⟨s', -, hs'⟩ := mem_map.mp (List.mem_of_find?_eq_some hfind)
  obtain ⟨rfl, rfl⟩ := mk.inj hs'
  refine ⟨by cases s' <;> decide, ?_⟩
  have hreads : Reads (.token (.symbol s')) s'.text.toList (cs.drop s'.text.toList.length) := .token rfl
  rwa [← prefix_iff_eq_take.mp hprefix]

theorem skipped_blanks (htaken : ∀ c ∈ taken, isBlank c = true) (h : Skipped gap rest) :
    Skipped (taken ++ gap) rest := by
  induction taken with
  | nil => exact h
  | cons c taken ih =>
    have hc : c ∈ [' ', '\t', '\r', '\x0c'] := by
      have := htaken c mem_cons_self
      simpa [isBlank, or_assoc] using this
    exact .blank hc (ih fun d hd => htaken d (mem_cons_of_mem _ hd))

theorem not_isBlank_newline : isBlank '\n' = false := by decide

theorem reads_blanks (hc : isBlank c = true) :
    Reads .blank ((c :: rest).take (1 + runWidth isBlank rest)) ((c :: rest).drop (1 + runWidth isBlank rest)) := by
  rw [Nat.add_comm, take_succ_cons, drop_succ_cons, take_runWidth]
  have htaken : ∀ d ∈ c :: rest.takeWhile isBlank, isBlank d = true := by
    intro d hd
    rcases mem_cons.mp hd with rfl | hd
    · exact hc
    · exact mem_takeWhile_imp hd
  refine .blank (fun _ h => skipped_blanks htaken h) fun hnew => ?_
  have := htaken '\n' hnew
  rw [not_isBlank_newline] at this
  cases this

theorem reads_lineComment (rest : List Char) :
    Reads .blank (('/' :: '/' :: rest).take (2 + runWidth (· ≠ '\n') rest))
      (('/' :: '/' :: rest).drop (2 + runWidth (· ≠ '\n') rest)) := by
  rw [Nat.add_comm, take_succ_cons, take_succ_cons, drop_succ_cons, drop_succ_cons, take_runWidth,
    drop_runWidth]
  have hbody : '\n' ∉ rest.takeWhile (· ≠ '\n') := by
    intro hnew
    simpa using mem_takeWhile_imp hnew
  have hbehind : ∀ c ∈ (rest.dropWhile (· ≠ '\n')).head?, c = '\n' := by
    intro c hc
    have := head?_dropWhile_not (· ≠ '\n') rest
    rw [hc] at this
    simpa using this
  refine .blank (fun hsplit h => ?_) ?_
  · rw [hsplit] at hbehind
    exact .lineComment hbody hbehind h
  · simpa using hbody

/-- A comment up to a star and a slash. -/
theorem reads_comment (h : commentEnd rest = some n) :
    Reads (.comment ((rest.take n).contains '\n')) (('/' :: '*' :: rest).take (2 + n))
      (('/' :: '*' :: rest).drop (2 + n)) := by
  obtain ⟨body, behind, rfl, rfl, hbody⟩ := commentEnd_eq h
  have htake : (body ++ '*' :: '/' :: behind).take (body.length + 2) = body ++ ['*', '/'] := by
    rw [take_length_add_append]
    rfl
  have hcontains : (body ++ ['*', '/']).contains '\n' = body.contains '\n' := by
    simp
  rw [Nat.add_comm 2, take_succ_cons, take_succ_cons, htake, hcontains]
  exact .comment hbody

theorem skipped_comment (hbody : ¬ ['*', '/'] <:+: body) (h : Skipped gap rest) :
    Skipped ('/' :: '*' :: body ++ ['*', '/'] ++ gap) rest := by
  have hcomment := Skipped.blockComment hbody h
  rwa [append_assoc]

/-- **A lexeme stands for what its width takes from the text.** -/
theorem reads_lexeme (h : lexeme cs = some (l, n)) : 0 < n ∧ Reads l (cs.take n) (cs.drop n) := by
  unfold lexeme at h
  split at h
  · cases h
  · next rest =>
    obtain ⟨rfl, rfl⟩ := mk.inj (Option.some.inj h)
    exact ⟨by omega, reads_lineComment rest⟩
  · next rest =>
    obtain ⟨m, hend, hl⟩ := Option.map_eq_some_iff.mp h
    obtain ⟨rfl, rfl⟩ := mk.inj hl
    exact ⟨by omega, reads_comment hend⟩
  · next c rest =>
    split at h
    · exact reads_numberLexeme h
    · exact reads_symbolLexeme h
  · next c rest _ _ _ =>
    split at h
    · next hc =>
      obtain ⟨rfl, rfl⟩ := mk.inj (Option.some.inj h)
      subst hc
      exact ⟨Nat.one_pos, .lineBreak⟩
    · split at h
      · next hc =>
        obtain ⟨rfl, rfl⟩ := mk.inj (Option.some.inj h)
        exact ⟨by omega, reads_blanks hc⟩
      · split at h
        · have hcut := Option.some.inj h
          obtain rfl : 1 + runWidth isWordChar rest = n := congrArg snd hcut
          exact ⟨by omega, reads_cut text_wordToken hcut⟩
        · split at h
          · exact reads_numberLexeme h
          · split at h
            · obtain ⟨m, hwidth, hcut⟩ := Option.map_eq_some_iff.mp h
              obtain rfl : m = n := congrArg snd hcut
              exact ⟨advances_charWidth _ m hwidth, reads_cut (fun s => ⟨rfl, rfl⟩) hcut⟩
            · split at h
              · obtain ⟨m, -, hcut⟩ := Option.map_eq_some_iff.mp h
                obtain rfl : 1 + m = n := congrArg snd hcut
                exact ⟨by omega, reads_cut (fun s => ⟨rfl, rfl⟩) hcut⟩
              · split at h
                · obtain ⟨m, hwidth, hcut⟩ := Option.map_eq_some_iff.mp h
                  obtain rfl : m = n := congrArg snd hcut
                  exact ⟨advances_rawWidth rest m hwidth, reads_cut (fun s => ⟨rfl, rfl⟩) hcut⟩
                · exact reads_symbolLexeme h

/-- The lexemes of a text, each with its offset. -/
inductive Lexed : Nat → List Char → List (Nat × Lexeme) → Prop
  | nil {offset : Nat} : Lexed offset [] []
  | cons {offset : Nat} {l : Lexeme} {taken rest : List Char} {ls : List (Nat × Lexeme)} : Reads l taken rest →
    Lexed (offset + byteLength taken) rest ls → Lexed offset (taken ++ rest) ((offset, l) :: ls)

theorem lexed_lexemesFrom (h : lexemesFrom offset cs = .ok ls) :
    Lexed offset cs ls := by
  fun_induction lexemesFrom offset cs generalizing ls with
  | case1 =>
    cases h
    exact .nil
  | case2 => cases h
  | case3 offset c rest l n hlexeme ls' hrest ih =>
    cases h
    obtain ⟨hpos, hreads⟩ := reads_lexeme hlexeme
    have hdrop : rest.drop (n - 1) = (c :: rest).drop n := by
      obtain ⟨m, rfl⟩ := Nat.exists_eq_add_of_lt hpos
      rw [Nat.zero_add, drop_succ_cons, Nat.add_sub_cancel]
    have hlexed := ih hrest
    rw [hdrop] at hlexed
    have hcons := Lexed.cons hreads hlexed
    rwa [take_append_drop] at hcons
  | case4 => cases h

end Scan

/-! ## Gaps and tokens -/

/-- A text as gaps and tokens in turn. -/
inductive Segments where
  | last (gap : List Char)
  | token (gap : List Char) (t : Token) (rest : Segments)

namespace Segments

def chars : Segments → List Char
  | last gap => gap
  | token gap t rest => gap ++ (t.text.toList ++ rest.chars)

/-- The gaps have only what is between tokens. -/
def Spaced : Segments → Prop
  | last gap => Skipped gap []
  | token gap t rest => Skipped gap (t.text.toList ++ rest.chars) ∧ rest.Spaced

/-- The tokens where they stand, behind some text. -/
def found (before : List Char) : Segments → List Placed
  | last _ => []
  | token gap t rest => ⟨t, Pos.start.behind (before ++ gap)⟩ :: rest.found (before ++ gap ++ t.text.toList)

/-- The bytes before each token, behind so many. -/
def offsets (before : Nat) : Segments → List Nat
  | last _ => []
  | token gap t rest =>
    (before + byteLength gap) :: rest.offsets (before + byteLength gap + byteLength t.text.toList)

/-- The tokens with the line ends that end statements, where `canEnd` says whether one would at the start. -/
def withEnds (canEnd : Bool) : Segments → List Token
  | last _ => (if canEnd then [.newline] else []) ++ [.eof]
  | token gap t rest => (if canEnd ∧ '\n' ∈ gap then [.newline] else []) ++ t :: rest.withEnds t.endsStatement

/-- The text with more in front of it. -/
def behind (taken : List Char) : Segments → Segments
  | last gap => last (taken ++ gap)
  | token gap t rest => token (taken ++ gap) t rest

variable (taken before : List Char) (canEnd : Bool) (s : Segments)

@[simp]
theorem chars_behind : (s.behind taken).chars = taken ++ s.chars := by
  cases s with
  | last gap => rfl
  | token gap t rest => exact append_assoc _ _ _

theorem found_behind : (s.behind taken).found before = s.found (before ++ taken) := by
  cases s with
  | last gap => rfl
  | token gap t rest =>
    rw [behind, found, found]
    simp only [append_assoc]

theorem Spaced.behind {s : Segments} (hs : s.Spaced)
    (htaken : ∀ {gap rest}, s.chars = gap ++ rest → Skipped gap rest → Skipped (taken ++ gap) rest) :
    (s.behind taken).Spaced := by
  cases s with
  | last gap => exact htaken (append_nil gap).symm hs
  | token gap t rest => exact ⟨htaken rfl hs.1, hs.2⟩

theorem withEnds_behind_of_not_mem {taken : List Char} (h : '\n' ∉ taken) :
    (s.behind taken).withEnds canEnd = s.withEnds canEnd := by
  cases s with
  | last gap => rfl
  | token gap t rest =>
    rw [behind, withEnds, withEnds]
    simp only [mem_append, h, false_or]

theorem withEnds_behind_of_mem {taken : List Char} (h : '\n' ∈ taken) :
    (s.behind taken).withEnds canEnd = (if canEnd then [.newline] else []) ++ s.withEnds false := by
  cases s with
  | last gap => rfl
  | token gap t rest =>
    rw [behind, withEnds, withEnds]
    simp only [mem_append, h, true_or, and_true, Bool.false_eq_true, false_and, if_false, nil_append]

/-- Where a text has been told apart, the positions of its tokens mean where they stand. -/
theorem offset_found (after : List Char) :
    (s.found before).map (·.pos.offset (before ++ s.chars ++ after)) = s.offsets (byteLength before) := by
  induction s generalizing before with
  | last gap => rfl
  | token gap t rest ih =>
    have hrest := ih (before ++ gap ++ t.text.toList)
    rw [found, offsets, map_cons, chars]
    have hwhole : before ++ (gap ++ (t.text.toList ++ rest.chars)) ++ after =
        before ++ gap ++ (t.text.toList ++ rest.chars ++ after) := by
      simp only [append_assoc]
    have hwhole' : before ++ (gap ++ (t.text.toList ++ rest.chars)) ++ after =
        before ++ gap ++ t.text.toList ++ rest.chars ++ after := by
      simp only [append_assoc]
    rw [hwhole', hrest, ← hwhole', hwhole, Pos.offset_behind]
    simp only [byteLength_append]

end Segments

namespace Scan

/-- A line break puts a line end where one can end a statement, which is not a token of the text. -/
theorem segments_of_break {canEnd : Bool} {taken before : List Char} {s : Segments} {ts : List Placed}
    (hnew : '\n' ∈ taken) (hfound : ts.filter Placed.isWritten = s.found (before ++ taken))
    (htokens : ts.map (·.token) = s.withEnds false) :
    ((if canEnd then [Placed.mk .newline pos] else []) ++ ts).filter Placed.isWritten = (s.behind taken).found before ∧
      ((if canEnd then [Placed.mk .newline pos] else []) ++ ts).map (·.token) = (s.behind taken).withEnds canEnd := by
  rw [s.found_behind, s.withEnds_behind_of_mem canEnd hnew, filter_append, map_append, hfound, htokens]
  cases canEnd with
  | false | true => exact ⟨rfl, rfl⟩

/-- **What the lexemes of a text become.** The text up to them is `before`, and its whole is indexed. -/
theorem Lexed.segments {source before cs : List Char}
    (h : Lexed offset cs ls) (hsource : source = before ++ cs) (hoffset : offset = byteLength before) (canEnd : Bool) :
    ∃ s : Segments, s.chars = cs ∧ s.Spaced ∧
      (place (LineIndex.ofChars source) stop canEnd ls).filter Placed.isWritten = s.found before ∧
      (place (LineIndex.ofChars source) stop canEnd ls).map (·.token) = s.withEnds canEnd := by
  induction h generalizing before canEnd with
  | nil =>
    refine ⟨.last [], rfl, .done, ?_, ?_⟩
    · cases canEnd <;> rfl
    · cases canEnd <;> rfl
  | @cons offset l taken rest ls hreads hlexed ih =>
    have hsource' : source = before ++ taken ++ rest := by rw [hsource, append_assoc]
    have hoffset' : offset + byteLength taken = byteLength (before ++ taken) := by rw [byteLength_append, hoffset]
    cases hreads with
    | blank hskip hnew =>
      obtain ⟨s, rfl, hspaced, hfound, htokens⟩ := ih hsource' hoffset' canEnd
      refine ⟨s.behind taken, s.chars_behind taken, hspaced.behind taken hskip, ?_, ?_⟩
      · rw [place, hfound, s.found_behind]
      · rw [place, htokens, s.withEnds_behind_of_not_mem canEnd hnew]
    | lineBreak =>
      obtain ⟨s, rfl, hspaced, hfound, htokens⟩ := ih hsource' hoffset' false
      refine ⟨s.behind ['\n'], s.chars_behind _, hspaced.behind _ fun _ hgap => .lineBreak hgap, ?_⟩
      rw [place]
      exact segments_of_break mem_cons_self hfound htokens
    | @comment body _ hbody =>
      cases hbreaks : body.contains '\n' with
      | false =>
        have hnew : '\n' ∉ '/' :: '*' :: body ++ ['*', '/'] := by
          have : '\n' ∉ body := by simpa using hbreaks
          simp [this]
        obtain ⟨s, rfl, hspaced, hfound, htokens⟩ := ih hsource' hoffset' canEnd
        refine ⟨s.behind _, s.chars_behind _, hspaced.behind _ fun _ hgap => skipped_comment hbody hgap, ?_, ?_⟩
        · rw [place, hfound, s.found_behind]
        · rw [place, htokens, s.withEnds_behind_of_not_mem canEnd hnew]
      | true =>
        have hnew : '\n' ∈ '/' :: '*' :: body ++ ['*', '/'] := by
          have : '\n' ∈ body := by simpa using hbreaks
          simp [this]
        obtain ⟨s, rfl, hspaced, hfound, htokens⟩ := ih hsource' hoffset' false
        refine ⟨s.behind _, s.chars_behind _, hspaced.behind _ fun _ hgap => skipped_comment hbody hgap, ?_⟩
        rw [place]
        exact segments_of_break hnew hfound htokens
    | @token t _ hwritten =>
      obtain ⟨s, rfl, hspaced, hfound, htokens⟩ := ih hsource' hoffset' t.endsStatement
      refine ⟨.token [] t s, rfl, ⟨.done, hspaced⟩, ?_, ?_⟩
      · have hkeep : Placed.isWritten ⟨t, (LineIndex.ofChars source).pos offset⟩ = true := hwritten
        rw [place, filter_cons_of_pos hkeep, hfound, Segments.found, append_nil, hoffset, hsource,
          LineIndex.pos_byteLength]
      · rw [place, map_cons, htokens, Segments.withEnds]
        simp

end Scan

/-- A number that stops before a letter, a comment and a raw text that break lines, and a comment at the end. -/
def brokenText : String := "x := 1e /* \n */ + `a\nb` // end"

def brokenTokens : List Placed :=
  [⟨.ident "x", ⟨1, 1⟩⟩, ⟨.symbol .define, ⟨1, 3⟩⟩, ⟨.int "1", ⟨1, 6⟩⟩, ⟨.ident "e", ⟨1, 7⟩⟩, ⟨.newline, ⟨1, 9⟩⟩,
    ⟨.symbol .add, ⟨2, 5⟩⟩, ⟨.string "`a\nb`", ⟨2, 7⟩⟩, ⟨.newline, ⟨3, 10⟩⟩, ⟨.eof, ⟨3, 10⟩⟩]

end GameMedia.Shader
