import GameMedia.Proofs.Shader.Words

/-!
# What a stage declares

The text of a stage, read line by line, declares the functions it names: each name that stands anywhere in it has one
prototype and one definition. A declaration is recognised in the text, as a line that is not indented and has a
function's name before its first parenthesis. The lines of bodies are indented, and what else is written at the margin
has no word that looks like such a name.
-/

namespace GameMedia.Shader.Target

open List Option Code

variable {line : List Char}

/-! ## Lines -/

def linesOf (text : List Char) : List (List Char) := (text.splitOn '\n').filter (!·.isEmpty)

def Mentions (text : String) (i : Nat) : Prop := ∃ line ∈ linesOf text.toList, funcWord i ∈ words line

/-- The line is not indented and has the function's name before its first parenthesis. -/
def isHead (i : Nat) (line : List Char) : Bool :=
  line.head? != some '\t' && (words (line.takeWhile (· != '('))).getLast? == some (funcWord i)

def declares (ending : Char) (i : Nat) (line : List Char) : Bool := isHead i line && line.getLast? == some ending

def prototypes (text : String) (i : Nat) : Nat := (linesOf text.toList).countP (declares ';' i)

def definitions (text : String) (i : Nat) : Nat := (linesOf text.toList).countP (declares '\x7b' i)

theorem linesOf_append_break (a b : List Char) : linesOf (a ++ '\n' :: b) = linesOf a ++ linesOf b := by
  rw [linesOf, splitOn_append_cons_self, filter_append, linesOf, linesOf]

theorem linesOf_breaks (a : List Char) (n : Nat) : linesOf (a ++ replicate n '\n') = linesOf a := by
  induction n generalizing a with
  | zero => rw [replicate_zero, append_nil]
  | succ n ih =>
    have hrest : linesOf (replicate n '\n') = [] := ih []
    rw [replicate_succ, linesOf_append_break, hrest, append_nil]

theorem linesOf_inline (h : '\n' ∉ line) (hne : line ≠ []) : linesOf line = [line] := by
  rw [linesOf, splitOn_eq_singleton h]
  simp [hne]

theorem mem_of_mem_linesOf (hline : line ∈ linesOf text) (hc : c ∈ line) : c ∈ text :=
  mem_of_mem_splitOnP (mem_filter.mp hline).1 hc

theorem dropBlankTail_eq (cs : List Char) : ∃ n, cs = replicate n '\n' ++ dropBlankTail cs := by
  fun_induction dropBlankTail cs with
  | case1 cs ih =>
    obtain ⟨n, hn⟩ := ih
    exact ⟨n + 1, by rw [replicate_succ, cons_append, ← hn]⟩
  | case2 cs _ => exact ⟨0, rfl⟩

theorem linesOf_stackLines (afterBlank : Bool) (ls : List String) :
    linesOf (stackLines afterBlank ls).toList = ls.flatMap (linesOf ·.toList) := by
  induction ls generalizing afterBlank with
  | nil => rfl
  | cons l ls ih =>
    rw [stackLines, flatMap_cons]
    split
    · next hl =>
      obtain rfl := String.isEmpty_iff.mp hl
      rw [String.toList_append, ← ih true]
      cases afterBlank with
      | true => rfl
      | false => exact linesOf_append_break [] _
    · rw [String.toList_append, String.toList_append, ← ih false, append_assoc]
      exact linesOf_append_break _ _

/-- A file has the lines that were put into it. -/
theorem linesOf_joinLines (ls : List String) : linesOf (joinLines ls).toList = ls.flatMap (linesOf ·.toList) := by
  obtain ⟨n, hn⟩ := dropBlankTail_eq (stackLines true ls).toList.reverse
  have hstack : (stackLines true ls).toList =
      (dropBlankTail (stackLines true ls).toList.reverse).reverse ++ replicate n '\n' := by
    rw [← reverse_replicate, ← reverse_append, ← hn, reverse_reverse]
  rw [joinLines, String.toList_ofList, ← linesOf_stackLines true, hstack, linesOf_breaks, ← hstack]

/-! ## Declarations -/

/-- The lines have prototypes of the functions with numbers `ps`, definitions of those with numbers `ds`, and names of
functions of `C` only. -/
structure Announces (C : Nat → Prop) (ps ds : List Nat) (ls : List String) : Prop where
  prototypes : ∀ i, (ls.flatMap (linesOf ·.toList)).countP (declares ';' i) = ps.count i
  definitions : ∀ i, (ls.flatMap (linesOf ·.toList)).countP (declares '\x7b' i) = ds.count i
  mentions : ∀ line ∈ ls.flatMap (linesOf ·.toList), ∀ i, funcWord i ∈ words line → C i

section

variable {C : Nat → Prop} {ps ps' ds ds' : List Nat} {ls ls' : List String} {line : List Char} {i : Nat} {s : String}
  {fs : List Func}

theorem Announces.append (h : Announces C ps ds ls) (h' : Announces C ps' ds' ls') :
    Announces C (ps ++ ps') (ds ++ ds') (ls ++ ls') where
  prototypes := fun i => by
    rw [flatMap_append, countP_append, h.prototypes, h'.prototypes, count_append]
  definitions := fun i => by
    rw [flatMap_append, countP_append, h.definitions, h'.definitions, count_append]
  mentions := by
    rw [flatMap_append, forall_mem_append]
    exact ⟨h.mentions, h'.mentions⟩

theorem announces_nothing (h : ∀ line ∈ ls.flatMap (linesOf ·.toList),
    (∀ i, isHead i line = false) ∧ ∀ i, funcWord i ∈ words line → C i) : Announces C [] [] ls where
  prototypes := fun i => countP_eq_zero.mpr fun line hline => by simp [declares, (h line hline).1 i]
  definitions := fun i => countP_eq_zero.mpr fun line hline => by simp [declares, (h line hline).1 i]
  mentions := fun line hline => (h line hline).2

theorem not_isHead_of_tab (h : line.head? = some '\t') (i : Nat) : isHead i line = false := by
  simp [isHead, h]

theorem mem_of_isHead (h : isHead i line = true) : 'F' ∈ line := by
  rw [isHead, Bool.and_eq_true, beq_iff_eq] at h
  exact (takeWhile_sublist _).subset (mem_of_mem_splitOnP (mem_of_getLast? h.2) (mem_funcWord i))

theorem announces_of_indented (h : ∀ l ∈ ls, Indented C l) : Announces C [] [] ls := by
  refine announces_nothing fun line hline => ?_
  obtain ⟨l, hl, hline⟩ := mem_flatMap.mp hline
  have hne : l.toList ≠ [] := by
    intro hnil
    simpa [hnil] using (h l hl).tab
  rw [linesOf_inline (h l hl).piece.inline hne, mem_singleton] at hline
  rw [hline]
  exact ⟨not_isHead_of_tab (h l hl).tab, (h l hl).piece.named⟩

theorem announces_of_lacks (h : ∀ l ∈ ls, lacks ['F'] l = true) : Announces C [] [] ls := by
  refine announces_nothing fun line hline => ?_
  obtain ⟨l, hl, hline⟩ := mem_flatMap.mp hline
  have hF : 'F' ∉ line := fun hc => not_mem_of_lacks (h l hl) (by decide) (mem_of_mem_linesOf hline hc)
  refine ⟨fun i => Bool.eq_false_iff.mpr fun hhead => hF (mem_of_isHead hhead), fun i hi => absurd ?_ hF⟩
  exact mem_of_mem_splitOnP hi (mem_funcWord i)

theorem lacks_capital (h : lacks nameOrBreak s = true) : lacks ['F'] s = true := by
  refine List.all_eq_true.mpr fun c hc => ?_
  have := List.all_eq_true.mp h c hc
  simp_all [nameOrBreak]

/-! ## Functions -/

/-- The head of a function: its result, its name and its parameters. -/
def IsSignature (i : Nat) (s : String) : Prop :=
  ∃ result params, s = result ++ " " ++ s!"F{i}" ++ "(" ++ params ++ ")" ∧ lacks typeBreaks result = true ∧
    lacks nameOrBreak params = true

theorem paramDecls_lacks (hd : d.Tidy) (hword : lacks nameOrBreak word = true) :
    Writes (paramDecls d word i ts) fun ls => ∀ l ∈ ls, lacks nameOrBreak l = true := by
  induction ts generalizing i with
  | nil => exact writes_ok (forall_mem_nil _)
  | cons t ts ih =>
    have hname := lacks_numbered "l" i
    refine (varDecl_lacks hd hname).bind fun _ hdecl => ih.bind fun _ hrest => writes_ok ?_
    rw [forall_mem_cons, lacks_append, hword, hdecl]
    exact ⟨rfl, hrest⟩

theorem inOutSignature_head (hd : d.Tidy) (f : Func) : Writes (inOutSignature d f) (IsSignature f.index) := by
  refine (paramDecls_lacks hd (by decide)).bind fun ins hins => ?_
  refine (paramDecls_lacks hd (by decide)).bind fun outs houts => ?_
  refine (hd.types f.result).bind fun x hx => writes_ok ?_
  refine ⟨x.1 ++ x.2, if (ins ++ outs).isEmpty then "void" else ", ".intercalate (ins ++ outs), ?_, ?_, ?_⟩
  · change x.1 ++ x.2 ++ (" F" ++ toString f.index ++ "(") ++ _ ++ ")" =
      x.1 ++ x.2 ++ " " ++ ("F" ++ toString f.index) ++ "(" ++ _ ++ ")"
    rw [show " F" = " " ++ "F" from rfl]
    simp only [String.append_assoc]
  · rw [lacks_append, hx.1, hx.2]
    rfl
  · split
    · decide
    · exact lacks_intercalate (by decide) (forall_mem_append.mpr ⟨hins, houts⟩)

theorem IsSignature.piece (h : IsSignature i s) (hi : C i) : Piece C s := by
  obtain ⟨result, params, rfl, hresult, hparams⟩ := h
  have hhead := (piece_of_lacks (lacks_nameOrBreak hresult)).glue (s := " ") (piece_funcName hi)
  exact (hhead.glue (s := "(") (piece_of_lacks hparams)).trail

theorem IsSignature.isHead (h : IsSignature i s) (t : String) (j : Nat) : isHead j (s ++ t).toList = (i == j) := by
  obtain ⟨result, params, rfl, hresult, -⟩ := h
  have hline : (result ++ " " ++ s!"F{i}" ++ "(" ++ params ++ ")" ++ t).toList =
      (result.toList ++ ' ' :: funcWord i) ++ '(' :: (params.toList ++ ')' :: t.toList) := by
    simp [String.toList_append, funcWord]
  have htake : ((result ++ " " ++ s!"F{i}" ++ "(" ++ params ++ ")" ++ t).toList.takeWhile (· != '(')) =
      result.toList ++ ' ' :: funcWord i := by
    rw [hline, takeWhile_append_of_pos, takeWhile_cons_of_neg (by decide), append_nil]
    intro c hc
    rw [bne_iff_ne]
    rintro rfl
    rcases mem_append.mp hc with hc | hc
    · exact not_mem_of_lacks hresult (by decide) hc
    · rcases mem_cons.mp hc with hc | hc
      · exact absurd hc (by decide)
      · exact absurd (isWordChar_of_mem_funcWord hc) (by decide)
  have hmargin : (result ++ " " ++ s!"F{i}" ++ "(" ++ params ++ ")" ++ t).toList.head? ≠ some '\t' := by
    rw [hline]
    cases hr : result.toList with
    | nil => simp
    | cons c cs =>
      intro htab
      obtain rfl : c = '\t' := by simpa using htab
      exact not_mem_of_lacks hresult (show '\t' ∈ typeBreaks by decide) (hr ▸ mem_cons_self)
  rw [Target.isHead, htake, words_append_cons (by decide), words_funcWord, getLast?_append,
    getLast?_singleton, some_or, bne_iff_ne.mpr hmargin, Bool.true_and, Bool.eq_iff_iff, beq_iff_eq,
    beq_iff_eq, some.injEq]
  exact ⟨funcWord_injective, fun h => h ▸ rfl⟩

theorem IsSignature.lines (h : IsSignature i s) (ht : closes t = true) :
    [s ++ t].flatMap (linesOf ·.toList) = [(s ++ t).toList] := by
  have hpiece : Piece (fun _ => True) (s ++ t) := (h.piece trivial).trail ht
  rw [flatMap_singleton]
  refine linesOf_inline hpiece.inline fun hnil => ?_
  rw [String.toList_append, append_eq_nil_iff] at hnil
  simp [closes, hnil.2] at ht

/-- It declares its function, and no other, by how it ends. -/
theorem IsSignature.count (h : IsSignature i s) (ht : closes t = true) (hlast : t.toList.getLast? = some last) :
    ([s ++ t].flatMap (linesOf ·.toList)).countP (declares ending j) = if last = ending then [i].count j else 0 := by
  have hends : (s ++ t).toList.getLast? = some last := by
    rw [String.toList_append, getLast?_append, hlast, some_or]
  rw [h.lines ht, countP_singleton, count_singleton, declares, h.isHead, hends]
  by_cases hending : last = ending <;> simp [hending]

theorem IsSignature.mentions (h : IsSignature i s) (ht : closes t = true) (hi : C i) :
    ∀ line ∈ [s ++ t].flatMap (linesOf ·.toList), ∀ j, funcWord j ∈ words line → C j := by
  rw [h.lines ht, forall_mem_singleton]
  exact ((h.piece hi).trail ht).named

theorem IsSignature.prototype (h : IsSignature i s) (hi : C i) : Announces C [i] [] [s ++ ";"] := by
  have hlast : (";" : String).toList.getLast? = some ';' := by decide
  refine ⟨fun j => ?_, fun j => ?_, h.mentions (by decide) hi⟩
  · rw [h.count (by decide) hlast, if_pos rfl]
  · rw [h.count (by decide) hlast, if_neg (by decide), count_nil]

theorem IsSignature.definition (h : IsSignature i s) (hi : C i) : Announces C [] [i] [s ++ " \x7b"] := by
  have hlast : (" \x7b" : String).toList.getLast? = some '\x7b' := by decide
  refine ⟨fun j => ?_, fun j => ?_, h.mentions (by decide) hi⟩
  · rw [h.count (by decide) hlast, if_neg (by decide), count_nil]
  · rw [h.count (by decide) hlast, if_pos rfl]

theorem eachFunc_announces {ps ds : Func → List Nat}
    (h : ∀ f ∈ fs, Writes (write f) (Announces C (ps f) (ds f))) :
    Writes (eachFunc write fs) (Announces C (fs.flatMap ps) (fs.flatMap ds)) := by
  induction fs with
  | nil => exact writes_ok (announces_of_lacks (forall_mem_nil _))
  | cons f fs ih =>
    rw [forall_mem_cons] at h
    exact h.1.bind fun _ hf => (ih h.2).bind fun _ hfs => writes_ok (hf.append hfs)

/-- **A list of functions is written with a prototype and a definition of each**, and with the names of the functions
that their bodies mention. -/
theorem funcLines_announces (hd : d.Tidy) (hindex : ∀ f ∈ fs, C f.index)
    (hbody : ∀ f ∈ fs, ∀ i, Block.Contains (.func i) f.body → C i) :
    Writes (funcLines d (inOutSignature d) fs) (Announces C (fs.map Func.index) (fs.map Func.index)) := by
  have hblank : Announces C [] [] [""] := announces_of_lacks (by decide)
  have hbrace : Announces C [] [] ["\x7d"] := announces_of_lacks (by decide)
  have hprototype : ∀ f ∈ fs, Writes (do return [(← inOutSignature d f) ++ ";"]) (Announces C [f.index] []) :=
    fun f hf => (inOutSignature_head hd f).bind fun _ hs => writes_ok (hs.prototype (hindex f hf))
  have hdefinition : ∀ f ∈ fs, Writes (do
      let head ← inOutSignature d f
      let lines ← bodyLines d (Body.ofFunc f)
      return "" :: (head ++ " \x7b") :: (lines ++ ["\x7d"])) (Announces C [] [f.index]) := by
    intro f hf
    refine (inOutSignature_head hd f).bind fun _ hs => (bodyLines_indented hd (hbody f hf)).bind fun _ hls => ?_
    refine writes_ok ?_
    exact hblank.append ((hs.definition (hindex f hf)).append ((announces_of_indented hls).append hbrace))
  unfold funcLines
  split
  · next hnil =>
    rw [List.isEmpty_iff.mp hnil]
    exact writes_ok (announces_of_lacks (forall_mem_nil _))
  · refine (eachFunc_announces hprototype).bind fun _ hps => (eachFunc_announces hdefinition).bind fun _ hds => ?_
    have hnone : fs.flatMap (fun _ => ([] : List Nat)) = [] := flatMap_eq_nil_iff.mpr fun _ _ => rfl
    have hall := hblank.append (hps.append hds)
    rw [hnone, ← map_eq_flatMap, append_nil, nil_append, nil_append] at hall
    exact writes_ok hall

/-- A list of functions that mention one another only. -/
theorem funcLines_closed (hd : d.Tidy) (hbody : ∀ f ∈ fs, ∀ i, Block.Contains (.func i) f.body → i ∈ fs.map Func.index) :
    Writes (funcLines d (inOutSignature d) fs)
      (Announces (· ∈ fs.map Func.index) (fs.map Func.index) (fs.map Func.index)) :=
  funcLines_announces hd (fun _ hf => List.mem_map_of_mem hf) hbody

end

/-! ## Stages -/

/-- The text declares the functions with these numbers, each as often as its number stands in the list, and names no
others. -/
structure Declares (text : String) (is : List Nat) : Prop where
  prototypes : ∀ i, prototypes text i = is.count i
  definitions : ∀ i, definitions text i = is.count i
  mentions : ∀ i, Mentions text i → i ∈ is

theorem Announces.declares (h : Announces (· ∈ is) is is ls) : Declares (joinLines ls) is where
  prototypes := fun i => by rw [Target.prototypes, linesOf_joinLines, h.prototypes]
  definitions := fun i => by rw [Target.definitions, linesOf_joinLines, h.definitions]
  mentions := by
    rintro i ⟨line, hline, hi⟩
    rw [linesOf_joinLines] at hline
    exact h.mentions line hline i hi

theorem numberedDecls_lacks (hd : d.Tidy) (hletter : lacks nameOrBreak letter = true)
    (hframe : ∀ i s, lacks nameOrBreak s = true → lacks nameOrBreak (frame i s) = true) :
    Writes (numberedDecls d frame letter i ts) fun ls => ∀ l ∈ ls, lacks nameOrBreak l = true := by
  induction ts generalizing i with
  | nil => exact writes_ok (forall_mem_nil _)
  | cons t ts ih =>
    refine (varDecl_lacks hd (lacks_numbered letter i hletter)).bind fun _ hdecl => ih.bind fun _ hrest => ?_
    exact writes_ok (forall_mem_cons.mpr ⟨hframe i _ hdecl, hrest⟩)

namespace Glsl

variable {C : Nat → Prop} {p : Program}

theorem uniformLines_announces (hd : d.Tidy) (p : Program) :
    Writes (uniformLines d p) fun ls => ∀ C, Announces C [] [] ls := by
  have hframe : ∀ (i : Nat) s, lacks nameOrBreak s = true → lacks nameOrBreak ("uniform " ++ s ++ ";") = true := by
    intro i s hs
    simp only [lacks_append, hs]
    decide
  refine (numberedDecls_lacks hd (by decide) hframe).bind fun _ hls => writes_ok fun C => announces_of_lacks ?_
  refine forall_mem_append.mpr ⟨fun l hl => lacks_capital (hls l hl), List.forall_mem_map.mpr fun i _ => ?_⟩
  change lacks ['F'] ("uniform sampler2D T" ++ toString i ++ ";") = true
  simp only [lacks_append, lacks_nat (show ['F'].all (!Char.isDigit ·) = true by decide)]
  decide

theorem ioLines_announces (hd : d.Tidy) (hword : lacks nameOrBreak word = true)
    (hletter : lacks nameOrBreak letter = true) (ts : List Ty) :
    Writes (ioLines d word letter ts) fun ls => ∀ C, Announces C [] [] ls := by
  have hframe : ∀ (i : Nat) s, lacks nameOrBreak s = true → lacks nameOrBreak (word ++ " " ++ s ++ ";") = true := by
    intro i s hs
    simp only [lacks_append, hs, hword]
    decide
  exact (numberedDecls_lacks hd hletter hframe).imp fun _ hls C =>
    announces_of_lacks fun l hl => lacks_capital (hls l hl)

theorem modIntFunctions_lacks : lacks ['F'] modIntFunctions = true := by
  have hone : ∀ x y, lacks ['F'] x = true → lacks ['F'] y = true →
      lacks ['F'] (x ++ " modInt(" ++ x ++ " x, " ++ y ++ " y) \x7b\n\treturn x - y*(x/y);\n\x7d") = true := by
    intro x y hx hy
    simp only [lacks_append, hx, hy]
    decide
  refine lacks_intercalate (by decide) ?_
  simp only [forall_mem_cons]
  exact ⟨hone _ _ (by decide) (by decide), hone _ _ (by decide) (by decide), hone _ _ (by decide) (by decide),
    hone _ _ (by decide) (by decide), hone _ _ (by decide) (by decide), hone _ _ (by decide) (by decide),
    hone _ _ (by decide) (by decide), forall_mem_nil _⟩

theorem precisionLines_lacks : lacks ['F'] precisionLines = true :=
  lacks_intercalate (by decide) (by decide)

theorem vertexPrelude_lacks (version : GlslVersion) : lacks ['F'] (vertexPrelude version) = true := by
  cases version with
  | desktop =>
    rw [vertexPrelude, lacks_append, modIntFunctions_lacks]
    decide
  | es300 => decide

theorem fragmentPrelude_lacks (version : GlslVersion) : lacks ['F'] (fragmentPrelude version) = true := by
  cases version with
  | desktop =>
    change lacks ['F'] ("#version 150\n\n" ++ precisionLines ++ "\n\n" ++ modIntFunctions) = true
    rw [lacks_append, lacks_append, lacks_append, modIntFunctions_lacks, precisionLines_lacks]
    decide
  | es300 =>
    change lacks ['F'] ("#version 300 es\n\n" ++ precisionLines ++ "\n\nout vec4 fragColor;") = true
    rw [lacks_append, lacks_append, precisionLines_lacks]
    decide

/-- The prelude of a stage and the line behind it. -/
theorem announces_prelude (h : lacks ['F'] prelude = true) : Announces C [] [] [prelude, ""] := by
  refine announces_of_lacks (forall_mem_cons.mpr ⟨h, ?_⟩)
  decide

theorem announces_main (h : Announces C [] [] ls) :
    Announces C [] [] ("" :: "void main(void) \x7b" :: (ls ++ ["\x7d"])) := by
  have hopen : Announces C [] [] ["", "void main(void) \x7b"] := announces_of_lacks (by decide)
  exact hopen.append (h.append (announces_of_lacks (by decide)))

/-- **The vertex stage declares the functions it writes**, if neither they nor the entry point mention others. -/
theorem vertexShader_declares
    (hfuncs : ∀ f ∈ vertexFuncs p, ∀ i, Block.Contains (.func i) f.body → i ∈ (vertexFuncs p).map Func.index)
    (hentry : ∀ b, p.vertex = some b → ∀ i, Block.Contains (.func i) b → i ∈ (vertexFuncs p).map Func.index)
    (version : GlslVersion) : Writes (vertexShader version p) (Declares · ((vertexFuncs p).map Func.index)) := by
  have hd := dialect_tidy version p.unit
  refine (uniformLines_announces hd p).bind fun _ huniforms => ?_
  refine (ioLines_announces hd (by decide) (by decide) p.attributes).bind fun _ hattrs => ?_
  refine (ioLines_announces hd (by decide) (by decide) p.varyings).bind fun _ hvaryings => ?_
  refine (funcLines_closed hd hfuncs).bind fun _ hfuncs => ?_
  have hprelude := fun C => (announces_prelude (vertexPrelude_lacks version)).append (huniforms C)
  have hhead := (((hprelude _).append (hattrs _)).append (hvaryings _)).append hfuncs
  cases hb : nonEmpty p.vertex with
  | none =>
    refine writes_ok ?_
    rw [append_nil]
    exact hhead.declares
  | some b =>
    refine (bodyLines_indented hd (hentry b (eq_some_of_nonEmpty hb))).bind fun _ hls => writes_ok ?_
    have hall := hhead.append (announces_main (announces_of_indented hls))
    simp only [nil_append, append_nil] at hall
    exact hall.declares

/-- The entry point of a fragment stage mentions the function that holds its code. -/
theorem fragmentMain_announces (hfresh : C (freshIndex p)) (version : GlslVersion) :
    Announces C [] [] (fragmentMain version p) := by
  have hcall : Piece C (plainCall s!"F{freshIndex p}"
      ("gl_FragCoord" :: (range p.varyings.length).map fun i => s!"V{i}")) := by
    refine plainCall_piece (piece_funcName hfresh) (forall_mem_cons.mpr ⟨piece_of_quiet, ?_⟩)
    refine List.forall_mem_map.mpr fun i _ => piece_of_lacks ?_
    exact lacks_numbered "V" i
  have hcolor : isQuiet (colorName version) = true := by cases version <;> decide
  have hleft := (piece_of_quiet hcolor).lead (s := "\t") (C := C)
  refine announces_main (announces_of_indented (forall_mem_singleton.mpr ⟨?_, ?_⟩))
  · exact (hleft.glue (s := " = ") hcall).trail
  · simp [String.toList_append]

/-- **A fragment stage declares the functions it writes.** All that its entry point mentions is the one that holds its
code. -/
theorem fragmentShader_declares
    (hfuncs : ∀ f ∈ fragmentFuncs p, ∀ i, Block.Contains (.func i) f.body → i ∈ (fragmentFuncs p).map Func.index)
    (version : GlslVersion) : Writes (fragmentShader version p) (Declares · ((fragmentFuncs p).map Func.index)) := by
  have hd := dialect_tidy version p.unit
  rw [fragmentShader_eq]
  refine (uniformLines_announces hd p).bind fun _ huniforms => ?_
  refine (ioLines_announces hd (by decide) (by decide) p.varyings).bind fun _ hvaryings => ?_
  refine (funcLines_closed hd hfuncs).bind fun _ hfuncs => writes_ok ?_
  have hprelude := fun C => (announces_prelude (fragmentPrelude_lacks version)).append (huniforms C)
  have hhead := ((hprelude _).append (hvaryings _)).append hfuncs
  cases hb : nonEmpty p.fragment with
  | none =>
    rw [elim_none, append_nil]
    exact hhead.declares
  | some b =>
    have hfresh : freshIndex p ∈ (fragmentFuncs p).map Func.index := by simp [fragmentFuncs, hb, fragmentFunc]
    have hall := hhead.append (fragmentMain_announces hfresh version)
    simp only [nil_append, append_nil] at hall
    exact hall.declares

theorem lt_freshIndex (hf : f ∈ p.funcs) : f.index < freshIndex p := by
  have hmono : ∀ (fs : List Func) (n : Nat), n ≤ fs.foldl (fun n f => max n (f.index + 1)) n := by
    intro fs
    induction fs with
    | nil => exact fun n => le_rfl
    | cons g fs ih => exact fun n => (le_max_left _ _).trans (ih _)
  have hbound : ∀ (fs : List Func) (n : Nat), f ∈ fs → f.index < fs.foldl (fun n f => max n (f.index + 1)) n := by
    intro fs
    induction fs with
    | nil => exact fun n h => absurd h not_mem_nil
    | cons g fs ih =>
      intro n h
      rcases mem_cons.mp h with rfl | h
      · exact (Nat.lt_of_lt_of_le (Nat.lt_succ_self _) (le_max_right _ _)).trans_le (hmono fs _)
      · exact ih _ h
  exact hbound p.funcs 0 hf

end Glsl

end GameMedia.Shader.Target

namespace GameMedia.Shader

open Code Target

/-- Every function that a body mentions exists. -/
def Program.CallsExist (p : Program) : Prop :=
  ∀ b, p.vertex = some b ∨ p.fragment = some b ∨ (∃ f ∈ p.funcs, f.body = b) →
    ∀ i, Block.Contains (.func i) b → ∃ f ∈ p.funcs, f.index = i

def DeclaresMentioned (text : String) : Prop := ∀ i, Mentions text i → prototypes text i = 1 ∧ definitions text i = 1

def Declared (text : String) (i : Nat) : Prop := prototypes text i ≠ 0 ∨ definitions text i ≠ 0

section

variable {p : Program} {b : Block} {is : List Nat} {text : String} {i : Nat} {version : GlslVersion}

theorem Target.Declares.mentioned (h : Declares text is) (his : is.Nodup) : DeclaresMentioned text := by
  intro i hi
  rw [h.prototypes, h.definitions, List.count_eq_one_of_mem his (h.mentions i hi)]
  exact ⟨rfl, rfl⟩

theorem Target.Declares.declared_iff (h : Declares text is) : Declared text i ↔ i ∈ is := by
  rw [Declared, h.prototypes, h.definitions, or_self, ← List.one_le_count_iff, Nat.one_le_iff_ne_zero]

theorem Program.CallsExist.callee (he : p.CallsExist) (hp : p.Distinct) (hf : f ∈ p.reachableFuncs b)
    (hi : Block.Contains (.func i) f.body) : ∃ g ∈ p.reachableFuncs b, g.index = i := by
  have hcalls := (Program.mem_reachableFuncs hp).mp hf
  obtain ⟨g, hg, rfl⟩ := he f.body (.inr (.inr ⟨f, hcalls.mem, rfl⟩)) i hi
  exact ⟨g, (Program.mem_reachableFuncs hp).mpr (.indirect hcalls hg hi), rfl⟩

theorem Program.CallsExist.entry (he : p.CallsExist) (hp : p.Distinct) (hb : p.vertex = some b ∨ p.fragment = some b)
    (hi : Block.Contains (.func i) b) : ∃ g ∈ p.reachableFuncs b, g.index = i := by
  obtain ⟨g, hg, rfl⟩ := he b (hb.imp_right .inl) i hi
  exact ⟨g, (Program.mem_reachableFuncs hp).mpr (.direct hg hi), rfl⟩

/-- The block is the code of an entry point or of a function. -/
def Program.Owns (p : Program) (b : Block) : Prop :=
  p.vertex = some b ∨ p.fragment = some b ∨ ∃ f ∈ p.funcs, f.body = b

/-- The block is code of the program, and every function that it mentions is one of those. -/
structure Program.Covers (p : Program) (fs : List Func) (b : Block) : Prop where
  owns : p.Owns b
  funcs : ∀ i, Block.Contains (.func i) b → ∃ f ∈ p.funcs, f ∈ fs ∧ f.index = i

theorem Program.Covers.mem (h : p.Covers fs b) (hi : Block.Contains (.func i) b) : i ∈ fs.map Func.index := by
  obtain ⟨f, -, hf, rfl⟩ := h.funcs i hi
  exact List.mem_map_of_mem hf

theorem Program.CallsExist.covers (he : p.CallsExist) (hb : p.Owns b) : p.Covers p.funcs b :=
  ⟨hb, fun i hi => (he b hb i hi).imp fun _ hg => ⟨hg.1, hg⟩⟩

theorem Program.CallsExist.covers_func (he : p.CallsExist) (hf : f ∈ p.funcs) : p.Covers p.funcs f.body :=
  he.covers (.inr (.inr ⟨f, hf, rfl⟩))

/-- The functions of a stage mention one another only, and so do the entry points. -/
theorem Program.CallsExist.vertexFuncs (he : p.CallsExist) (hp : p.Distinct) :
    (∀ f ∈ Glsl.vertexFuncs p, p.Covers (Glsl.vertexFuncs p) f.body) ∧
      ∀ b, p.vertex = some b → p.Covers (Glsl.vertexFuncs p) b := by
  unfold Glsl.vertexFuncs
  cases hv : p.vertex with
  | none => exact ⟨fun f hf => he.covers_func hf, fun _ hb => by cases hb⟩
  | some b =>
    refine ⟨fun f hf => ⟨.inr (.inr ⟨f, mem_of_reachable hf, rfl⟩), fun i hi => ?_⟩, fun c hc => ⟨.inl (hv ▸ hc), ?_⟩⟩
    · exact (he.callee hp hf hi).imp fun _ hg => ⟨mem_of_reachable hg.1, hg⟩
    · cases hc
      exact fun i hi => (he.entry hp (.inl hv) hi).imp fun _ hg => ⟨mem_of_reachable hg.1, hg⟩

theorem Program.CallsExist.fragmentFuncs (he : p.CallsExist) (hp : p.Distinct) :
    ∀ f ∈ Glsl.fragmentFuncs p, p.Covers (Glsl.fragmentFuncs p) f.body := by
  unfold Glsl.fragmentFuncs
  cases hb : nonEmpty p.fragment with
  | none => exact fun f hf => he.covers_func hf
  | some b =>
    have hb := eq_some_of_nonEmpty hb
    refine List.forall_mem_append.mpr ⟨fun f hf => ⟨.inr (.inr ⟨f, mem_of_reachable hf, rfl⟩), fun i hi => ?_⟩,
      List.forall_mem_singleton.mpr ⟨.inr (.inl hb), fun i hi => ?_⟩⟩
    · obtain ⟨g, hg, rfl⟩ := he.callee hp hf hi
      exact ⟨g, mem_of_reachable hg, List.mem_append_left _ hg, rfl⟩
    · obtain ⟨g, hg, rfl⟩ := he.entry hp (.inr hb) hi
      exact ⟨g, mem_of_reachable hg, List.mem_append_left _ hg, rfl⟩

theorem Program.mem_callees (hp : p.Distinct) :
    i ∈ (p.reachableFuncs b).map Func.index ↔ ∃ f, p.Calls b f ∧ f.index = i := by
  simp only [List.mem_map, Program.mem_reachableFuncs hp]

theorem Program.nodup_callees (hp : p.Distinct) (b : Block) : ((p.reachableFuncs b).map Func.index).Nodup :=
  List.Pairwise.map _ (fun _ _ h => Nat.ne_of_lt h) (Program.reachableFuncs_sorted hp)

theorem Program.nodup_vertexFuncs (hp : p.Distinct) : ((Glsl.vertexFuncs p).map Func.index).Nodup := by
  unfold Glsl.vertexFuncs
  cases p.vertex with
  | none => exact hp
  | some b => exact Program.nodup_callees hp b

/-- The number of the function that holds a fragment's code is no helper's. -/
theorem Program.nodup_fragmentFuncs (hp : p.Distinct) : ((Glsl.fragmentFuncs p).map Func.index).Nodup := by
  unfold Glsl.fragmentFuncs
  cases nonEmpty p.fragment with
  | none => exact hp
  | some b =>
    rw [Option.elim_some, List.map_append]
    refine List.nodup_append.mpr ⟨Program.nodup_callees hp b, List.nodup_singleton _, fun i hi j hj => ?_⟩
    obtain ⟨f, hf, rfl⟩ := List.mem_map.mp hi
    rw [List.mem_singleton.mp hj]
    exact Nat.ne_of_lt (Glsl.lt_freshIndex (mem_of_reachable hf))

theorem vertexShader_calls (hp : p.Distinct) (he : p.CallsExist) (h : Glsl.vertexShader version p = .ok text) :
    DeclaresMentioned text ∧ ∀ b, p.vertex = some b → ∀ i, Declared text i ↔ ∃ f, p.Calls b f ∧ f.index = i := by
  obtain ⟨hfuncs, hentry⟩ := he.vertexFuncs hp
  have hdecl := Glsl.vertexShader_declares (fun f hf _ => (hfuncs f hf).mem) (fun b hb _ => (hentry b hb).mem) version
    text h
  refine ⟨hdecl.mentioned (Program.nodup_vertexFuncs hp), fun b hb i => ?_⟩
  rw [hdecl.declared_iff, Glsl.vertexFuncs, hb, Option.elim_some, Program.mem_callees hp]

theorem fragmentShader_calls (hp : p.Distinct) (he : p.CallsExist) (h : Glsl.fragmentShader version p = .ok text) :
    DeclaresMentioned text ∧ ∀ b, nonEmpty p.fragment = some b →
      ∀ i, Declared text i ↔ i = Glsl.freshIndex p ∨ ∃ f, p.Calls b f ∧ f.index = i := by
  have hdecl := Glsl.fragmentShader_declares (fun f hf _ => (he.fragmentFuncs hp f hf).mem) version text h
  refine ⟨hdecl.mentioned (Program.nodup_fragmentFuncs hp), fun b hb i => ?_⟩
  rw [hdecl.declared_iff, Glsl.fragmentFuncs, hb, Option.elim_some, List.map_append, List.mem_append,
    Program.mem_callees hp, or_comm, List.map_singleton, List.mem_singleton]
  rfl

end

/-- Two functions that call each other, and one that no stage can reach. -/
def circleSample : Program where
  funcs :=
    [⟨3, [], [], .none, .mk [] 0 [.expr (.call (.func 0) [])]⟩,
      ⟨0, [], [], .none, .mk [] 0 [.block (.mk [] 0 [.expr (.call (.func 3) [])])]⟩,
      ⟨5, [], [], .none, .mk [] 0 [.expr (.call (.func 3) [])]⟩]
  fragment := some (.mk [] 1 [.expr (.call (.func 3) []), .ret (some (.localVar 0))])

end GameMedia.Shader
