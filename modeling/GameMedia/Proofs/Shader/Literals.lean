import GameMedia.Proofs.Number.Rounding
import GameMedia.Shader.Constant.Literal

/-!
# Literals that are read back

A number is written with a sign, digits on both sides of a point and perhaps an exponent. Read as a literal, such a text
denotes the number that its digits and its exponent say, whatever it was written for.
-/

namespace GameMedia.Shader

open List Option Nat

namespace Literal

/-! ## Digits -/

def AllDigits (cs : List Char) : Prop := ∀ c ∈ cs, c.isDigit = true

variable {ds w f xs : List Char} {c sep : Char}

theorem allDigits_toDigits (n : Nat) : AllDigits (toDigits 10 n) :=
  fun _ hc => isDigit_of_mem_toDigits (by decide) (by decide) hc

theorem AllDigits.not_mem (h : AllDigits ds) (hsep : sep.isDigit = false) : sep ∉ ds := by
  intro hmem
  rw [h sep hmem] at hsep
  cases hsep

theorem toLower_of_isDigit (h : c.isDigit = true) : c.toLower = c := by
  rw [Char.isDigit_iff_toNat] at h
  unfold Char.toLower
  refine dif_neg fun hupper => ?_
  have hlow : 'A'.toNat ≤ c.toNat := hupper.1
  have hhigh : c.toNat ≤ '9'.toNat := h.2
  exact absurd (hlow.trans hhigh) (by decide)

theorem AllDigits.utf8ByteSize (h : AllDigits ds) : (String.ofList ds).utf8ByteSize = ds.length := by
  induction ds with
  | nil => rfl
  | cons d ds ih =>
    obtain ⟨hd, hds⟩ := forall_mem_cons.mp h
    have hsize : d.utf8Size = 1 := by
      rw [Char.isDigit_iff_toNat] at hd
      exact Char.utf8Size_eq_one_iff.mpr (UInt32.le_iff_toNat_le.mpr (hd.2.trans (by decide)))
    rw [String.ofList_cons, String.utf8ByteSize_append, String.utf8ByteSize_singleton, hsize, ih hds,
      length_cons]
    omega

theorem digitsFrom_append (base acc : Nat) (xs ys : List Char) :
    digitsFrom base acc (xs ++ ys) = (digitsFrom base acc xs).bind fun a => digitsFrom base a ys := by
  induction xs generalizing acc with
  | nil => rfl
  | cons x xs ih =>
    rw [cons_append, digitsFrom, digitsFrom]
    split
    · split
      · exact ih _
      · rfl
    · rfl

theorem digitsFrom_toDigits (n : Nat) : digitsFrom 10 0 (toDigits 10 n) = some n := by
  have hdigit : ∀ acc, ∀ d < 10, digitsFrom 10 acc [d.digitChar] = some (acc * 10 + d) := by
    intro acc d hd
    have hvalue : ∀ d < 10, digitValue d.digitChar = some d := by decide
    simp only [digitsFrom, hvalue d hd, if_pos hd]
  induction n using Nat.strong_induction_on with
  | _ n ih =>
    rcases Nat.lt_or_ge n 10 with hlt | hge
    · rw [toDigits_of_lt_base hlt, hdigit 0 n hlt, Nat.zero_mul, Nat.zero_add]
    · rw [toDigits_of_base_le (by decide) hge, digitsFrom_append, ih (n / 10) (by omega)]
      simp only [bind_some, hdigit _ _ (mod_lt n (by decide))]
      exact congrArg some (by omega)

/-! ## Parts of a text -/

def signChars (negative : Bool) : List Char := if negative then ['-'] else []

theorem mem_signChars (h : c ∈ signChars negative) : c = '-' := by
  cases negative with
  | true => exact mem_singleton.mp h
  | false => cases h

theorem signed_digits (negative : Bool) (hds : AllDigits ds) (hne : ds ≠ []) :
    signed 10 (signChars negative ++ ds) = (digitsFrom 10 0 ds).map fun n : Nat => if negative then -(n : Int) else n := by
  have hnatural : natural 10 ds = digitsFrom 10 0 ds := if_neg (by simpa using hne)
  cases negative with
  | true =>
    rw [signChars, if_pos rfl, singleton_append, signed, hnatural]
    cases digitsFrom 10 0 ds <;> rfl
  | false =>
    cases ds with
    | nil => exact absurd rfl hne
    | cons d ds =>
      have hd := hds d mem_cons_self
      change signed 10 (d :: ds) = _
      unfold signed
      split
      · next heq =>
        obtain ⟨rfl, -⟩ := cons.inj heq
        exact absurd hd (by decide)
      · next heq =>
        obtain ⟨rfl, -⟩ := cons.inj heq
        exact absurd hd (by decide)
      · rw [hnatural]
        rfl

theorem toList_int (k : Int) : (toString k).toList = signChars (k < 0) ++ toDigits 10 k.natAbs := by
  cases k with
  | ofNat n => exact toList_repr
  | negSucc n =>
    change ("-" ++ Nat.repr (n + 1)).toList = _
    rw [String.toList_append, toList_repr, decide_eq_true (Int.negSucc_lt_zero n)]
    rfl

theorem splitAtFirst_append (h : sep ∉ xs) (ys : List Char) : splitAtFirst sep (xs ++ sep :: ys) = (xs, some ys) := by
  have hxs : ∀ c ∈ xs, decide (c ≠ sep) = true := fun c hc => decide_eq_true fun heq => h (heq ▸ hc)
  unfold splitAtFirst
  rw [takeWhile_append_of_pos hxs, dropWhile_append_of_pos hxs]
  simp

theorem splitAtFirst_none (h : sep ∉ xs) : splitAtFirst sep xs = (xs, none) := by
  have hxs : ∀ c ∈ xs, decide (c ≠ sep) = true := fun c hc => decide_eq_true fun heq => h (heq ▸ hc)
  unfold splitAtFirst
  rw [takeWhile_eq_self_iff.mpr hxs, dropWhile_eq_nil_iff.mpr hxs]

theorem normalize_text (h : ∀ c ∈ s.toList, c.isDigit = true ∨ c ∈ ['-', '.', 'e']) :
    normalize s = s.toList := by
  have hplain : ∀ c ∈ s.toList, c ≠ '_' ∧ c.toLower = c := by
    intro c hc
    rcases h c hc with hd | hmem
    · refine ⟨?_, toLower_of_isDigit hd⟩
      rintro rfl
      exact absurd hd (by decide)
    · simp only [mem_cons, not_mem_nil, or_false] at hmem
      rcases hmem with rfl | rfl | rfl <;> exact ⟨by decide, dif_neg (by decide)⟩
  unfold normalize
  rw [filter_eq_self.mpr fun c hc => decide_eq_true (hplain c hc).1]
  exact (map_congr_left fun c hc => (hplain c hc).2).trans (List.map_id _)

def IsInteger (cs : List Char) : Prop := ∃ negative w, cs = signChars negative ++ w ∧ AllDigits w ∧ w ≠ []

theorem isInteger_int (k : Int) : IsInteger (toString k).toList :=
  ⟨_, _, toList_int k, allDigits_toDigits _, toDigits_ne_nil⟩

theorem IsInteger.plain (h : IsInteger cs) : ∀ c ∈ cs, c.isDigit = true ∨ c ∈ ['-', '.', 'e'] := by
  obtain ⟨negative, w, rfl, hw, -⟩ := h
  intro c hc
  rcases mem_append.mp hc with hc | hc
  · exact .inr (mem_signChars hc ▸ mem_cons_self)
  · exact .inl (hw c hc)

theorem signed_int (k : Int) : signed 10 (signChars (k < 0) ++ toDigits 10 k.natAbs) = some k := by
  rw [signed_digits _ (allDigits_toDigits _) toDigits_ne_nil, digitsFrom_toDigits]
  refine congrArg some ?_
  split_ifs with h <;> simp only [decide_eq_true_eq] at h ⊢ <;> omega

theorem exponent?_int (hk : k.natAbs ≤ 5000) : Constant.exponent? (some (toString k).toList) = some k := by
  rw [Constant.exponent?, toList_int, signed_int, filter_some, if_pos]
  exact decide_eq_true (by omega)

end Literal

open Literal

variable {negative : Bool} {n m : Nat} {k e : Int} {r : Rat}

/-- A sign, digits around a point and an exponent are found again in a text that is made of them. -/
theorem Constant.ofFloatLiteral?_split
    (hs : normalize s = signChars negative ++ w ++ point ++ f ++ part.elim [] ('e' :: ·)) (hw : AllDigits w)
    (hf : AllDigits f) (hne : w ++ f ≠ []) (hpoint : point = ['.'] ∨ point = [] ∧ f = []) :
    ofFloatLiteral? s = (exponent? part).bind fun e => (digitsFrom 10 0 (w ++ f)).bind fun n =>
      if maxScale < (e - f.length).natAbs then none
      else some (.float ((if negative then -(n : Int) else n : Int) * 10 ^ (e - f.length))) := by
  have hwhole : ∀ sep, sep.isDigit = false → sep ≠ '-' → sep ∉ signChars negative ++ w := by
    intro sep hdigit hminus hmem
    rcases mem_append.mp hmem with hmem | hmem
    · exact hminus (mem_signChars hmem)
    · exact hw.not_mem hdigit hmem
  have hmantissa : 'e' ∉ signChars negative ++ w ++ point ++ f := by
    intro hmem
    rcases mem_append.mp hmem with hmem | hmem
    · rcases mem_append.mp hmem with hmem | hmem
      · exact hwhole 'e' (by decide) (by decide) hmem
      · rcases hpoint with rfl | ⟨rfl, -⟩
        · exact absurd hmem (by decide)
        · cases hmem
    · exact hf.not_mem (by decide) hmem
  have hsplit : splitAtFirst 'e' (normalize s) = (signChars negative ++ w ++ point ++ f, part) := by
    rw [hs]
    cases part with
    | none => rw [elim_none, append_nil, splitAtFirst_none hmantissa]
    | some cs => exact splitAtFirst_append hmantissa cs
  have hdot : ∃ tail, splitAtFirst '.' (signChars negative ++ w ++ point ++ f) = (signChars negative ++ w, tail) ∧
      tail.getD [] = f := by
    rcases hpoint with rfl | ⟨rfl, rfl⟩
    · rw [append_assoc _ ['.']]
      exact ⟨some f, splitAtFirst_append (hwhole '.' (by decide) (by decide)) f, rfl⟩
    · rw [append_nil, append_nil]
      exact ⟨none, splitAtFirst_none (hwhole '.' (by decide) (by decide)), rfl⟩
  obtain ⟨tail, hdot, htail⟩ := hdot
  have hnumber := signed_digits negative (forall_mem_append.mpr ⟨hw, hf⟩) hne
  rw [← append_assoc] at hnumber
  unfold ofFloatLiteral?
  rw [hsplit]
  simp only [hdot, htail, hnumber, hf.utf8ByteSize]
  cases digitsFrom 10 0 (w ++ f) <;> rfl

/-- **What a text denotes** that is a sign, digits around a point and an exponent, which may be left out if it is zero. -/
theorem Constant.ofFloatLiteral?_text (hs : s.toList = signChars negative ++ w ++ '.' :: (f ++ power))
    (hw : AllDigits w) (hne : w ≠ []) (hf : AllDigits f)
    (hpower : power = [] ∧ k = 0 ∨ power = 'e' :: (toString k).toList) (hn : digitsFrom 10 0 (w ++ f) = some n)
    (hk : k.natAbs ≤ 5000) (hlen : f.length ≤ 5000) :
    ofFloatLiteral? s = some (.float ((if negative then -(n : Int) else n : Int) * 10 ^ (k - f.length))) := by
  have hnorm : normalize s = s.toList := by
    refine normalize_text fun c hc => ?_
    rw [hs] at hc
    rcases mem_append.mp hc with hc | hc
    · rcases mem_append.mp hc with hc | hc
      · exact .inr (mem_signChars hc ▸ mem_cons_self)
      · exact .inl (hw c hc)
    rcases mem_cons.mp hc with rfl | hc
    · exact .inr (by decide)
    rcases mem_append.mp hc with hc | hc
    · exact .inl (hf c hc)
    rcases hpower with ⟨rfl, -⟩ | rfl
    · cases hc
    rcases mem_cons.mp hc with rfl | hc
    · exact .inr (by decide)
    · exact (isInteger_int k).plain c hc
  obtain ⟨part, rfl, hpart⟩ : ∃ part : Option (List Char), power = part.elim [] ('e' :: ·) ∧ exponent? part = some k := by
    rcases hpower with ⟨rfl, rfl⟩ | rfl
    · exact ⟨none, rfl, rfl⟩
    · exact ⟨some _, rfl, exponent?_int hk⟩
  have htext : normalize s = signChars negative ++ w ++ ['.'] ++ f ++ part.elim [] ('e' :: ·) := by simp [hnorm, hs]
  rw [ofFloatLiteral?_split htext hw hf (by simp [hne]) (.inl rfl), hpart, hn, bind_some, bind_some]
  exact if_neg (by unfold maxScale; omega)

/-! ## Printed numbers -/

open Number (Binary64 Decimal)

/-- The digits that a double is written with, the first before the point. -/
def Literal.shownDigits (places n : Nat) : List Char :=
  if n = 0 then List.replicate (places + 1) '0' else Decimal.digits n

theorem Literal.allDigits_shownDigits (places n : Nat) : AllDigits (shownDigits places n) := by
  unfold shownDigits
  split
  · exact fun c hc => eq_of_mem_replicate hc ▸ by decide
  · exact allDigits_toDigits n

theorem Literal.toList_scientific (negative : Bool)
    (hnk : (if m = 0 then (0, 0) else Binary64.rounded ((m : Rat) * 2 ^ e) places) = (n, k)) :
    ((Binary64.finite negative m e).scientific places).toList = signChars negative ++ (shownDigits places n).take 1 ++
      '.' :: ((shownDigits places n).drop 1 ++ 'e' :: (toString k).toList) := by
  have hsign : (Binary64.signText negative).toList = signChars negative := by cases negative <;> decide
  simp only [Binary64.scientific, hnk, String.toList_append, String.toList_ofList, hsign]
  simp [shownDigits, append_assoc]

/-- A double is written with no digit but zeros, or with eleven. -/
theorem Literal.shown_bounds (hnk : (if m = 0 then (0, 0) else Binary64.rounded ((m : Rat) * 2 ^ e) 10) = (n, k)) :
    n = 0 ∨ 10 ^ 10 ≤ n ∧ n < 10 ^ 11 := by
  split at hnk
  · exact .inl (Prod.mk.inj hnk).1.symm
  · next hm₀ =>
    have hm : (0 : Rat) < m := by exact_mod_cast Nat.pos_of_ne_zero hm₀
    obtain ⟨hlow, hhigh, -⟩ := Binary64.rounded_spec (show (0 : Rat) < m * 2 ^ e by positivity) 10
    rw [hnk] at hlow hhigh
    exact .inr ⟨hlow, hhigh⟩

theorem Literal.shownDigits_spec (hn : n = 0 ∨ 10 ^ 10 ≤ n ∧ n < 10 ^ 11) :
    digitsFrom 10 0 (shownDigits 10 n) = some n ∧ (shownDigits 10 n).length = 11 := by
  unfold shownDigits
  by_cases h : n = 0
  · rw [if_pos h, h]
    exact ⟨by decide, by decide⟩
  · rw [if_neg h]
    have hbounds := hn.resolve_left h
    have hle := (length_toDigits_le_iff (by decide : 1 < 10) (by decide : 0 < 11)).mpr hbounds.2
    have hgt := mt (length_toDigits_le_iff (by decide : 1 < 10) (by decide : 0 < 10)).mp (not_lt.mpr hbounds.1)
    exact ⟨digitsFrom_toDigits n, by unfold Decimal.digits; omega⟩

/-- A double in the form that literals have, read back: eleven digits, and the exponent of the first of them. -/
theorem Constant.ofFloatLiteral?_scientific
    (hnk : (if m = 0 then (0, 0) else Binary64.rounded ((m : Rat) * 2 ^ e) 10) = (n, k)) (hk : k.natAbs ≤ 5000) :
    ofFloatLiteral? ((Binary64.finite negative m e).scientific 10) =
      some (.float ((if negative then -(n : Int) else n : Int) * 10 ^ (k - 10))) := by
  have hdigits := allDigits_shownDigits 10 n
  obtain ⟨hread, hlen⟩ := shownDigits_spec (shown_bounds hnk)
  have hread' := ofFloatLiteral?_text (toList_scientific negative hnk) (fun c hc => hdigits c (mem_of_mem_take hc))
    (by intro h; simpa [hlen] using congrArg length h) (fun c hc => hdigits c (mem_of_mem_drop hc)) (.inr rfl)
    (by rwa [take_append_drop]) hk (by rw [length_drop]; omega)
  rwa [length_drop, hlen] at hread'

/-- Texts that the targets read as numbers of a kind. A float has digits on both sides of its point and may have an
exponent. -/
def Literal.Lexes : Constant.Kind → List Char → Prop
  | .bool, cs => cs = "true".toList ∨ cs = "false".toList
  | .int, cs => IsInteger cs
  | .float, cs => ∃ whole f power, cs = whole ++ '.' :: (f ++ power) ∧ IsInteger whole ∧ AllDigits f ∧ f ≠ [] ∧
      (power = [] ∨ ∃ e, power = 'e' :: e ∧ IsInteger e)

/-- All constants but floats that are not integral and too large for a double. -/
def Constant.InRange : Constant → Prop
  | .float r => r.den = 1 ∨ |r| < Binary64.overflow
  | _ => True

/-- **The text of a literal** is read as a number of its kind, unless the constant is out of range. -/
theorem Constant.literal_lexes (c : Constant) :
    c.InRange ∧ Lexes c.kind c.literal.toList ∨ ¬c.InRange ∧ c.literal ∈ ["inf", "-inf"] := by
  cases c with
  | bool b => exact .inl ⟨trivial, by cases b; exact .inr rfl; exact .inl rfl⟩
  | int n => exact .inl ⟨trivial, isInteger_int n⟩
  | float r =>
    by_cases hden : r.den = 1
    · refine .inl ⟨.inl hden, (toString r.num).toList, ['0'], [], ?_, isInteger_int _, ?_, cons_ne_nil _ _, .inl rfl⟩
      · rw [literal, if_pos hden, String.toList_append]
        rfl
      · exact fun c hc => mem_singleton.mp hc ▸ by decide
    have hr : r ≠ 0 := by
      rintro rfl
      exact hden rfl
    have hlit : (Constant.float r).literal = (Binary64.nearest r).scientific 10 := if_neg hden
    obtain ⟨hbig, hnear⟩ | ⟨m, e, hnear, -, -, -, -, -, hlt⟩ := Binary64.nearest_spec hr
    · refine .inr ⟨fun hin => (hin.resolve_left hden).not_ge hbig, ?_⟩
      rw [hlit, hnear]
      cases decide (r < 0) <;> decide
    · refine .inl ⟨.inr hlt, ?_⟩
      rcases hnk : (if m = 0 then (0, 0) else Binary64.rounded ((m : Rat) * 2 ^ e) 10) with ⟨n, k⟩
      have hdigits := allDigits_shownDigits 10 n
      have hlen := (shownDigits_spec (shown_bounds hnk)).2
      have hpart : ∀ {ds : List Char}, ds.length ≠ 0 → ds ≠ [] := fun h hnil => h (congrArg length hnil)
      rw [hlit, hnear]
      exact ⟨_, _, _, toList_scientific _ hnk,
        ⟨_, _, rfl, fun c hc => hdigits c (mem_of_mem_take hc), hpart (by rw [length_take, hlen]; decide)⟩,
        fun c hc => hdigits c (mem_of_mem_drop hc), hpart (by rw [length_drop, hlen]; decide),
        .inr ⟨_, rfl, isInteger_int k⟩⟩

/-- The characters of a literal: those of a word, or digits with a sign before them and more behind. -/
theorem Constant.literal_text (c : Constant) : c.literal ∈ ["true", "false", "inf", "-inf"] ∨
    ∃ negative w f, c.literal.toList = signChars negative ++ w ++ f ∧ AllDigits w ∧ w ≠ [] ∧
      ∀ x ∈ f, x.isDigit = true ∨ x ∈ ['-', '.', 'e'] := by
  rcases c.literal_lexes with ⟨-, h⟩ | ⟨-, h⟩
  · cases c with
    | bool b => exact .inl (by cases b <;> decide)
    | int n =>
      obtain ⟨negative, w, htext, hw, hne⟩ := h
      exact .inr ⟨negative, w, [], by rw [htext, append_nil], hw, hne, forall_mem_nil _⟩
    | float r =>
      obtain ⟨whole, f, power, htext, ⟨negative, w, rfl, hw, hne⟩, hf, -, hpower⟩ := h
      refine .inr ⟨negative, w, _, htext, hw, hne, forall_mem_cons.mpr ⟨.inr (by decide), ?_⟩⟩
      refine forall_mem_append.mpr ⟨fun x hx => .inl (hf x hx), ?_⟩
      rcases hpower with rfl | ⟨e, rfl, he⟩
      · exact forall_mem_nil _
      · exact forall_mem_cons.mpr ⟨.inr (by decide), he.plain⟩
  · exact .inl (by rcases mem_pair.mp h with h | h <;> rw [h] <;> decide)

theorem Literal.head?_toDigits (h : n ≠ 0) : (toDigits 10 n).head? ≠ some '0' := by
  induction n using Nat.strong_induction_on with
  | _ n ih =>
    rcases Nat.lt_or_ge n 10 with hlt | hge
    · rw [toDigits_of_lt_base hlt]
      interval_cases n <;> simp_all
    · rw [toDigits_of_base_le (by decide) hge, head?_append_of_ne_nil _ toDigits_ne_nil]
      exact ih (n / 10) (by omega) (by omega)

/-- Without a leading zero, an integer is decimal. -/
theorem Constant.ofIntLiteral?_decimal (h : ∀ c cs, normalize s ≠ '0' :: c :: cs) :
    ofIntLiteral? s = (signed 10 (normalize s)).map .int := by
  unfold ofIntLiteral?
  split <;> first | rfl | next heq => exact absurd heq (h _ _)

theorem Constant.ofIntLiteral?_int (n : Int) : ofIntLiteral? (Constant.int n).literal = some (.int n) := by
  have htext : normalize (Constant.int n).literal = signChars (n < 0) ++ toDigits 10 n.natAbs := by
    rw [literal, normalize_text (isInteger_int n).plain, toList_int]
  rw [ofIntLiteral?_decimal, htext, signed_int]
  · rfl
  intro c cs h
  rw [htext] at h
  by_cases hneg : n < 0
  · rw [decide_eq_true hneg] at h
    cases h
  · rw [decide_eq_false hneg, signChars] at h
    change toDigits 10 n.natAbs = _ at h
    by_cases hzero : n.natAbs = 0
    · rw [hzero] at h
      cases h
    · exact head?_toDigits hzero (by rw [h]; rfl)

/-- An integral number is read back as it is. -/
theorem Constant.ofFloatLiteral?_integral (h : r.den = 1) :
    ofFloatLiteral? (Constant.float r).literal = some (.float r) := by
  have htext : (Constant.float r).literal.toList =
      signChars (r.num < 0) ++ toDigits 10 r.num.natAbs ++ '.' :: (['0'] ++ []) := by
    rw [literal, if_pos h, String.toList_append, toList_int]
    rfl
  have hn : digitsFrom 10 0 (toDigits 10 r.num.natAbs ++ ['0']) = some (r.num.natAbs * 10) := by
    rw [digitsFrom_append, digitsFrom_toDigits]
    rfl
  have hread := ofFloatLiteral?_text htext (allDigits_toDigits _) toDigits_ne_nil
    (fun c hc => mem_singleton.mp hc ▸ by decide) (.inl ⟨rfl, rfl⟩) hn (by decide) (by decide)
  rw [hread]
  have hvalue : ((if decide (r.num < 0) then -((r.num.natAbs * 10 : Nat) : Int) else (r.num.natAbs * 10 : Nat) : Int)) =
      r.num * 10 := by split_ifs with hneg <;> simp only [decide_eq_true_eq] at hneg <;> omega
  rw [hvalue]
  push_cast
  rw [Rat.coe_int_num_of_den_eq_one h]
  norm_num
  ring

/-- What the literal of a number keeps of it: the sign, an integral number as a whole, and something of all numbers that
are not the least. -/
structure Constant.Kept (r r' : Rat) : Prop where
  sign : 0 ≤ r * r'
  zero : r' = 0 ↔ |r| ≤ 2 ^ (-1075 : Int)
  integral : r.den = 1 → r' = r

theorem leadingExponent_natAbs (hm₀ : m ≠ 0) (hm : m ≤ 2 ^ 53) (he₀ : -1074 ≤ e) (he₁ : e ≤ 971) :
    (Decimal.leadingExponent ((m : Rat) * 2 ^ e)).natAbs ≤ 2000 := by
  have hm₁ : (1 : Rat) ≤ m := by exact_mod_cast one_le_iff_ne_zero.mpr hm₀
  have hm₂ : (m : Rat) ≤ 2 ^ 53 := by exact_mod_cast hm
  have hx : (0 : Rat) < m * 2 ^ e := by positivity
  obtain ⟨hlow, hhigh⟩ := Number.leadingExponent_spec hx
  have hten : ∀ {i j : Int}, (10 : Rat) ^ i < 10 ^ j → i < j := fun h => (zpow_lt_zpow_iff_right₀ (by norm_num)).mp h
  have hpow : ∀ i : Nat, (2 : Rat) ^ (i : Int) ≤ 10 ^ (i : Int) := by
    intro i
    rw [zpow_natCast, zpow_natCast]
    exact pow_le_pow_left₀ (by norm_num) (by norm_num) i
  have htop : (m : Rat) * 2 ^ e < 10 ^ (1025 : Int) := by
    calc (m : Rat) * 2 ^ e ≤ 2 ^ (53 : Int) * 2 ^ (971 : Int) := by gcongr; exact_mod_cast hm; norm_num
      _ = 2 ^ ((1024 : Nat) : Int) := by rw [← zpow_add₀ two_ne_zero]; rfl
      _ ≤ 10 ^ ((1024 : Nat) : Int) := hpow 1024
      _ < 10 ^ (1025 : Int) := zpow_lt_zpow_right₀ (by norm_num) (by norm_num)
  have hbottom : (10 : Rat) ^ (-1075 : Int) < m * 2 ^ e := by
    calc (10 : Rat) ^ (-1075 : Int) < 10 ^ (-((1074 : Nat) : Int)) := zpow_lt_zpow_right₀ (by norm_num) (by norm_num)
      _ ≤ 2 ^ (-((1074 : Nat) : Int)) := by
        rw [zpow_neg, zpow_neg]
        exact inv_anti₀ (by positivity) (hpow 1074)
      _ ≤ 1 * 2 ^ e := by rw [one_mul]; exact zpow_le_zpow_right₀ one_le_two he₀
      _ ≤ m * 2 ^ e := mul_le_mul_of_nonneg_right hm₁ (by positivity)
  have h₁ := hten (hlow.trans_lt htop)
  have h₂ := hten (hbottom.trans hhigh)
  omega

/-- A double that is not zero, read back: it keeps its sign, and is off by half of its last digit at most. -/
theorem Constant.ofFloatLiteral?_nearest (hden : r.den ≠ 1) (hnear : Binary64.nearest r = .finite (r < 0) m e)
    (hm₀ : m ≠ 0) (hm : m ≤ 2 ^ 53) (he₀ : -1074 ≤ e) (he₁ : e ≤ 971) :
    ∃ x : Rat, 0 < x ∧ |x - m * 2 ^ e| ≤ m * 2 ^ e / (2 * 10 ^ 10) ∧
      ofFloatLiteral? (Constant.float r).literal = some (.float (if r < 0 then -x else x)) := by
  have hpos : (0 : Rat) < m := by exact_mod_cast Nat.pos_of_ne_zero hm₀
  have hx : (0 : Rat) < m * 2 ^ e := by positivity
  obtain ⟨hn₀, -, hdist, hk⟩ := Binary64.rounded_spec hx 10
  have hle := leadingExponent_natAbs hm₀ hm he₀ he₁
  have hlead := (Number.leadingExponent_spec hx).1
  rcases hnk : Binary64.rounded ((m : Rat) * 2 ^ e) 10 with ⟨n, k⟩
  rw [hnk] at hn₀ hdist hk
  dsimp only at hn₀ hdist hk
  have hn : (0 : Rat) < n := by exact_mod_cast (by omega : 0 < n)
  refine ⟨n * 10 ^ (k - 10), by positivity, ?_, ?_⟩
  · refine hdist.trans ?_
    rw [zpow_sub₀ (by norm_num), zpow_natCast]
    linarith
  · rw [literal, if_neg hden, hnear, ofFloatLiteral?_scientific ((if_neg hm₀).trans hnk) (by omega)]
    by_cases hneg : r < 0 <;> simp [hneg]

/-- **A literal denotes a number** that keeps that much of the one it is written for, if it is integral or a double can
be near it. -/
theorem Constant.literal_kept (h : r.den = 1 ∨ |r| < 2 ^ 1023) :
    ∃ r', ofFloatLiteral? (Constant.float r).literal = some (.float r') ∧ Kept r r' := by
  by_cases hden : r.den = 1
  · refine ⟨r, ofFloatLiteral?_integral hden, mul_self_nonneg r, ?_, fun _ => rfl⟩
    refine ⟨fun h₀ => by rw [h₀, abs_zero]; positivity, fun hsmall => ?_⟩
    rw [← Rat.coe_int_num_of_den_eq_one hden] at hsmall ⊢
    have hlt : |(r.num : Rat)| < 1 := hsmall.trans_lt (zpow_lt_one_of_neg₀ one_lt_two (by decide))
    have hzero : r.num = 0 := Int.abs_lt_one_iff.mp (by exact_mod_cast hlt)
    rw [hzero, Int.cast_zero]
  have hr : r ≠ 0 := by
    rintro rfl
    exact hden rfl
  obtain ⟨hbig, -⟩ | ⟨m, e, hnear, hm, he₀, he₁, -, hzero, -⟩ := Binary64.nearest_spec hr
  · have hlarge := Binary64.overflow_bounds.1.trans_le hbig
    rw [zpow_ofNat] at hlarge
    exact absurd (h.resolve_left hden) hlarge.not_gt
  by_cases hm₀ : m = 0
  · refine ⟨0, ?_, by simp, iff_of_true rfl (hzero.mp hm₀), fun h => absurd h hden⟩
    rw [literal, if_neg hden, hnear, ofFloatLiteral?_scientific (if_pos hm₀) (by decide)]
    simp
  · obtain ⟨x, hx, -, hread⟩ := ofFloatLiteral?_nearest hden hnear hm₀ hm he₀ he₁
    refine ⟨_, hread, ?_, iff_of_false ?_ fun hsmall => hm₀ (hzero.mpr hsmall), fun h => absurd h hden⟩
    · split_ifs with hneg
      · exact mul_nonneg_of_nonpos_of_nonpos hneg.le (neg_nonpos.mpr hx.le)
      · exact mul_nonneg (not_lt.mp hneg) hx.le
    · split_ifs
      · exact neg_ne_zero.mpr hx.ne'
      · exact hx.ne'

/-- **Literals keep their value.** An integer and an integral float are read back as they are. Any other float is read
back with a relative error below 6 in 100,000,000,000, if it is neither beyond the greatest double nor below the least
that has all its digits. -/
theorem Constant.literals_read_back :
    (∀ n : Int, ofIntLiteral? (Constant.int n).literal = some (.int n)) ∧
    (∀ r : Rat, r.den = 1 → ofFloatLiteral? (Constant.float r).literal = some (.float r)) ∧
    ∀ q : Rat, q.den ≠ 1 → 2 ^ (-1022 : Int) ≤ |q| → |q| ≤ (2 ^ 53 - 1) * 2 ^ (971 : Int) →
      ∃ r, ofFloatLiteral? (Constant.float q).literal = some (.float r) ∧ |r - q| ≤ 6 / 10 ^ 11 * |q| := by
  refine ⟨ofIntLiteral?_int, fun r h => ofFloatLiteral?_integral h, fun q hden hlow hhigh => ?_⟩
  have hq : q ≠ 0 := by
    rintro rfl
    exact hden rfl
  have hleast : (2 : Rat) ^ (-1075 : Int) ≤ |q| / 2 ^ 53 := by
    rw [le_div_iff₀ (by positivity), ← zpow_natCast, ← zpow_add₀ two_ne_zero]
    exact hlow
  obtain ⟨hbig, -⟩ | ⟨m, e, hnear, hm, he₀, he₁, hdist, hzero, -⟩ := Binary64.nearest_spec hq
  · have hunit : (0 : Rat) < 2 ^ (971 : Int) := by positivity
    rw [Binary64.overflow_bounds.2.2] at hbig
    exact absurd (hbig.trans hhigh) (by rw [not_le, mul_lt_mul_iff_left₀ hunit]; norm_num)
  rw [max_eq_left hleast] at hdist
  have hm₀ : m ≠ 0 := by
    intro hm₀
    linarith [(hzero.mp hm₀).trans hleast, abs_pos.mpr hq]
  obtain ⟨x, hx, herr, hread⟩ := ofFloatLiteral?_nearest hden hnear hm₀ hm he₀ he₁
  refine ⟨_, hread, ?_⟩
  have habs : |(if q < 0 then -x else x) - q| = |x - (|q|)| := by
    split_ifs with hneg
    · rw [abs_of_neg hneg, ← abs_neg]
      ring_nf
    · rw [abs_of_nonneg (not_lt.mp hneg)]
  rw [habs]
  generalize (m : Rat) * 2 ^ e = y at herr hdist
  generalize |q| = z at herr hdist
  rw [abs_le] at herr hdist ⊢
  constructor <;> linarith

theorem Constant.third_read_back : (1 / 3 : Rat).den ≠ 1 ∧
    ∃ r, ofFloatLiteral? (Constant.float (1 / 3)).literal = some (.float r) ∧ |r - 1 / 3| ≤ 6 / 10 ^ 11 * |1 / 3| := by
  have hden : (1 / 3 : Rat).den ≠ 1 := by decide +kernel
  refine ⟨hden, literals_read_back.2.2 _ hden ?_ ?_⟩
  · exact (zpow_le_zpow_right₀ one_le_two (by decide : (-1022 : Int) ≤ -2)).trans (by norm_num)
  · have hone : (1 : Rat) ≤ 2 ^ (971 : Int) := one_le_zpow₀ one_le_two (by decide)
    generalize (2 : Rat) ^ (971 : Int) = u at hone ⊢
    norm_num
    linarith

end GameMedia.Shader
