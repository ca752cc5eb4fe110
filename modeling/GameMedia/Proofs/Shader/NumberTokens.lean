import Mathlib
import GameMedia.Proofs.Shader.Literals
import GameMedia.Proofs.Shader.Tokens

/-!
# Numbers in source text

What is scanned as a number and what is read as one are told by rules of their own. Here they meet: the text of an integer
or a float token has a form that its width was counted by, and what is read from that form is the number it denotes.
-/

namespace GameMedia.Shader

open List Option

/-- What holds of the characters in a range of code points holds of one that is in it. -/
@[elab_as_elim]
theorem char_of_range {P : Char → Prop} (c : Char) (low high : ℕ) (hlow : low ≤ c.toNat) (hhigh : c.toNat ≤ high)
    (h : ∀ n ∈ List.range' low (high + 1 - low), P (Char.ofNat n)) : P c := by
  have hc := h c.toNat (by rw [mem_range'_1]; omega)
  rwa [Char.ofNat_toNat] at hc

namespace Scan

variable {cs ds : List Char} {p : Char → Bool} {c : Char}

theorem char_le : a ≤ c ↔ a.toNat ≤ c.toNat := UInt32.le_iff_toNat_le

theorem digitChar_cases (h : isDigitChar c = true) : 48 ≤ c.toNat ∧ c.toNat ≤ 57 ∨ c = '_' := by
  simp only [isDigitChar, isDigit, Bool.or_eq_true, Bool.and_eq_true, decide_eq_true_eq, char_le] at h
  exact h

theorem wider_eq_some (h : wider a b = some n) : a = some n ∨ b = some n := by
  cases a with
  | none => cases b <;> exact .inr h
  | some k =>
    cases b with
    | none => exact .inl h
    | some m =>
      cases h
      exact (max_choice k m).imp (congrArg some ·.symm) (congrArg some ·.symm)

/-- A run that goes to the end is a run of all characters. -/
theorem all_of_someWidth (h : (someWidth p cs).map (m + ·) = some (m + cs.length)) : ∀ c ∈ cs, p c = true := by
  obtain ⟨k, hk, hlen⟩ := map_eq_some_iff.mp h
  rw [someWidth] at hk
  split at hk
  · cases hk
  · have hrun := (some.inj hk).trans (Nat.add_left_cancel hlen)
    exact takeWhile_eq_self_iff.mp ((takeWhile_sublist p).eq_of_length hrun)

/-- **A number token is as wide as its own rule says.** -/
theorem width_of_lexeme (ht : t = .int s ∨ t = .float s) (h : lexeme cs = some (.token t, n)) :
    (if t = .int s then intWidth cs else floatWidth cs) = some n := by
  -- no other rule makes a number
  have hnumber : numberLexeme cs = some (.token t, n) := by
    have hword : ∀ w, wordToken w ≠ t := by
      intro w
      unfold wordToken
      rcases ht with rfl | rfl <;> split <;> simp
    unfold lexeme at h
    repeat' split at h
    all_goals first | exact h | grind [cut, symbolLexeme, map_eq_some_iff]
  obtain ⟨⟨m, make⟩, hwidest, hcut⟩ := map_eq_some_iff.mp hnumber
  obtain ⟨hl, rfl⟩ := Prod.mk.inj hcut
  have hmem := widest_mem hwidest
  simp only [mem_cons, not_mem_nil, or_false, Prod.mk.injEq] at hmem
  rcases hmem with ⟨hwidth, rfl⟩ | ⟨hwidth, rfl⟩ | ⟨hwidth, rfl⟩ <;> rcases ht with rfl | rfl <;> cases hl
  · exact (if_pos rfl).trans hwidth.symm
  · exact hwidth.symm

end Scan

namespace Literal

variable {base acc : ℕ} {cs : List Char} {c : Char}

/-! ## Values -/

/-- The number that digits of a base denote, the last of them being the least. -/
def numeral (base : ℕ) (cs : List Char) : ℕ := Nat.ofDigits base (cs.map "0123456789abcdef".toList.idxOf).reverse

theorem numeral_append (xs ys : List Char) :
    numeral base (xs ++ ys) = numeral base xs * base ^ ys.length + numeral base ys := by
  simp only [numeral, map_append, reverse_append, Nat.ofDigits_append, length_reverse, length_map]
  ring

def isDigitOf (base : ℕ) (c : Char) : Bool := (digitValue c).any (· < min base 16)

theorem digitValue_of_isDigitOf (h : isDigitOf base c = true) :
    digitValue c = some ("0123456789abcdef".toList.idxOf c) ∧ "0123456789abcdef".toList.idxOf c < base := by
  obtain ⟨d, hd, hlt⟩ := Option.any_eq_true _ _ |>.mp h
  obtain ⟨hbase, hlt⟩ := lt_min_iff.mp (of_decide_eq_true hlt)
  suffices hvalue : digitValue c = some ("0123456789abcdef".toList.idxOf c) by
    rw [hd] at hvalue
    exact ⟨hd.trans hvalue, some.inj hvalue ▸ hbase⟩
  have hrange := hd
  simp only [digitValue, Scan.char_le] at hrange
  split_ifs at hrange with hnum halpha
  · exact char_of_range c 48 57 hnum.1 hnum.2 (by decide)
  · refine char_of_range c 97 102 halpha.1 ?_ (by decide)
    have hletter := some.inj hrange
    change c.toNat - 97 + 10 = d at hletter
    omega

theorem digitsFrom_numeral (h : ∀ c ∈ cs, isDigitOf base c = true) :
    digitsFrom base acc cs = some (acc * base ^ cs.length + numeral base cs) := by
  induction cs generalizing acc with
  | nil => simp [digitsFrom, numeral]
  | cons c cs ih =>
    obtain ⟨hc, hcs⟩ := forall_mem_cons.mp h
    obtain ⟨hd, hlt⟩ := digitValue_of_isDigitOf hc
    rw [← singleton_append, numeral_append]
    simp only [singleton_append, digitsFrom, hd, if_pos hlt, ih hcs, numeral, map_cons, map_nil,
      reverse_singleton, Nat.ofDigits_singleton, length_cons]
    exact congrArg some (by ring)

theorem digitsFrom_none (hc : c ∈ cs) (h : ∀ d ∈ digitValue c, ¬ d < base) : digitsFrom base acc cs = none := by
  induction cs generalizing acc with
  | nil => cases hc
  | cons d ds ih =>
    rw [digitsFrom]
    split
    · next v hv =>
      rcases mem_cons.mp hc with rfl | hc
      · exact if_neg (h v hv)
      · split
        · exact ih hc
        · rfl
    · rfl

/-- A number that has no sign. -/
theorem signed_eq (h : ∀ c ∈ cs.head?, c ≠ '-' ∧ c ≠ '+') : signed base cs = (natural base cs).map Int.ofNat := by
  unfold signed
  split
  · exact absurd rfl (h _ rfl).1
  · exact absurd rfl (h _ rfl).2
  · rfl

theorem head_of_isDigitOf (h : ∀ c ∈ cs, isDigitOf base c = true) : ∀ c ∈ cs.head?, c ≠ '-' ∧ c ≠ '+' := by
  intro c hc
  have hdigit := h c (List.mem_of_mem_head? hc)
  constructor
  all_goals
    rintro rfl
    cases hdigit

theorem natural_numeral (h : ∀ c ∈ cs, isDigitOf base c = true) :
    natural base cs = if cs = [] then none else some (numeral base cs) := by
  rw [natural, digitsFrom_numeral h, Nat.zero_mul, Nat.zero_add]
  exact ite_congr (by rw [List.isEmpty_iff]) (fun _ => rfl) fun _ => rfl

theorem signed_numeral (h : ∀ c ∈ cs, isDigitOf base c = true) :
    signed base cs = if cs = [] then none else some (numeral base cs : ℤ) := by
  rw [signed_eq (head_of_isDigitOf h), natural_numeral h]
  split <;> rfl

/-- Characters without separators, in small letters. -/
def plain (cs : List Char) : List Char := (cs.filter (· ≠ '_')).map Char.toLower

theorem plain_append (cs ds : List Char) : plain (cs ++ ds) = plain cs ++ plain ds := by
  simp [plain]

theorem forall_mem_plain {P : Char → Prop} (h : ∀ c ∈ cs, c ≠ '_' → P c.toLower) : ∀ c ∈ plain cs, P c := by
  intro c hc
  obtain ⟨d, hd, rfl⟩ := mem_map.mp hc
  obtain ⟨hd, hne⟩ := mem_filter.mp hd
  exact h d hd (of_decide_eq_true hne)

theorem allDigits_plain (h : ∀ c ∈ cs, Scan.isDigitChar c = true) : AllDigits (plain cs) := by
  refine forall_mem_plain fun c hc hne => ?_
  obtain ⟨hlow, hhigh⟩ := (Scan.digitChar_cases (h c hc)).resolve_right hne
  exact char_of_range c 48 57 hlow hhigh (by decide)

theorem isDigitOf_of_isDigit (h : c.isDigit = true) : isDigitOf 10 c = true := by
  obtain ⟨hlow, hhigh⟩ := Char.isDigit_iff_toNat.mp h
  exact char_of_range c 48 57 hlow hhigh (by decide)

theorem octal_of_isDigit (h : c.isDigit = true) (hc : c ≠ '8' ∧ c ≠ '9') : isDigitOf 8 c = true := by
  obtain ⟨hlow, hhigh⟩ := Char.isDigit_iff_toNat.mp h
  have hall : c ≠ '8' ∧ c ≠ '9' → isDigitOf 8 c = true := char_of_range c 48 57 hlow hhigh (by decide)
  exact hall hc

/-! ## Forms -/

theorem plain_of_run (hall : ∀ c ∈ cs, Scan.isDigitChar c = true) (hc : c ∈ cs) (hdigit : Scan.isDigit c = true) :
    AllDigits (plain cs) ∧ plain cs ≠ [] := by
  refine ⟨allDigits_plain hall, ne_nil_of_mem (mem_map_of_mem (mem_filter.mpr ⟨hc, decide_eq_true ?_⟩))⟩
  rintro rfl
  cases hdigit

/-- Decimal digits that a number begins with. -/
theorem plain_decimal (h : Scan.decimalWidth cs = some n) :
    n ≤ cs.length ∧ AllDigits (plain (cs.take n)) ∧ plain (cs.take n) ≠ [] := by
  cases cs with
  | nil => cases h
  | cons c cs =>
    simp only [Scan.decimalWidth, ite_none_right_eq_some, some.injEq] at h
    obtain ⟨hc, rfl⟩ := h
    rw [Nat.add_comm, take_succ_cons, Scan.take_runWidth, length_cons]
    refine ⟨Nat.succ_le_succ (takeWhile_sublist _).length_le, plain_of_run ?_ mem_cons_self hc⟩
    exact forall_mem_cons.mpr ⟨by simp [Scan.isDigitChar, hc], fun _ => mem_takeWhile_imp⟩

theorem isDigitOf_based (hp : (p, base) ∈ [(Scan.isHexChar, 16), (Scan.isOctalChar, 8), (Scan.isBinaryChar, 2)])
    (h : ∀ c ∈ cs, p c = true) : ∀ c ∈ plain cs, isDigitOf base c = true := by
  refine forall_mem_plain fun c hc hne => ?_
  have := h c hc
  simp only [mem_cons, Prod.mk.injEq, not_mem_nil, or_false] at hp
  rcases hp with ⟨rfl, rfl⟩ | ⟨rfl, rfl⟩ | ⟨rfl, rfl⟩
  · simp only [Scan.isHexChar, Bool.or_eq_true, Bool.and_eq_true, decide_eq_true_eq, Scan.char_le] at this
    rcases this with (hd | hd) | hd
    · obtain ⟨hlow, hhigh⟩ := (Scan.digitChar_cases hd).resolve_right hne
      exact char_of_range c 48 57 hlow hhigh (by decide)
    · exact char_of_range c 97 102 hd.1 hd.2 (by decide)
    · exact char_of_range c 65 70 hd.1 hd.2 (by decide)
  · simp only [Scan.isOctalChar, Bool.or_eq_true, Bool.and_eq_true, decide_eq_true_eq, Scan.char_le, hne, or_false]
      at this
    exact char_of_range c 48 55 this.1 this.2 (by decide)
  · simp only [Scan.isBinaryChar, Bool.or_eq_true, decide_eq_true_eq, hne, or_false] at this
    rcases this with rfl | rfl <;> decide

/-- **The text of an integer** has digits alone, or a base mark and digits of the base. -/
theorem plain_int_form (h : Scan.intWidth cs = some cs.length) : AllDigits (plain cs) ∧ plain cs ≠ [] ∨
    ∃ mark base ds, (mark, base) ∈ [('x', 16), ('o', 8), ('b', 2)] ∧ plain cs = '0' :: mark :: ds ∧
      ∀ c ∈ ds, isDigitOf base c = true := by
  rcases Scan.wider_eq_some h with h | h
  · have hrun := (plain_decimal h).2
    rw [take_length] at hrun
    exact .inl hrun
  · unfold Scan.basedWidth at h
    split at h
    · next mark ds _ =>
      rw [length_cons, length_cons, Nat.add_assoc, Nat.add_comm] at h
      have hmark : ∀ {a b : Char}, (mark = a ∨ mark = b) → plain ['0', a] = plain ['0', b] →
          plain ('0' :: mark :: ds) = plain ['0', a] ++ plain ds := by
        rintro a b (rfl | rfl) hab
        · exact plain_append ['0', mark] ds
        · rw [hab]
          exact plain_append ['0', mark] ds
      split at h
      · next hx => exact .inr ⟨'x', 16, _, by decide, hmark hx rfl, isDigitOf_based (by simp) (Scan.all_of_someWidth h)⟩
      split at h
      · next hx => exact .inr ⟨'b', 2, _, by decide, hmark hx rfl, isDigitOf_based (by simp) (Scan.all_of_someWidth h)⟩
      split at h
      · next hx => exact .inr ⟨'o', 8, _, by decide, hmark hx rfl, isDigitOf_based (by simp) (Scan.all_of_someWidth h)⟩
      · cases h
    · cases h

/-- The sign and the digits of an exponent, if there is one, make up a text. -/
def SpellsPower (e : Option (List Char × List Char)) (u : List Char) : Prop :=
  u = e.elim [] (fun x => 'e' :: (x.1 ++ x.2)) ∧ ∀ x ∈ e, (x.1 = [] ∨ x.1 = ['+'] ∨ x.1 = ['-']) ∧ AllDigits x.2

theorem plain_exponent (h : Scan.exponentWidth cs = some cs.length) : ∃ e, SpellsPower (some e) (plain cs) := by
  cases cs with
  | nil => cases h
  | cons mark cs =>
    simp only [Scan.exponentWidth, ite_none_right_eq_some] at h
    obtain ⟨hmark, h⟩ := h
    have hspells : ∀ {sign ds : List Char}, (sign = [] ∨ sign = ['+'] ∨ sign = ['-']) → cs = sign ++ ds →
        (Scan.someWidth Scan.isDigitChar ds).map ((1 + sign.length) + ·) = some (cs.length + 1) →
        ∃ e, SpellsPower (some e) (plain (mark :: cs)) := by
      rintro sign ds hsign rfl h
      refine ⟨(sign, plain ds), ?_, ?_⟩
      · have hplain : plain sign = sign := by rcases hsign with rfl | rfl | rfl <;> rfl
        rw [← singleton_append, plain_append, plain_append, hplain]
        rcases hmark with rfl | rfl <;> rfl
      · rintro x ⟨rfl⟩
        have hlen : (sign ++ ds).length + 1 = 1 + sign.length + ds.length := by rw [length_append]; omega
        exact ⟨hsign, allDigits_plain (Scan.all_of_someWidth (h.trans (congrArg some hlen)))⟩
    split at h
    · exact hspells (.inr (.inl rfl)) rfl h
    · exact hspells (.inr (.inr rfl)) rfl h
    · exact hspells (.inl rfl) rfl h

theorem plain_withExponent (h : Scan.withExponent cs n = cs.length) (hn : n ≤ cs.length) :
    ∃ e, SpellsPower e (plain (cs.drop n)) := by
  rw [Scan.withExponent] at h
  have hlen : (cs.drop n).length = cs.length - n := length_drop
  cases he : Scan.exponentWidth (cs.drop n) with
  | none =>
    rw [he, getD_none] at h
    have hnil : cs.drop n = [] := eq_nil_of_length_eq_zero (by omega)
    rw [hnil]
    exact ⟨none, rfl, by simp⟩
  | some e =>
    rw [he, getD_some] at h
    obtain ⟨x, hx⟩ := plain_exponent (he.trans (congrArg some (by omega)))
    exact ⟨some x, hx⟩

/-- The digits around the point and behind the exponent mark, if there is one, with the sign in front of these. -/
structure Parts where
  whole : List Char
  fraction : List Char
  exponent : Option (List Char × List Char)

namespace Parts

variable {p : Parts} {s : String} {u : List Char}

/-- The parts make up a text: a point is between the digits unless there are none behind it, and an exponent follows. -/
structure Spells (p : Parts) (u : List Char) : Prop where
  text : ∃ point power, (point = ['.'] ∨ point = [] ∧ p.fraction = []) ∧ SpellsPower p.exponent power ∧
    u = p.whole ++ point ++ p.fraction ++ power
  digits : AllDigits (p.whole ++ p.fraction)
  digit : p.whole ++ p.fraction ≠ []

/-- Parts of a text that separators and capitals are left out of. -/
theorem spells_plain (whole point fraction : List Char) (hcs : cs = whole ++ point ++ fraction ++ power)
    (hpoint : point = ['.'] ∨ point = [] ∧ fraction = []) (hpower : ∃ e, SpellsPower e (plain power))
    (hdigits : AllDigits (plain (whole ++ fraction)) ∧ plain (whole ++ fraction) ≠ []) :
    ∃ p : Parts, p.Spells (plain cs) := by
  obtain ⟨e, he⟩ := hpower
  rw [plain_append] at hdigits
  refine ⟨⟨plain whole, plain fraction, e⟩, ⟨plain point, plain power, ?_, he, ?_⟩, hdigits.1, hdigits.2⟩
  · rcases hpoint with rfl | ⟨rfl, rfl⟩
    · exact .inl rfl
    · exact .inr ⟨rfl, rfl⟩
  · rw [hcs, plain_append, plain_append, plain_append]

/-- **The text of a float** has digits, a point or an exponent or both, and digits on one side of the point at least. -/
theorem exists_spells (h : Scan.floatWidth cs = some cs.length) : ∃ p : Parts, p.Spells (plain cs) := by
  rcases Scan.wider_eq_some h with h | h
  · obtain ⟨n, hn, h⟩ := bind_eq_some_iff.mp h
    obtain ⟨hle, hall, hne⟩ := plain_decimal hn
    split at h
    · next ds hds =>
      have hrest : cs.drop (n + 1 + Scan.runWidth Scan.isDigitChar ds) = ds.dropWhile Scan.isDigitChar := by
        rw [← Scan.drop_runWidth, ← drop_drop, ← drop_drop, hds]
        rfl
      have hlen := congrArg length hds
      have hfit : Scan.runWidth Scan.isDigitChar ds ≤ ds.length := (takeWhile_sublist _).length_le
      simp only [length_drop, length_cons] at hlen
      have hpower := plain_withExponent (some.inj h) (by omega)
      rw [hrest] at hpower
      refine spells_plain (cs.take n) ['.'] (ds.takeWhile Scan.isDigitChar) ?_ (.inl rfl) hpower ⟨?_, ?_⟩
      · rw [append_assoc, takeWhile_append_dropWhile, append_assoc, singleton_append, ← hds, take_append_drop]
      · rw [plain_append]
        exact forall_mem_append.mpr ⟨hall, allDigits_plain fun _ => mem_takeWhile_imp⟩
      · rw [plain_append]
        exact append_ne_nil_of_left_ne_nil hne _
    · cases h
  rcases Scan.wider_eq_some h with h | h
  · unfold Scan.fractionWidth at h
    split at h
    · next ds _ _ =>
      obtain ⟨n, hn, h⟩ := map_eq_some_iff.mp h
      obtain ⟨hle, hdigits⟩ := plain_decimal hn
      have hpower := plain_withExponent h (by rw [length_cons]; omega)
      rw [Nat.add_comm, drop_succ_cons] at hpower
      exact spells_plain [] ['.'] (ds.take n) (by simp) (.inl rfl) hpower hdigits
    · cases h
  · obtain ⟨n, hn, h⟩ := bind_eq_some_iff.mp h
    obtain ⟨e, he, h⟩ := bind_eq_some_iff.mp h
    obtain ⟨hle, hdigits⟩ := plain_decimal hn
    have hlen : e = (cs.drop n).length := by
      have := some.inj h
      rw [length_drop]
      omega
    obtain ⟨x, hx⟩ := plain_exponent (he.trans (congrArg some hlen))
    rw [← append_nil (cs.take n)] at hdigits
    exact spells_plain (cs.take n) [] [] (by simp) (.inr ⟨rfl, rfl⟩) ⟨some x, hx⟩ hdigits

/-- The power of ten that is written. -/
def power (p : Parts) : ℤ := p.exponent.elim 0 fun e => if e.1 = ['-'] then -numeral 10 e.2 else numeral 10 e.2

/-- The number that is written. -/
def value (p : Parts) : ℚ := (numeral 10 p.whole + numeral 10 p.fraction / 10 ^ p.fraction.length) * 10 ^ p.power

/-- The exponent has a digit if it is written, fits 64 bits, and leaves a scale of at most 32. -/
def InRange (p : Parts) : Prop :=
  (∀ e ∈ p.exponent, e.2 ≠ []) ∧ (-2 ^ 63 ≤ p.power ∧ p.power < 2 ^ 63) ∧ |p.power - p.fraction.length| < 2 ^ 32

instance (p : Parts) : Decidable p.InRange := inferInstanceAs (Decidable (_ ∧ _))

theorem exponent?_eq (h : SpellsPower p.exponent u) : Constant.exponent? (p.exponent.map fun e => e.1 ++ e.2) =
    if (∀ e ∈ p.exponent, e.2 ≠ []) ∧ -2 ^ 63 ≤ p.power ∧ p.power < 2 ^ 63 then some p.power else none := by
  have hexp := h.2
  unfold power
  cases hp : p.exponent with
  | none => rfl
  | some e =>
    obtain ⟨hsign, hdigits⟩ := hexp e hp
    have hten : ∀ c ∈ e.2, isDigitOf 10 c = true := fun c hc => isDigitOf_of_isDigit (hdigits c hc)
    have hsigned : signed 10 (e.1 ++ e.2) =
        if e.2 = [] then none else some (if e.1 = ['-'] then -(numeral 10 e.2 : ℤ) else numeral 10 e.2) := by
      rcases hsign with hsign | hsign | hsign
      · rw [hsign, nil_append, signed_numeral hten, if_neg (cons_ne_nil _ _).symm]
      all_goals
        rw [hsign, singleton_append, signed, natural_numeral hten]
        split <;> rfl
    simp only [map_some, Constant.exponent?, hsigned, elim_some, mem_some_iff, forall_eq']
    by_cases hne : e.2 = []
    · simp [hne]
    · simp only [hne, if_false, filter_some, decide_eq_true_eq, not_false_eq_true, true_and, ne_eq]
      norm_num

theorem ofFloatLiteral?_eq (h : p.Spells (normalize s)) :
    Constant.ofFloatLiteral? s = if p.InRange then some (.float p.value) else none := by
  obtain ⟨point, power, hpoint, hpower, htext⟩ := h.text
  obtain ⟨hw, hf⟩ := forall_mem_append.mp h.digits
  have hpart : power = (p.exponent.map fun e => e.1 ++ e.2).elim [] ('e' :: ·) := by
    rw [hpower.1]
    cases p.exponent <;> rfl
  rw [hpart] at htext
  change normalize s = signChars false ++ p.whole ++ _ ++ _ ++ _ at htext
  have hvalue : (numeral 10 (p.whole ++ p.fraction) : ℚ) * 10 ^ (p.power - p.fraction.length) = p.value := by
    rw [numeral_append, value, zpow_sub₀ (by norm_num), zpow_natCast]
    push_cast
    field_simp
  rw [Constant.ofFloatLiteral?_split htext hw hf h.digit hpoint, exponent?_eq hpower,
    digitsFrom_numeral fun c hc => isDigitOf_of_isDigit (h.digits c hc), Nat.zero_mul, Nat.zero_add]
  by_cases hexp : (∀ e ∈ p.exponent, e.2 ≠ []) ∧ -2 ^ 63 ≤ p.power ∧ p.power < 2 ^ 63
  · rw [if_pos hexp, bind_some, bind_some, ← ite_not]
    refine ite_congr (propext ?_) (fun _ => congrArg _ (congrArg _ hvalue)) fun _ => rfl
    rw [InRange, and_iff_right hexp.1, and_iff_right hexp.2, Int.abs_eq_natAbs, maxScale]
    omega
  · rw [if_neg hexp, if_neg fun hrange => hexp ⟨hrange.1, hrange.2.1⟩, bind_none]

end Parts

end Literal

namespace Constant

open Literal

variable {s : String}

theorem ofIntLiteral?_based (hmark : (mark, base) ∈ [('x', 16), ('o', 8), ('b', 2)])
    (h : normalize s = '0' :: mark :: ds) : ofIntLiteral? s = (signed base ds).map int := by
  simp only [mem_cons, Prod.mk.injEq, not_mem_nil, or_false] at hmark
  unfold ofIntLiteral?
  rw [h]
  rcases hmark with ⟨rfl, rfl⟩ | ⟨rfl, rfl⟩ | ⟨rfl, rfl⟩ <;> rfl

theorem ofIntLiteral?_octal (hc : c ∉ ['x', 'o', 'b']) (h : normalize s = '0' :: c :: ds) :
    ofIntLiteral? s = (signed 8 (c :: ds)).map int := by
  unfold ofIntLiteral?
  rw [h]
  split <;> simp_all

/-- **A number token denotes its exact value.** The text of an integer, without separators and in small letters, is read
in the base that its mark says, or in base eight behind a zero, where only an eight or a nine can be wrong, or else in
base ten; nothing is denoted by a mark alone. The text of a float has digits around a point and perhaps an exponent, and
however it is divided into these, it denotes their number, unless the exponent is empty or out of range. -/
theorem number_exact (s : String) :
    (Scan.lexeme s.toList = some (.token (.int s), s.length) →
      (∀ mark base ds, (mark, base) ∈ [('x', 16), ('o', 8), ('b', 2)] → normalize s = '0' :: mark :: ds →
        ofIntLiteral? s = if ds = [] then none else some (.int (numeral base ds))) ∧
      (∀ c ds, c ∉ ['x', 'o', 'b'] → normalize s = '0' :: c :: ds →
        ofIntLiteral? s = if '8' ∈ c :: ds ∨ '9' ∈ c :: ds then none else some (.int (numeral 8 (c :: ds)))) ∧
      ((∀ c ds, normalize s ≠ '0' :: c :: ds) → ofIntLiteral? s = some (.int (numeral 10 (normalize s))))) ∧
    (Scan.lexeme s.toList = some (.token (.float s), s.length) →
      (∃ p : Parts, p.Spells (normalize s)) ∧ ∀ p : Parts, p.Spells (normalize s) →
        ofFloatLiteral? s = if p.InRange then some (.float p.value) else none) := by
  rw [← String.length_toList]
  refine ⟨fun h => ?_, fun h => ⟨Parts.exists_spells (Scan.width_of_lexeme (.inr rfl) h), fun p => Parts.ofFloatLiteral?_eq⟩⟩
  have hform := plain_int_form ((if_pos rfl).symm.trans (Scan.width_of_lexeme (.inl rfl) h))
  change AllDigits (normalize s) ∧ normalize s ≠ [] ∨ ∃ mark base ds, _ ∧ normalize s = _ ∧ _ at hform
  refine ⟨fun mark base ds hmark htext => ?_, fun c ds hc htext => ?_, fun hplain => ?_⟩
  · -- behind a mark are digits of its base, because a mark is no digit itself
    have hds : ∀ c ∈ ds, isDigitOf base c = true := by
      rcases hform with ⟨hall, -⟩ | ⟨mark', base', ds', hmark', htext', hds⟩
      · rw [htext] at hall
        have hdigit : mark.isDigit = true := hall mark (by simp)
        simp only [mem_cons, Prod.mk.injEq, not_mem_nil, or_false] at hmark
        rcases hmark with ⟨rfl, -⟩ | ⟨rfl, -⟩ | ⟨rfl, -⟩ <;> cases hdigit
      · simp only [htext, List.cons.injEq, true_and] at htext'
        obtain ⟨rfl, rfl⟩ := htext'
        have hbase : base' = base := by simp at hmark hmark'; grind
        exact hbase ▸ hds
    rw [ofIntLiteral?_based hmark htext, signed_numeral hds]
    split <;> rfl
  · have hall : AllDigits (c :: ds) := by
      rcases hform with ⟨hall, -⟩ | ⟨mark, base, ds', hmark, htext', -⟩
      · rw [htext] at hall
        exact (forall_mem_cons.mp hall).2
      · simp only [htext, List.cons.injEq, true_and] at htext'
        obtain ⟨rfl, -⟩ := htext'
        simp at hmark hc
        grind
    rw [ofIntLiteral?_octal hc htext]
    -- a digit that is not octal is found by the reader, at whatever place it stands
    by_cases hbig : '8' ∈ c :: ds ∨ '9' ∈ c :: ds
    · have hnone : natural 8 (c :: ds) = none := by
        rcases hbig with h | h <;> exact digitsFrom_none h (by decide)
      rw [if_pos hbig, signed_eq (head_of_isDigitOf fun d hd => isDigitOf_of_isDigit (hall d hd)), hnone]
      rfl
    · have hds : ∀ d ∈ c :: ds, isDigitOf 8 d = true := fun d hd => octal_of_isDigit (hall d hd)
        ⟨fun h => hbig (.inl (h ▸ hd)), fun h => hbig (.inr (h ▸ hd))⟩
      rw [if_neg hbig, signed_numeral hds, if_neg (cons_ne_nil _ _)]
      rfl
  · rcases hform with ⟨hall, hne⟩ | ⟨mark, base, ds, -, htext, -⟩
    · rw [ofIntLiteral?_decimal hplain, signed_numeral fun c hc => isDigitOf_of_isDigit (hall c hc), if_neg hne]
      rfl
    · exact absurd htext (hplain mark ds)

theorem number_exact_quarters :
    ofIntLiteral? "0X_fF" = some (.int 255) ∧ ofFloatLiteral? "1_2.50E-1" = some (.float (5 / 4)) := by
  have hspells : Parts.Spells ⟨['1', '2'], ['5', '0'], some (['-'], ['1'])⟩ (normalize "1_2.50E-1") := by
    refine ⟨⟨['.'], _, .inl rfl, ⟨rfl, ?_⟩, by decide⟩, ?_, by decide⟩ <;> simp [AllDigits]
  refine ⟨((number_exact "0X_fF").1 (by decide +kernel)).1 'x' 16 ['f', 'f'] (by decide) (by decide), ?_⟩
  rw [((number_exact "1_2.50E-1").2 (by decide +kernel)).2 _ hspells, if_pos (by decide)]
  have hdigits : numeral 10 ['1', '2'] = 12 ∧ numeral 10 ['5', '0'] = 50 ∧ numeral 10 ['1'] = 1 := by decide
  norm_num [Parts.value, Parts.power, hdigits]

end Constant

end GameMedia.Shader
