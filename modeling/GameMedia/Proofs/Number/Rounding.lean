import Mathlib
import GameMedia.Number.Decimal

/-!
# Rounding

How far a double is from the number that it is nearest to, and a decimal from the number that it is rounded from. Both
find the place of the leading digit by the lengths of numerator and denominator, which is right up to one.
-/

namespace GameMedia.Number

open Nat

variable {r : Rat} {n : Int}

/-! ## To integers -/

theorem abs_roundHalfEven_sub_le (r : Rat) : |(roundHalfEven r : Rat) - r| ≤ 1 / 2 := by
  have hlow := Rat.floor_le r
  have hhigh := Rat.lt_floor_add_one r
  push_cast at hhigh
  unfold roundHalfEven
  dsimp only
  rw [abs_le]
  split_ifs <;> push_cast <;> constructor <;> linarith

theorem roundHalfEven_le (h : r < n + 1 / 2) : roundHalfEven r ≤ n := by
  have herr := (abs_le.mp (abs_roundHalfEven_sub_le r)).2
  have hlt : (roundHalfEven r : Rat) < (n + 1 : Int) := by push_cast; linarith
  exact Int.lt_add_one_iff.mp (Int.cast_lt.mp hlt)

theorem le_roundHalfEven (h : n - 1 / 2 < r) : n ≤ roundHalfEven r := by
  have herr := (abs_le.mp (abs_roundHalfEven_sub_le r)).1
  have hlt : ((n - 1 : Int) : Rat) < roundHalfEven r := by push_cast; linarith
  exact Int.sub_one_lt_iff.mp (Int.cast_lt.mp hlt)

theorem le_roundHalfEven_of_even (hn : n % 2 = 0) (h : n - 1 / 2 ≤ r) : n ≤ roundHalfEven r := by
  rcases h.lt_or_eq with hlt | rfl
  · exact le_roundHalfEven hlt
  have hfloor : Rat.floor ((n : Rat) - 1 / 2) = n - 1 := by
    change ⌊(n : Rat) - 1 / 2⌋ = n - 1
    rw [Int.floor_eq_iff]
    constructor <;> push_cast <;> linarith
  unfold roundHalfEven
  dsimp only
  rw [hfloor]
  split_ifs with h₁ h₂ h₃
  · exact absurd h₁ (by push_cast; linarith)
  all_goals omega

theorem roundHalfEven_eq_zero (h₀ : 0 ≤ r) (h : r ≤ 1 / 2) : roundHalfEven r = 0 := by
  have hfloor : r.floor = 0 := by
    change ⌊r⌋ = 0
    rw [Int.floor_eq_iff]
    constructor <;> push_cast <;> linarith
  unfold roundHalfEven
  dsimp only
  rw [hfloor]
  split_ifs with hlt hgt
  · rfl
  · exact absurd hgt (by push_cast; linarith)
  · rfl
  · contradiction

/-! ## The place of the leading digit -/

/-- The leading places of numerator and denominator give that of the fraction, or one more. -/
theorem leadingPlace {b p q : Nat} (hb : 1 < b) (hp : b ^ p ≤ r.num.natAbs ∧ r.num.natAbs < b ^ (p + 1))
    (hq : b ^ q ≤ r.den ∧ r.den < b ^ (q + 1)) (hr : 0 < r)
    (hk : k = if r < (b : Rat) ^ ((p : Int) - q) then (p : Int) - q - 1 else p - q) :
    (b : Rat) ^ k ≤ r ∧ r < (b : Rat) ^ (k + 1) := by
  have hb₀ : (b : Rat) ≠ 0 := by exact_mod_cast (by omega : b ≠ 0)
  have hden : (0 : Rat) < r.den := by exact_mod_cast r.pos
  have hnum : r * r.den = (r.num.natAbs : Rat) := by
    rw [Rat.mul_den_eq_num, cast_natAbs, abs_of_pos (Rat.num_pos.mpr hr)]
  have hpow : ∀ i : Nat, ((b ^ i : Nat) : Rat) = (b : Rat) ^ (i : Int) := by intro i; push_cast; rw [zpow_natCast]
  have hp₁ : (b : Rat) ^ (p : Int) ≤ r * r.den := by rw [hnum, ← hpow]; exact_mod_cast hp.1
  have hp₂ : r * r.den < (b : Rat) ^ ((p : Int) + 1) := by rw [hnum]; exact_mod_cast hp.2
  have hq₁ : (b : Rat) ^ (q : Int) ≤ r.den := by rw [← hpow]; exact_mod_cast hq.1
  have hq₂ : (r.den : Rat) < (b : Rat) ^ ((q : Int) + 1) := by exact_mod_cast hq.2
  have hlow : (b : Rat) ^ ((p : Int) - q - 1) ≤ r := by
    rw [show (p : Int) - q - 1 = p - (q + 1) by ring, zpow_sub₀ hb₀, div_le_iff₀ (by positivity)]
    nlinarith
  have hhigh : r < (b : Rat) ^ ((p : Int) - q + 1) := by
    rw [show (p : Int) - q + 1 = p + 1 - q by ring, zpow_sub₀ hb₀, lt_div_iff₀ (by positivity)]
    nlinarith
  split_ifs at hk with hlt
  · subst hk
    exact ⟨hlow, by rwa [sub_add_cancel]⟩
  · subst hk
    exact ⟨not_lt.mp hlt, hhigh⟩

theorem length_digits {n : Nat} (h : n ≠ 0) :
    10 ^ ((Decimal.digits n).length - 1) ≤ n ∧ n < 10 ^ ((Decimal.digits n).length - 1 + 1) := by
  have hpos : 0 < (Decimal.digits n).length := length_toDigits_pos
  have hiff := fun k hk => length_toDigits_le_iff (n := n) (k := k) (by decide : 1 < 10) hk
  refine ⟨?_, by rw [Nat.sub_add_cancel hpos]; exact (hiff _ hpos).mp le_rfl⟩
  by_contra hlt
  rcases Nat.eq_zero_or_pos ((Decimal.digits n).length - 1) with h0 | h0
  · rw [h0] at hlt
    omega
  · have := (hiff _ h0).mpr (by omega)
    exact absurd this (by unfold Decimal.digits at hpos ⊢; omega)

theorem leadingExponent_spec (hr : 0 < r) :
    (10 : Rat) ^ Decimal.leadingExponent r ≤ r ∧ r < (10 : Rat) ^ (Decimal.leadingExponent r + 1) := by
  have hlen : ∀ n, 0 < (Decimal.digits n).length := fun n => length_toDigits_pos
  have hn := hlen r.num.natAbs
  have hd := hlen r.den
  refine leadingPlace (b := 10) (by decide) (length_digits (Int.natAbs_ne_zero.mpr (Rat.num_pos.mpr hr).ne'))
    (length_digits r.den_nz) hr ?_
  unfold Decimal.leadingExponent
  have heq : (((Decimal.digits r.num.natAbs).length - 1 : Nat) : Int) - ((Decimal.digits r.den).length - 1 : Nat) =
      (Decimal.digits r.num.natAbs).length - (Decimal.digits r.den).length := by omega
  rw [heq]
  rfl

namespace Binary64

variable {r : Rat}

theorem lastPlace_spec (hr : 0 < r) :
    leastExponent ≤ lastPlace r ∧ r < (2 : Rat) ^ (lastPlace r + 53) ∧
      (lastPlace r = leastExponent ∨ (2 : Rat) ^ (lastPlace r + 52) ≤ r) := by
  have hlog : ∀ n : Nat, n ≠ 0 → 2 ^ n.log2 ≤ n ∧ n < 2 ^ (n.log2 + 1) := fun n hn =>
    ⟨log2_self_le hn, lt_log2_self⟩
  have hspec := leadingPlace (b := 2) (by decide) (hlog _ (Int.natAbs_ne_zero.mpr (Rat.num_pos.mpr hr).ne'))
    (hlog _ r.den_nz) hr rfl
  generalize hguess : (r.num.natAbs.log2 : Int) - r.den.log2 = g at hspec
  have hlast : lastPlace r = max ((if r < (2 : Rat) ^ g then g - 1 else g) - 52) leastExponent := by
    unfold lastPlace
    dsimp only
    rw [hguess, sub_add_cancel]
    split_ifs
    · rw [show g - 52 - 1 = g - 1 - 52 by ring]
    · rfl
  generalize (if r < (2 : Rat) ^ g then g - 1 else g) = k at hspec hlast
  have hpow : ∀ {i j : Int}, i ≤ j → (2 : Rat) ^ i ≤ (2 : Rat) ^ j := fun h => zpow_le_zpow_right₀ one_le_two h
  rw [hlast]
  refine ⟨le_max_right _ _, hspec.2.trans_le (hpow (by omega)), ?_⟩
  rcases le_total (k - 52) leastExponent with hle | hle
  · exact .inl (max_eq_right hle)
  · rw [max_eq_left hle, sub_add_cancel]
    exact .inr hspec.1

theorem half_lastPlace_le (hr : 0 < r) : lastPlace r = leastExponent ∨ (2 : Rat) ^ (lastPlace r - 1) * 2 ^ 53 ≤ r := by
  refine (lastPlace_spec hr).2.2.imp_right fun h => ?_
  rw [← zpow_natCast, ← zpow_add₀ two_ne_zero]
  rwa [show lastPlace r - 1 + ((53 : Nat) : Int) = lastPlace r + 52 by omega]

/-- Numbers of this size are too large for a double: half of a last place above the greatest one. -/
def overflow : Rat := (2 ^ 54 - 1) * 2 ^ (970 : Int)

theorem overflow_bounds : (2 : Rat) ^ (1023 : Int) < overflow ∧ overflow ≤ 2 ^ (1024 : Int) ∧
    overflow = (2 ^ 53 - 1 / 2) * 2 ^ (971 : Int) := by
  have hunit : (0 : Rat) < 2 ^ (970 : Int) := by positivity
  have hsplit : ∀ k : Int, (2 : Rat) ^ (970 + k) = 2 ^ (970 : Int) * 2 ^ k := fun k => zpow_add₀ two_ne_zero _ _
  have h₁ := hsplit 53
  have h₂ := hsplit 54
  have h₃ := hsplit 1
  norm_num only at h₁ h₂ h₃
  unfold overflow
  rw [h₁, h₂, h₃]
  clear h₁ h₂ h₃ hsplit
  generalize (2 : Rat) ^ (970 : Int) = u at hunit
  refine ⟨?_, ?_, ?_⟩ <;> norm_num <;> linarith

theorem overflow_le (hr : 0 < r) (h : greatestExponent < lastPlace r) : overflow ≤ r := by
  unfold greatestExponent at h
  have hmono : (2 : Rat) ^ (1024 : Int) ≤ 2 ^ (lastPlace r + 52) := zpow_le_zpow_right₀ one_le_two (by omega)
  have hle := hmono.trans ((lastPlace_spec hr).2.2.resolve_left (by unfold leastExponent; omega))
  exact overflow_bounds.2.1.trans hle

theorem lt_overflow (hr : 0 < r) (h : lastPlace r < greatestExponent) : r < overflow := by
  unfold greatestExponent at h
  have hmono : (2 : Rat) ^ (lastPlace r + 53) ≤ 2 ^ (1023 : Int) := zpow_le_zpow_right₀ one_le_two (by omega)
  exact ((lastPlace_spec hr).2.1.trans_le hmono).trans overflow_bounds.1

/-- With the last place of the greatest doubles, those numbers are too large that round up to a power of two. -/
theorem overflow_le_iff (hr : 0 < r) (h : lastPlace r = greatestExponent) :
    overflow ≤ r ↔ (roundHalfEven (r / (2 : Rat) ^ lastPlace r)).toNat = 2 * leadingBit := by
  have hunit : (0 : Rat) < 2 ^ greatestExponent := by positivity
  have hx : r / (2 : Rat) ^ greatestExponent < 2 ^ 53 := by
    rw [div_lt_iff₀ hunit, ← zpow_natCast, ← zpow_add₀ two_ne_zero]
    exact (add_comm greatestExponent 53) ▸ h ▸ (lastPlace_spec hr).2.1
  have hbound : overflow ≤ r ↔ ((2 ^ 53 : Int) : Rat) - 1 / 2 ≤ r / (2 : Rat) ^ greatestExponent := by
    rw [le_div_iff₀ hunit, overflow_bounds.2.2, greatestExponent, Int.cast_pow, Int.cast_ofNat]
  have hle : roundHalfEven (r / (2 : Rat) ^ greatestExponent) ≤ 2 ^ 53 := roundHalfEven_le (by push_cast; linarith)
  rw [hbound, h]
  unfold leadingBit
  constructor
  · intro hlow
    have := le_roundHalfEven_of_even (by decide) hlow
    omega
  · intro hround
    have herr := (abs_le.mp (abs_roundHalfEven_sub_le (r / (2 : Rat) ^ greatestExponent))).2
    rw [show roundHalfEven (r / (2 : Rat) ^ greatestExponent) = 2 ^ 53 by omega] at herr
    linarith

theorem multiple_spec (hr : 0 < r) (h : (roundHalfEven (r / (2 : Rat) ^ lastPlace r)).toNat = m) :
    m ≤ 2 ^ 53 ∧ |(m : Rat) * 2 ^ lastPlace r - r| ≤ max (r / 2 ^ 53) (2 ^ (-1075 : Int)) ∧
      (m = 0 ↔ r ≤ 2 ^ (-1075 : Int)) := by
  obtain ⟨hleast, hhigh, -⟩ := lastPlace_spec hr
  have hsmall := half_lastPlace_le hr
  have hunit : (0 : Rat) < 2 ^ lastPlace r := by positivity
  have hhalf : (2 : Rat) ^ (lastPlace r - 1) = 1 / 2 * 2 ^ lastPlace r := by rw [zpow_sub_one₀ two_ne_zero]; ring
  generalize hx : r / (2 : Rat) ^ lastPlace r = x at h
  have hr' : r = x * 2 ^ lastPlace r := by rw [← hx, div_mul_cancel₀ _ hunit.ne']
  have hx₀ : 0 < x := hx ▸ div_pos hr hunit
  have hx₁ : x < 2 ^ 53 := by
    rw [← hx, div_lt_iff₀ hunit, ← zpow_natCast, ← zpow_add₀ two_ne_zero]
    exact (add_comm (lastPlace r) 53) ▸ hhigh
  have hround₀ : 0 ≤ roundHalfEven x := le_roundHalfEven (by push_cast; linarith)
  have hround₁ : roundHalfEven x ≤ 2 ^ 53 := roundHalfEven_le (by push_cast; linarith)
  have hm : (m : Rat) = roundHalfEven x := by
    rw [← h]
    exact_mod_cast Int.toNat_of_nonneg hround₀
  have herr := hm ▸ abs_roundHalfEven_sub_le x
  refine ⟨by omega, ?_, fun hzero => ?_, fun hle => ?_⟩
  · have hdist : |(m : Rat) * 2 ^ lastPlace r - r| ≤ 2 ^ (lastPlace r - 1) := by
      nth_rewrite 2 [hr']
      rw [← sub_mul, abs_mul, abs_of_pos hunit, hhalf]
      exact mul_le_mul_of_nonneg_right herr hunit.le
    rcases hsmall with hl | hl
    · exact le_max_of_le_right (by rwa [hl] at hdist ⊢)
    · exact le_max_of_le_left (hdist.trans ((le_div_iff₀ (by positivity)).mpr hl))
  · rw [hzero, cast_zero, zero_sub, abs_neg, abs_of_pos hx₀] at herr
    have hle : r ≤ 2 ^ (lastPlace r - 1) := by
      rw [hhalf]
      exact hr'.trans_le (mul_le_mul_of_nonneg_right herr hunit.le)
    rcases hsmall with hl | hl
    · rwa [hl] at hle
    · linarith
  · rcases hsmall with hl | hl
    · have hx₂ : x ≤ 1 / 2 := by
        rw [← hx, div_le_iff₀ hunit, ← hhalf, hl]
        exact hle
      rw [← h, roundHalfEven_eq_zero hx₀.le hx₂]
      rfl
    · have hmono : (2 : Rat) ^ (-1075 : Int) ≤ 2 ^ (lastPlace r - 1) :=
        zpow_le_zpow_right₀ one_le_two (by unfold leastExponent at hleast; omega)
      linarith

/-- **The nearest double.** It is of the number's sign, and off by at most half of a last place, which is small beside
the number or the least there is. It is zero for the least numbers only, and infinite for those that are too large. -/
theorem nearest_spec (hr : r ≠ 0) :
    overflow ≤ |r| ∧ nearest r = .infinite (r < 0) ∨
    ∃ m e, nearest r = .finite (r < 0) m e ∧ m ≤ 2 ^ 53 ∧ -1074 ≤ e ∧ e ≤ 971 ∧
      |(m : Rat) * 2 ^ e - (|r|)| ≤ max (|r| / 2 ^ 53) (2 ^ (-1075 : Int)) ∧ (m = 0 ↔ |r| ≤ 2 ^ (-1075 : Int)) ∧
      |r| < overflow := by
  have hsize : 0 < |r| := abs_pos.mpr hr
  have habs : r.abs = |r| := by
    unfold Rat.abs
    split_ifs with h
    · exact (abs_of_nonneg h).symm
    · exact (abs_of_neg (not_le.mp h)).symm
  have hleast := (lastPlace_spec hsize).1
  have hover := overflow_le_iff hsize
  generalize hm : (roundHalfEven (|r| / (2 : Rat) ^ lastPlace |r|)).toNat = m at hover
  obtain ⟨hle, hdist, hzero⟩ := multiple_spec hsize hm
  unfold nearest
  simp only [habs, if_neg hsize.ne', hm]
  unfold leastExponent at hleast
  -- a carry moves the last place, and keeps the number
  by_cases hcarry : m = 2 * leadingBit
  · simp only [if_pos hcarry]
    by_cases hbig : greatestExponent < lastPlace |r| + 1
    · refine .inl ⟨?_, if_pos hbig⟩
      rcases (Int.lt_add_one_iff.mp hbig).lt_or_eq with hlt | heq
      · exact overflow_le hsize hlt
      · exact (hover heq.symm).mpr hcarry
    · rw [if_neg hbig]
      have hsame : (leadingBit : Rat) * 2 ^ (lastPlace |r| + 1) = m * 2 ^ lastPlace |r| := by
        rw [hcarry, zpow_add_one₀ two_ne_zero]
        push_cast
        ring
      refine .inr ⟨_, _, rfl, by decide, by omega, by unfold greatestExponent at hbig; omega, hsame ▸ hdist, ?_,
        lt_overflow hsize (by omega)⟩
      rw [← hzero, hcarry]
      decide
  · simp only [if_neg hcarry]
    by_cases hbig : greatestExponent < lastPlace |r|
    · exact .inl ⟨overflow_le hsize hbig, if_pos hbig⟩
    · rw [if_neg hbig]
      refine .inr ⟨_, _, rfl, hle, hleast, by unfold greatestExponent at hbig; omega, hdist, hzero, ?_⟩
      rcases (not_lt.mp hbig).lt_or_eq with hlt | heq
      · exact lt_overflow hsize hlt
      · exact lt_of_not_ge fun hlarge => hcarry ((hover heq).mp hlarge)

/-- **A number rounded to decimal places.** There are as many digits as places and one more, it is off by at most half
of its last place, and the leading place is that of the number or the next. -/
theorem rounded_spec (hr : 0 < r) (places : Nat) :
    10 ^ places ≤ (rounded r places).1 ∧ (rounded r places).1 < 10 ^ (places + 1) ∧
      |((rounded r places).1 : Rat) * 10 ^ ((rounded r places).2 - places) - r| ≤
        10 ^ (Decimal.leadingExponent r - places) / 2 ∧
      ((rounded r places).2 = Decimal.leadingExponent r ∨ (rounded r places).2 = Decimal.leadingExponent r + 1) := by
  obtain ⟨hlow, hhigh⟩ := leadingExponent_spec hr
  unfold rounded
  dsimp only
  generalize Decimal.leadingExponent r = k at *
  have hten : (10 : Rat) ≠ 0 := by norm_num
  have hunit : (0 : Rat) < 10 ^ (k - places) := by positivity
  generalize hy : r / (10 : Rat) ^ (k - places) = y
  have hy' : r = y * 10 ^ (k - places) := by rw [← hy, div_mul_cancel₀ _ hunit.ne']
  have hy₀ : ((10 ^ places : Nat) : Rat) ≤ y := by
    rw [← hy, le_div_iff₀ hunit, cast_pow, cast_ofNat, ← zpow_natCast, ← zpow_add₀ hten]
    rwa [add_sub_cancel]
  have hy₁ : y < ((10 ^ (places + 1) : Nat) : Rat) := by
    rw [← hy, div_lt_iff₀ hunit, cast_pow, cast_ofNat, ← zpow_natCast, ← zpow_add₀ hten]
    rwa [show ((places + 1 : Nat) : Int) + (k - places) = k + 1 by push_cast; ring]
  have hround₀ : ((10 ^ places : Nat) : Int) ≤ roundHalfEven y := le_roundHalfEven (by push_cast at hy₀ ⊢; linarith)
  have hround₁ : roundHalfEven y ≤ ((10 ^ (places + 1) : Nat) : Int) :=
    roundHalfEven_le (by push_cast at hy₁ ⊢; linarith)
  have hn : ((roundHalfEven y).toNat : Rat) = roundHalfEven y := by
    exact_mod_cast Int.toNat_of_nonneg (le_trans (by positivity) hround₀)
  have hdist : |((roundHalfEven y).toNat : Rat) * 10 ^ (k - places) - r| ≤ 10 ^ (k - places) / 2 := by
    rw [hn, hy', ← sub_mul, abs_mul, abs_of_pos hunit]
    have := mul_le_mul_of_nonneg_right (abs_roundHalfEven_sub_le y) hunit.le
    linarith
  generalize hnat : (roundHalfEven y).toNat = n at *
  by_cases hcarry : n = Nat.pow 10 (places + 1)
  · rw [if_pos hcarry]
    refine ⟨le_rfl, Nat.pow_lt_pow_right (by decide) (lt_succ_self _), ?_, .inr rfl⟩
    have hsame : ((Nat.pow 10 places : Nat) : Rat) * 10 ^ (k + 1 - places) = n * 10 ^ (k - places) := by
      rw [hcarry, show k + 1 - (places : Int) = k - places + 1 by ring, zpow_add_one₀ hten]
      simp only [pow_eq, pow_succ]
      push_cast
      ring
    exact hsame ▸ hdist
  · rw [if_neg hcarry]
    refine ⟨by omega, lt_of_le_of_ne (by omega) hcarry, hdist, .inl rfl⟩

end Binary64

end GameMedia.Number
