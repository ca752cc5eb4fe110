import GameMedia.Proofs.Shader.Folding

/-!
# Exact arithmetic

Constants follow three conventions at once: division of integers goes toward zero, shifts to the right go to the floor,
and bits are those of two's complement with no end. A float among the operands makes the arithmetic rational.
-/

namespace GameMedia.Shader

/-- **Bits are combined one by one**, those of negative numbers too. -/
theorem testBit_bitwise (f : Bool → Bool → Bool) (a b : ℤ) (i : ℕ) :
    (bitwise f a b).testBit i = f (a.testBit i) (b.testBit i) := by
  have hnat : ∀ (s t : Bool) (m n : ℕ), f s t = false →
      (Nat.bitwise (fun x y => f (x ^^ s) (y ^^ t)) m n).testBit i = f (m.testBit i ^^ s) (n.testBit i ^^ t) :=
    fun s t m n h => Nat.testBit_bitwise (by simpa using h) m n i
  have hneg : ∀ (s t : Bool) (m n : ℕ), f s t = true →
      (Nat.bitwise (fun x y => !f (x ^^ s) (y ^^ t)) m n).testBit i = !f (m.testBit i ^^ s) (n.testBit i ^^ t) :=
    fun s t m n h => Nat.testBit_bitwise (by simpa using h) m n i
  cases a <;> cases b <;> simp only [bitwise] <;> split <;> rename_i h
  all_goals simp_all [Int.testBit]

/-- Common bits and bits of either are the two numbers over again, and differ by the bits of one alone. The bound halves
with each bit that is taken off. -/
theorem lor_land_of_bounds (n : ℕ) (ha : -2 ^ n ≤ a ∧ a < 2 ^ n) (hb : -2 ^ n ≤ b ∧ b < 2 ^ n) :
    a.lor b + a.land b = a + b ∧ a.lor b - a.land b = a.xor b := by
  induction n generalizing a b with
  | zero =>
    obtain rfl | rfl : a = -1 ∨ a = 0 := by omega
    all_goals
      obtain rfl | rfl : b = -1 ∨ b = 0 := by omega
      all_goals decide +kernel
  | succ n ih =>
    rw [pow_succ] at ha hb
    rw [← Int.bit_decomp a, ← Int.bit_decomp b, Int.lor_bit, Int.land_bit, Int.lxor_bit]
    simp only [Int.bit_val]
    have hhalf := @ih a.div2 b.div2
    rw [Int.div2_val, Int.div2_val] at hhalf ⊢
    obtain ⟨hadd, hsub⟩ := hhalf (by omega) (by omega)
    cases a.bodd <;> cases b.bodd <;> constructor <;> simp <;> omega

theorem exists_bounds (a b : ℤ) : ∃ n : ℕ, (-2 ^ n ≤ a ∧ a < 2 ^ n) ∧ -2 ^ n ≤ b ∧ b < 2 ^ n := by
  refine ⟨a.natAbs + b.natAbs, ?_⟩
  have hpow : ((a.natAbs + b.natAbs : ℕ) : ℤ) < 2 ^ (a.natAbs + b.natAbs) := mod_cast Nat.lt_two_pow_self
  omega

theorem bitwise_sum (a b : ℤ) : a + b = bitwise (· || ·) a b + bitwise (· && ·) a b ∧
    bitwise (· ^^ ·) a b = bitwise (· || ·) a b - bitwise (· && ·) a b := by
  obtain ⟨n, ha, hb⟩ := exists_bounds a b
  obtain ⟨hadd, hsub⟩ := lor_land_of_bounds n ha hb
  rw [Check.bitwise_and, Check.bitwise_or, Check.bitwise_xor]
  exact ⟨hadd.symm, hsub.symm⟩

/-- A remainder is smaller than the divisor and has the sign of the dividend. -/
theorem tmod_bounds (a : ℤ) (hb : b ≠ 0) : |a.tmod b| < |b| ∧ (a.tmod b = 0 ∨ (a.tmod b).sign = a.sign) := by
  constructor
  · rw [Int.abs_eq_natAbs, Int.abs_eq_natAbs, Int.natAbs_tmod]
    exact_mod_cast Nat.mod_lt _ (Int.natAbs_pos.mpr hb)
  · rcases lt_trichotomy a 0 with ha | rfl | ha
    · have hr := Int.tmod_nonneg b (neg_nonneg.mpr ha.le)
      rw [Int.neg_tmod, neg_nonneg] at hr
      rw [Int.sign_eq_neg_one_of_neg ha]
      exact hr.eq_or_lt.imp id Int.sign_eq_neg_one_of_neg
    · exact .inl (Int.zero_tmod b)
    · rw [Int.sign_eq_one_of_pos ha]
      exact (Int.tmod_nonneg b ha.le).eq_or_lt.imp Eq.symm Int.sign_eq_one_of_pos

namespace Constant

variable {v : Constant}

theorem integer?_eq_some : v.integer? = some n ↔ v.number? = some (n : ℚ) := by
  cases v with
  | bool b | int m => simp [integer?, number?]
  | float r =>
    simp only [integer?, number?, Option.ite_none_right_eq_some, Option.some.injEq]
    constructor
    · rintro ⟨hden, rfl⟩
      exact (Rat.den_eq_one_iff r).mp hden |>.symm
    · rintro rfl
      exact ⟨Rat.den_intCast n, Rat.num_intCast n⟩

theorem binary?_float (ha : a.number? = some x) (hb : b.number? = some y)
    (hfloat : a.kind = .float ∨ b.kind = .float) (op : Op) : binary? op a b = floatBinary? op x y := by
  cases a <;> cases b <;> simp_all [number?, kind, binary?]

theorem compare?_number (ha : a.number? = some x) (hb : b.number? = some y) (op : Op) :
    compare? op a b = floatCompare? op x y := by
  cases a <;> cases b <;> simp_all [number?, compare?]

/-- A shift is refused just if the value or the count is not integral, or the count is out of range. -/
theorem shift?_eq_none (hop : op = .shl ∨ op = .shr) (v c : Constant) :
    shift? op v c = none ↔
      (¬∃ n : ℤ, v.number? = some (n : ℚ)) ∨ ¬∃ k : ℕ, k ≤ 1024 ∧ c.number? = some (k : ℚ) := by
  have hcount : (∃ k : ℕ, k ≤ 1024 ∧ c.number? = some (k : ℚ)) ↔ ∃ m : ℤ, c.integer? = some m ∧ 0 ≤ m ∧ m ≤ maxShift := by
    constructor
    · rintro ⟨k, hk, hc⟩
      exact ⟨k, integer?_eq_some.mpr (by simpa using hc), by omega, by rw [maxShift]; omega⟩
    · rintro ⟨m, hc, hm, hlimit⟩
      obtain ⟨k, rfl⟩ := Int.eq_ofNat_of_zero_le hm
      exact ⟨k, by rw [maxShift] at hlimit; omega, by simpa using integer?_eq_some.mp hc⟩
  rw [hcount]
  simp only [← integer?_eq_some, shift?]
  cases hv : v.integer? <;> cases hc : c.integer? <;> rcases hop with rfl | rfl <;> simp

theorem shift?_eq_some {v c : Constant} {n : ℤ} {k : ℕ} (hv : v.number? = some (n : ℚ)) (hc : c.number? = some (k : ℚ))
    (hk : k ≤ 1024) : shift? .shl v c = some (int (n * 2 ^ k)) ∧ shift? .shr v c = some (int ⌊(n : ℚ) / 2 ^ k⌋) := by
  have hc : c.integer? = some (k : ℤ) := integer?_eq_some.mpr (by simpa using hc)
  have hrange : (0 : ℤ) ≤ k ∧ (k : ℤ) ≤ maxShift := ⟨by omega, by rw [maxShift]; omega⟩
  simp only [shift?, integer?_eq_some.mpr hv, hc, if_pos hrange, Check.floor_div_pow, Int.toNat_natCast]
  simp

theorem binary?_zero (a : Constant) (hb : b.number? = some 0) :
    binary? .div a b = none ∧ binary? .mod a b = none := by
  cases a <;> cases b <;> simp_all [number?, binary?, intBinary?, floatBinary?]

/-- **Constants are folded exactly.** Integers are divided toward zero, their bits are those of two's complement without
end, and shifts multiply or divide to the floor. With a float the arithmetic is that of rationals, nothing is divided by
zero, integers as floats give the same sums, products and comparisons, and numbers are ordered by their values. -/
theorem arithmetic_exact :
    (∀ a b : ℤ, b ≠ 0 → ∃ q r : ℤ, binary? .div (int a) (int b) = some (int q) ∧
      binary? .mod (int a) (int b) = some (int r) ∧ a = q * b + r ∧ |r| < |b| ∧ (r = 0 ∨ r.sign = a.sign)) ∧
    (∀ a b : ℤ, ∃ x y z : ℤ, binary? .and (int a) (int b) = some (int x) ∧
      binary? .or (int a) (int b) = some (int y) ∧ binary? .xor (int a) (int b) = some (int z) ∧
      (∀ i, x.testBit i = (a.testBit i && b.testBit i) ∧ y.testBit i = (a.testBit i || b.testBit i) ∧
        z.testBit i = (a.testBit i ^^ b.testBit i)) ∧ a + b = y + x ∧ z = y - x) ∧
    (∀ v c : Constant,
      (∀ (n : ℤ) (k : ℕ), v.number? = some (n : ℚ) → c.number? = some (k : ℚ) → k ≤ 1024 →
        shift? .shl v c = some (int (n * 2 ^ k)) ∧ shift? .shr v c = some (int ⌊(n : ℚ) / 2 ^ k⌋)) ∧
      ∀ op, op = .shl ∨ op = .shr → (shift? op v c = none ↔
        (¬∃ n : ℤ, v.number? = some (n : ℚ)) ∨ ¬∃ k : ℕ, k ≤ 1024 ∧ c.number? = some (k : ℚ))) ∧
    (∀ (a b : Constant) (x y : ℚ), a.number? = some x → b.number? = some y → a.kind = .float ∨ b.kind = .float →
      binary? .add a b = some (float (x + y)) ∧ binary? .sub a b = some (float (x - y)) ∧
      binary? .componentMul a b = some (float (x * y)) ∧ binary? .matrixMul a b = some (float (x * y)) ∧
      (y ≠ 0 → binary? .div a b = some (float (x / y)))) ∧
    (∀ a b : Constant, b.number? = some 0 → binary? .div a b = none ∧ binary? .mod a b = none) ∧
    (∀ a b : ℤ, (∀ op ∈ [Op.add, .sub, .componentMul, .matrixMul], ∃ n, binary? op (int a) (int b) = some n ∧
        n.toFloat? = do binary? op (← (int a).toFloat?) (← (int b).toFloat?)) ∧
      ∀ op ∈ [Op.eq, .ne, .lt, .le, .gt, .ge], ∃ r, compare? op (int a) (int b) = some r ∧
        some r = do compare? op (← (int a).toFloat?) (← (int b).toFloat?)) ∧
    ∀ (a b : Constant) (x y : ℚ), a.number? = some x → b.number? = some y →
      compare? .eq a b = some (decide (x = y)) ∧ compare? .ne a b = some (decide (x ≠ y)) ∧
      compare? .lt a b = some (decide (x < y)) ∧ compare? .le a b = some (decide (x ≤ y)) ∧
      compare? .gt a b = some (decide (x > y)) ∧ compare? .ge a b = some (decide (x ≥ y)) := by
  refine ⟨fun a b hb => ?_, fun a b => ?_, fun v c => ⟨fun _ _ => shift?_eq_some, fun _ hop => shift?_eq_none hop v c⟩,
    fun a b x y ha hb hfloat => ?_, fun a _ => binary?_zero a, fun a b => ⟨?_, ?_⟩, fun a b x y ha hb => ?_⟩
  · exact ⟨_, _, if_neg hb, if_neg hb, (Int.tdiv_mul_add_tmod a b).symm, tmod_bounds a hb⟩
  · exact ⟨_, _, _, rfl, rfl, rfl, fun i => ⟨testBit_bitwise _ a b i, testBit_bitwise _ a b i, testBit_bitwise _ a b i⟩,
      bitwise_sum a b⟩
  · simp only [binary?_float ha hb hfloat]
    exact ⟨rfl, rfl, rfl, rfl, fun hy => if_neg hy⟩
  · simp [binary?, intBinary?, floatBinary?, toFloat?, number?]
  · simp [compare?, floatCompare?, toFloat?, number?]
    omega
  · simp only [compare?_number ha hb]
    exact ⟨rfl, rfl, rfl, rfl, rfl, rfl⟩

/-- A negative number divided, shifted down and compared with a float. -/
theorem negative_exact : (∃ q r : ℤ, binary? .div (int (-7)) (int 2) = some (int q) ∧
      binary? .mod (int (-7)) (int 2) = some (int r) ∧ -7 = q * 2 + r ∧ |r| < |2| ∧ (r = 0 ∨ r.sign = (-7 : ℤ).sign)) ∧
    shift? .shr (float (-7)) (int 1) = some (int ⌊((-7 : ℤ) : ℚ) / 2 ^ 1⌋) ∧
    binary? .add (int (-7)) (float (1 / 2)) = some (float (((-7 : ℤ) : ℚ) + 1 / 2)) ∧
    binary? .mod (bool true) (float 0) = none ∧ compare? .lt (int (-7)) (float (1 / 2)) = some true := by
  obtain ⟨hdiv, -, hshift, hfloat, hzero, -, horder⟩ := arithmetic_exact
  refine ⟨hdiv (-7) 2 (by decide), ((hshift _ _).1 (-7) 1 rfl rfl (by decide)).2, ?_, (hzero (bool true) _ rfl).2, ?_⟩
  · exact (hfloat (int (-7)) (float (1 / 2)) _ _ rfl rfl (.inr rfl)).1
  · refine (horder (int (-7)) (float (1 / 2)) _ _ rfl rfl).2.2.1.trans (congrArg some (decide_eq_true ?_))
    norm_num

end Constant

end GameMedia.Shader
