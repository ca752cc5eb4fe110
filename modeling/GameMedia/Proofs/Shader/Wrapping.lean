import GameMedia.Proofs.Shader.Integers

/-!
# Loops that count in words

The targets count in words of 32 bits, which wrap. In exact arithmetic a loop with an accepted header ends, and as long
as its comparison holds the counter is a word. The value that ends the loop need not be one: its distance from the limit
may be almost a step. If it is not, a loop that waits for the counter to pass a limit sees it on the wrong side, and
goes on.
-/

namespace GameMedia.Shader

/-! ## The value that ends a loop -/

/-- A comparison by order with the integer `z`, as a sign `s` and a limit `y`: it holds for `v` where `s * v < y`. -/
def Op.limit? (op : Op) (z : Int) : Option (Int × Int) :=
  match op with
  | .lt => some (1, z)
  | .le => some (1, z + 1)
  | .gt => some (-1, -z)
  | .ge => some (-1, 1 - z)
  | _ => none

def firstFrom (a y d : Int) : Int := if a < y then y + (a - y) % d else a

/-- The first value of a counter for which the comparison fails. -/
def Op.lastValue (op : Op) (a z d : Int) : Int :=
  match op.limit? z with
  | some (s, y) => s * firstFrom (s * a) y (s * d)
  | none => if op = .ne then z else if a = z then a + d else a

variable {op : Op} {a z d s y m : Int} {n : Nat}

theorem Op.limit?_holds (h : op.limit? z = some (s, y)) (v : Int) :
    Constant.floatCompare? op v z = some (decide (s * v < y)) := by
  cases op <;> cases h <;> refine congrArg some (decide_eq_decide.mpr ?_) <;> norm_cast <;> omega

theorem firstFrom_eq (hd : 0 < d) (hout : y ≤ a + n * d) (hin : ∀ k < n, a + (k : Nat) * d < y) :
    a + n * d = firstFrom a y d := by
  unfold firstFrom
  cases n with
  | zero =>
    rw [if_neg] <;> simp at hout ⊢
    exact hout
  | succ m =>
    have hlast := hin m m.lt_succ_self
    have hm : 0 ≤ m * d := mul_nonneg m.cast_nonneg hd.le
    push_cast at hout ⊢
    have hmod : (a - y) % d = a + (m + 1) * d - y := by
      rw [show a - y = a + (m + 1) * d - y + d * -(m + 1) by ring, Int.add_mul_emod_self_left]
      exact Int.emod_eq_of_lt (by linarith) (by linarith)
    rw [if_pos (by linarith), hmod]
    ring

/-! ## Words -/

theorem bmod_of_fitsWord (h : FitsWord m) : m.bmod (2 ^ 32) = m := by
  unfold FitsWord at h
  rw [Int.bmod_def]
  norm_num
  omega

/-- A counter that adds its step in words has the value of the exact one, as a word. -/
theorem iterate_ofInt (a d : Int) (k : Nat) :
    ((· + BitVec.ofInt 32 d)^[k] (BitVec.ofInt 32 a)).toInt = (a + k * d).bmod (2 ^ 32) := by
  have hword : (· + BitVec.ofInt 32 d)^[k] (BitVec.ofInt 32 a) = BitVec.ofInt 32 (a + k * d) := by
    induction k with
    | zero => simp
    | succ k ih =>
      rw [Function.iterate_succ_apply', ih, ← BitVec.ofInt_add]
      congr 1
      push_cast
      ring
  rw [hword, BitVec.toInt_ofInt]

/-- Where the comparison holds, the counter has not left the words. -/
theorem Op.inside_fits (h : op.limit? z = some (s, y)) (ha : FitsWord a) (hz : FitsWord z) (he : 0 ≤ s * e)
    (hin : s * (a + e) < y) : FitsWord (a + e) := by
  unfold FitsWord at ha hz ⊢
  cases op <;> cases h <;> omega

theorem Op.wrapped_holds (h : op.limit? z = some (s, y)) (hz : FitsWord z) (hd : -0x80000000 ≤ d ∧ d ≤ 0x80000000)
    (hin : s * (m - d) < y) (hout : y ≤ s * m) (hm : ¬FitsWord m) : s * m.bmod (2 ^ 32) < y := by
  unfold FitsWord at hz hm
  rw [Int.bmod_def]
  norm_num
  cases op <;> cases h <;> omega

/-! ## Loops -/

/-- A loop of the targets: the counter is a word that wraps, the comparison is of signed words, and after so many rounds
it fails for the first time. -/
def Code.Counter.LastsInWords (c : Counter) (a z d : BitVec 32) (n : Nat) : Prop :=
  Constant.floatCompare? c.op ((· + d)^[n] a).toInt z.toInt = some false ∧
    ∀ k < n, Constant.floatCompare? c.op ((· + d)^[k] a).toInt z.toInt = some true

open Code (Counter)

variable {c : Counter}

theorem lastsInWords_iff (hn : c.Lasts a z d n) (hz : FitsWord z) (hfits : ∀ k < n, FitsWord (a + (k : Nat) * d)) :
    c.LastsInWords (.ofInt 32 a) (.ofInt 32 z) (.ofInt 32 d) n ↔
      Constant.floatCompare? c.op ((a + n * d).bmod (2 ^ 32) : Int) z = some false := by
  unfold Counter.LastsInWords
  simp only [iterate_ofInt, BitVec.toInt_ofInt, bmod_of_fitsWord hz]
  refine and_iff_left fun k hk => ?_
  rw [bmod_of_fitsWord (hfits k hk)]
  exact_mod_cast hn.2 k hk

/-- A loop by order ends at its last value, and with words in the same round if that is one. -/
theorem counts_by_order (h : c.op.limit? z = some (s, y)) (ha : FitsWord a) (hz : FitsWord z)
    (hd : -0x80000000 ≤ d ∧ d ≤ 0x80000000) (hmoves : 0 < s * d) (hn : c.Lasts a z d n) :
    a + n * d = c.op.lastValue a z d ∧ (∀ k < n, FitsWord (a + (k : Nat) * d)) ∧
      (c.LastsInWords (.ofInt 32 a) (.ofInt 32 z) (.ofInt 32 d) n ↔ FitsWord (c.op.lastValue a z d)) := by
  have hholds := Op.limit?_holds h
  have hin : ∀ k < n, s * (a + (k : Nat) * d) < y := by
    intro k hk
    have hk := hn.2 k hk
    norm_cast at hk
    exact of_decide_eq_true (Option.some.inj ((hholds _).symm.trans hk))
  have hout : y ≤ s * (a + n * d) := by
    have hend := hn.1
    norm_cast at hend
    exact not_lt.mp (of_decide_eq_false (Option.some.inj ((hholds _).symm.trans hend)))
  have hfits : ∀ k < n, FitsWord (a + (k : Nat) * d) := by
    intro k hk
    refine Op.inside_fits h ha hz ?_ (hin k hk)
    rw [mul_left_comm]
    exact mul_nonneg k.cast_nonneg hmoves.le
  have hlast : a + n * d = c.op.lastValue a z d := by
    have hs : s * s = 1 := by
      revert h
      cases c.op <;> rintro ⟨⟩ <;> rfl
    have hfirst := firstFrom_eq (a := s * a) (y := y) (n := n) hmoves
      (by linarith [hout]) fun k hk => by linarith [hin k hk]
    unfold Op.lastValue
    rw [h]
    dsimp only
    rw [← hfirst]
    linear_combination (-(a + n * d)) * hs
  refine ⟨hlast, hfits, ?_⟩
  rw [lastsInWords_iff hn hz hfits, hholds, ← hlast]
  constructor
  · intro hfalse
    by_contra hnot
    cases n with
    | zero => exact hnot (by simpa using ha)
    | succ m =>
      refine of_decide_eq_false (Option.some.inj hfalse) (Op.wrapped_holds h hz hd ?_ hout hnot)
      have hprev := hin m m.lt_succ_self
      push_cast
      linarith
  · intro hword
    rw [bmod_of_fitsWord hword]
    exact congrArg some (decide_eq_false (not_lt.mpr hout))

/-- A loop that waits for its limit meets it without leaving the words. -/
theorem counts_to_limit (h : c.op = .ne) (ha : FitsWord a) (hz : FitsWord z) (hn : c.Lasts a z d n) :
    a + n * d = z ∧ ∀ k ≤ n, FitsWord (a + (k : Nat) * d) := by
  have hmeets : a + n * d = z := by
    have hend : (a + n * d : Rat) = z := by simpa [h, Constant.floatCompare?] using hn.1
    exact_mod_cast hend
  refine ⟨hmeets, fun k hk => ?_⟩
  have hkn : (k : Int) ≤ n := by exact_mod_cast hk
  unfold FitsWord at ha hz ⊢
  rcases le_total 0 d with hd | hd
  · have hlow : 0 ≤ k * d := mul_nonneg k.cast_nonneg hd
    have hhigh : k * d ≤ n * d := mul_le_mul_of_nonneg_right hkn hd
    omega
  · have hhigh : k * d ≤ 0 := mul_nonpos_of_nonneg_of_nonpos k.cast_nonneg hd
    have hlow : n * d ≤ k * d := mul_le_mul_of_nonpos_right hkn hd
    omega

/-- A loop that runs while the counter is at its limit makes one round or none, also with words. -/
theorem counts_from_limit (h : c.op = .eq) (ha : FitsWord a) (hz : FitsWord z)
    (hd : -0x80000000 ≤ d ∧ d ≤ 0x80000000) (hne : d ≠ 0) (hn : c.Lasts a z d n) :
    a + n * d = (if a = z then a + d else a) ∧ (∀ k < n, FitsWord (a + (k : Nat) * d)) ∧
      c.LastsInWords (.ofInt 32 a) (.ofInt 32 z) (.ofInt 32 d) n := by
  have hin : ∀ k < n, a + (k : Nat) * d = z := by
    intro k hk
    have hk : (a + k * d : Rat) = z := by simpa [h, Constant.floatCompare?] using hn.2 k hk
    exact_mod_cast hk
  have hout : a + n * d ≠ z := by
    have hend : ¬(a + n * d : Rat) = z := by simpa [h, Constant.floatCompare?] using hn.1
    exact_mod_cast hend
  have hfits : ∀ k < n, FitsWord (a + (k : Nat) * d) := fun k hk => hin k hk ▸ hz
  rw [lastsInWords_iff hn hz hfits, h]
  have hcompare : ∀ m : Int, m.bmod (2 ^ 32) ≠ z → Constant.floatCompare? .eq (m.bmod (2 ^ 32) : Int) z = some false :=
    fun m hm => congrArg some (decide_eq_false (by exact_mod_cast hm))
  rcases n with _ | _ | m
  · simp only [Nat.cast_zero, zero_mul, add_zero] at hout ⊢
    exact ⟨(if_neg hout).symm, fun k hk => absurd hk k.not_lt_zero, hcompare a (by rwa [bmod_of_fitsWord ha])⟩
  · have haz : a = z := by simpa using hin 0 Nat.one_pos
    refine ⟨by simp [haz], hfits, hcompare _ ?_⟩
    unfold FitsWord at ha
    rw [Int.bmod_def]
    norm_num
    omega
  · have h₀ := hin 0 (by omega)
    have h₁ := hin 1 (by omega)
    push_cast at h₀ h₁
    exact absurd (by linarith) hne

/-- A header that is accepted moves the counter towards a limit, or compares by an equation. -/
theorem Check.terminates_direction {start stop : Constant} (h : terminates op start stop (.int d) = true) (z : Int) :
    (∃ s y, op.limit? z = some (s, y) ∧ 0 < s * d) ∨ op = .eq ∨ op = .ne := by
  have hup : 0 < (Constant.int d).sign → 0 < 1 * d := fun hs => by simpa using Int.sign_pos_iff.mp hs
  have hdown : (Constant.int d).sign < 0 → 0 < -1 * d := fun hs => by simpa using Int.sign_neg_iff.mp hs
  cases op with
  | lt => exact .inl ⟨1, z, rfl, hup (of_decide_eq_true h)⟩
  | le => exact .inl ⟨1, z + 1, rfl, hup (of_decide_eq_true h)⟩
  | gt => exact .inl ⟨-1, -z, rfl, hdown (of_decide_eq_true h)⟩
  | ge => exact .inl ⟨-1, 1 - z, rfl, hdown (of_decide_eq_true h)⟩
  | eq => exact .inr (.inl rfl)
  | ne => exact .inr (.inr rfl)
  | _ => cases h

/-! ## Accepted sources -/

/-- **Loops that count in integers.** In an accepted source such a loop makes a number of rounds in exact arithmetic, and
the counter is a word in each of them. The value that ends it is known. All values are words if and only if that one is,
and then a loop of the targets makes the same number of rounds. If it is not, one whose comparison is by order does
not. -/
theorem int_loops_in_words {options : CompileOptions} {source : String} {p : Program}
    (h : compile options source = .ok p) :
    ∀ b ∈ p.bodies, ∀ x ∈ b.1.top.places [], ∀ c body, x.2 = .loop c body → c.ty = .int →
      ∃ a z d : Int, c.start = .int a ∧ c.stop = .int z ∧ c.step = .int d ∧ ∃ n : Nat, c.Lasts a z d n ∧
        a + n * d = c.op.lastValue a z d ∧ (∀ k < n, FitsWord (a + (k : Nat) * d)) ∧
        ((∀ k ≤ n, FitsWord (a + (k : Nat) * d)) ↔ FitsWord (c.op.lastValue a z d)) ∧
        (c.LastsInWords (.ofInt 32 a) (.ofInt 32 z) (.ofInt 32 d) n ↔ FitsWord (c.op.lastValue a z d) ∨ c.op = .eq) := by
  intro b hb x hx c body heq ht
  obtain ⟨file, g, cs, -, hp⟩ := Check.compile_assembly h
  obtain ⟨f, -, sig, -, hchecks⟩ := hp.bodyOf hb
  obtain ⟨-, hends, hwords⟩ := Check.body_traced hchecks.run x hx
  have hends := hends c body heq
  obtain ⟨a, z, d, hstart, hstop, hstep, ha, hz, hd⟩ := hwords c body heq ht
  rw [hstart, hstop, hstep] at hends
  have hd : -0x80000000 ≤ d ∧ d ≤ 0x80000000 := by
    unfold FitsWord at hd
    omega
  obtain ⟨hne, hcount⟩ := Check.terminates_counts hends rfl rfl rfl
  have hdirection := Check.terminates_direction hends z
  have hop : c.op.isComparison = true := by
    rcases hdirection with ⟨s, y, hlimit, -⟩ | hop | hop
    · revert hlimit
      cases c.op <;> rintro ⟨⟩ <;> rfl
    · rw [hop]; rfl
    · rw [hop]; rfl
  obtain ⟨n, hn⟩ := Code.Counter.exists_lasts hop hcount
  -- the three ways to compare differ only in what the last value is and how words see it
  have hcounts : a + n * d = c.op.lastValue a z d ∧ (∀ k < n, FitsWord (a + (k : Nat) * d)) ∧
      (c.LastsInWords (.ofInt 32 a) (.ofInt 32 z) (.ofInt 32 d) n ↔
        FitsWord (c.op.lastValue a z d) ∨ c.op = .eq) := by
    rcases hdirection with ⟨s, y, hlimit, hmoves⟩ | hop | hop
    · obtain ⟨hlast, hfits, hiff⟩ := counts_by_order hlimit ha hz hd hmoves hn
      have hord : c.op ≠ .eq := by
        intro hop
        rw [hop] at hlimit
        cases hlimit
      exact ⟨hlast, hfits, hiff.trans (or_iff_left hord).symm⟩
    · obtain ⟨hlast, hfits, hwords⟩ := counts_from_limit hop ha hz hd (by exact_mod_cast hne) hn
      refine ⟨hlast.trans ?_, hfits, iff_of_true hwords (.inr hop)⟩
      rw [hop]
      rfl
    · obtain ⟨hlast, hfits⟩ := counts_to_limit hop ha hz hn
      have hvalue : c.op.lastValue a z d = z := by rw [hop]; rfl
      rw [hvalue]
      refine ⟨hlast, fun k hk => hfits k hk.le, iff_of_true ?_ (.inl hz)⟩
      rw [lastsInWords_iff hn hz fun k hk => hfits k hk.le, bmod_of_fitsWord (hfits n le_rfl)]
      exact_mod_cast hn.1
  obtain ⟨hlast, hfits, hwords⟩ := hcounts
  refine ⟨a, z, d, hstart, hstop, hstep, n, hn, hlast, hfits, ⟨fun hall => hlast ▸ hall n le_rfl, ?_⟩, hwords⟩
  intro hword k hk
  rcases hk.lt_or_eq with hk | rfl
  · exact hfits k hk
  · exact hlast ▸ hword

set_option maxRecDepth 2000 in
/-- The loop of `leastSample` ends at the least word. -/
theorem leastSample_in_words :
    ∃ p, compile {} leastSample = .ok p ∧ ∃ b ∈ p.bodies, ∃ x ∈ b.1.top.places [], ∃ c body, x.2 = .loop c body ∧
      ∃ a z d : Int, c.stop = .int z ∧ ∃ n, c.Lasts a z d n ∧
        c.LastsInWords (.ofInt 32 a) (.ofInt 32 z) (.ofInt 32 d) n := by
  obtain ⟨p, hp, hq⟩ : ∃ p, compile {} leastSample = .ok p ∧ p.anyLoop (fun c => c.ty = .int ∧ c.start = .int 0 ∧
      c.stop = .int (-0x80000000) ∧ c.op = .gt ∧ c.step = .int (-0x40000000)) = true :=
    exists_compile (by decide +kernel)
  obtain ⟨b, hb, x, hx, c, body, heq, hq⟩ := Program.exists_loop hq
  obtain ⟨ht, ha, hz, hop, hd⟩ := of_decide_eq_true hq
  obtain ⟨a, z, d, ha', hz', hd', n, hn, -, -, -, hwords⟩ := int_loops_in_words hp b hb x hx c body heq ht
  obtain rfl := Constant.int.inj (ha.symm.trans ha')
  obtain rfl := Constant.int.inj (hz.symm.trans hz')
  obtain rfl := Constant.int.inj (hd.symm.trans hd')
  refine ⟨p, hp, b, hb, x, hx, c, body, heq, _, _, _, hz, n, hn, hwords.mpr (.inl ?_)⟩
  rw [hop]
  decide

/-- A loop up to the greatest word. -/
def greatestSample : String := "package main
func f() int {
	x := 0
	for i := 0; i <= 2147483647; i++ {
		x += i
	}
	return x
}
"

/-- It is accepted, though with words it has no end. -/
theorem greatestSample_endless :
    ∃ p, compile {} greatestSample = .ok p ∧ ∃ b ∈ p.bodies, ∃ x ∈ b.1.top.places [], ∃ c body, x.2 = .loop c body ∧
      c.ty = .int ∧ c.start = .int 0 ∧ c.stop = .int 0x7fffffff ∧ c.step = .int 1 ∧
      ∀ n, ¬c.LastsInWords (.ofInt 32 0) (.ofInt 32 0x7fffffff) (.ofInt 32 1) n := by
  obtain ⟨p, hp, hq⟩ : ∃ p, compile {} greatestSample = .ok p ∧ p.anyLoop (fun c => c.ty = .int ∧ c.start = .int 0 ∧
      c.stop = .int 0x7fffffff ∧ c.step = .int 1 ∧ c.op = .le) = true := exists_compile (by decide +kernel)
  obtain ⟨b, hb, x, hx, c, body, heq, hq⟩ := Program.exists_loop hq
  obtain ⟨ht, ha, hz, hd, hop⟩ := of_decide_eq_true hq
  refine ⟨p, hp, b, hb, x, hx, c, body, heq, ht, ha, hz, hd, fun n hn => ?_⟩
  have hend := hn.1
  rw [hop] at hend
  -- every word is at most the greatest
  refine of_decide_eq_false (Option.some.inj hend) ?_
  have hle := BitVec.toInt_lt (x := (· + BitVec.ofInt 32 1)^[n] (BitVec.ofInt 32 0))
  have hgreatest : (BitVec.ofInt 32 0x7fffffff).toInt = 0x7fffffff := by decide
  rw [hgreatest]
  exact_mod_cast Int.lt_add_one_iff.mp hle

end GameMedia.Shader
