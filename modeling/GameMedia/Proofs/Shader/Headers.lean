import GameMedia.Proofs.Shader.Integers
import GameMedia.Proofs.Shader.Literals

/-!
# Loop headers as they are printed

The checker decides by exact numbers whether a loop ends, and the writer prints the header with numbers of eleven digits.
A printed step has the sign of the step, if it is not lost altogether, so a loop that waits for the counter to pass a
limit still ends. One that waits for the counter to meet its limit ends if the numbers are printed as they are, such as
integral ones, and may run past it if they are not.
-/

namespace GameMedia.Shader

namespace Target

/-! ## Reading a header -/

def literalValue? (cs : List Char) : Option Rat := (Constant.ofFloatLiteral? (String.ofList cs)).bind Constant.number?

/-- The distance that the last part of a header moves the counter `v`. -/
def stepValue? (v text : String) : Option Rat :=
  match text.toList.drop v.toList.length with
  | ['+', '+'] => some 1
  | ['-', '-'] => some (-1)
  | ' ' :: '+' :: '=' :: ' ' :: cs => literalValue? cs
  | ' ' :: '-' :: '=' :: ' ' :: cs => (literalValue? cs).map Neg.neg
  | _ => none

/-- The numbers that the header of a loop denotes as it is printed, with the name `v` for its counter. -/
structure Denotes (c : Code.Counter) (v : String) (a z d : Rat) : Prop where
  start : literalValue? c.start.literal.toList = some a
  stop : literalValue? c.stop.literal.toList = some z
  step : ∃ text, stepText v c.step = .ok text ∧ stepValue? v text = some d

/-! ## Steps -/

open Number (Binary64)

variable {d : Rat}

/-- Numbers that are printed as literals: integral ones, and those that doubles come near to. -/
def Printable (r : Rat) : Prop := r.den = 1 ∨ |r| < 2 ^ 1023

theorem literalValue?_kept (h : Printable r) :
    ∃ r', literalValue? (Constant.float r).literal.toList = some r' ∧ Constant.Kept r r' := by
  obtain ⟨r', hread, hkept⟩ := Constant.literal_kept h
  refine ⟨r', ?_, hkept⟩
  rw [literalValue?, String.ofList_toList, hread]
  rfl

theorem stepValue?_append (v t : String) : stepValue? v (v ++ t) = stepValue? "" t := by
  unfold stepValue?
  rw [String.toList_append, List.drop_left]
  rfl

/-- A step that rounds to one is not far from it. -/
theorem kept_one (hd : d ≠ 0) (h : Binary64.nearest d = Binary64.nearest d.num.sign) : Constant.Kept d d.num.sign := by
  have hone : Binary64.nearest 1 = .finite false (2 ^ 52) (-52) := by decide +kernel
  have hminus : Binary64.nearest (-1) = .finite true (2 ^ 52) (-52) := by decide +kernel
  obtain ⟨negative, hnear, hsign, hprod⟩ : ∃ negative, Binary64.nearest d = .finite negative (2 ^ 52) (-52) ∧
      d.num.sign ≠ 0 ∧ 0 ≤ d * d.num.sign := by
    rcases lt_or_gt_of_ne hd with hneg | hpos
    · have hs := Int.sign_eq_neg_one_of_neg (Rat.num_neg.mpr hneg)
      rw [h, hs]
      exact ⟨true, by exact_mod_cast hminus, by decide, by push_cast; linarith⟩
    · have hs := Int.sign_eq_one_of_pos (Rat.num_pos.mpr hpos)
      rw [h, hs]
      exact ⟨false, by exact_mod_cast hone, by decide, by push_cast; linarith⟩
  obtain ⟨-, hinf⟩ | ⟨m, e, hfin, -, -, -, hdist, hzero, -⟩ := Binary64.nearest_spec hd
  · cases hinf.symm.trans hnear
  obtain ⟨-, rfl, rfl⟩ := Binary64.finite.inj (hfin.symm.trans hnear)
  refine ⟨hprod, iff_of_false (Int.cast_ne_zero.mpr hsign) fun hsmall => absurd (hzero.mpr hsmall) (by decide), ?_⟩
  intro hden
  have hleast : (2 : Rat) ^ (-1075 : Int) ≤ 2 ^ (-1 : Int) := zpow_le_zpow_right₀ one_le_two (by decide)
  have hlt : |d| < 2 := by
    have hmax : max (|d| / 2 ^ 53) ((2 : Rat) ^ (-1075 : Int)) ≤ |d| / 2 ^ 53 + 1 / 2 :=
      max_le (by norm_num) (hleast.trans (by norm_num; positivity))
    have hclose := (abs_le.mp (hdist.trans hmax)).1
    norm_num at hclose
    linarith
  rw [← Rat.coe_int_num_of_den_eq_one hden] at hlt
  have hnum : |d.num| < 2 := by exact_mod_cast hlt
  have hself : d.num.sign = d.num := by
    rw [abs_lt] at hnum
    have hcases : d.num = -1 ∨ d.num = 0 ∨ d.num = 1 := by omega
    rcases hcases with h | h | h <;> rw [h] <;> rfl
  rw [hself, Rat.coe_int_num_of_den_eq_one hden]

/-- **A printed step keeps its sign**, and an integral one its value. -/
theorem stepText_kept (v : String) (hd : d ≠ 0) (h : Printable d) :
    ∃ text d', stepText v (.float d) = .ok text ∧ stepValue? v text = some d' ∧ Constant.Kept d d' := by
  have hsign : (Constant.float d).sign ≠ 0 := fun h₀ => hd (Rat.num_eq_zero.mp (Int.sign_eq_zero_iff_zero.mp h₀))
  unfold stepText
  rw [if_neg hsign]
  by_cases hone : (Constant.float d).double? = some (Binary64.nearest (Constant.float d).sign)
  · rw [if_pos hone]
    refine ⟨_, _, rfl, ?_, kept_one hd (Option.some.inj hone)⟩
    rw [stepValue?_append]
    rcases lt_or_gt_of_ne hd with hneg | hpos
    · have hs : (Constant.float d).sign = -1 := Int.sign_eq_neg_one_of_neg (Rat.num_neg.mpr hneg)
      have hs' : d.num.sign = -1 := hs
      rw [hs, hs', if_neg (by decide)]
      exact congrArg some (by norm_num)
    · have hs : (Constant.float d).sign = 1 := Int.sign_eq_one_of_pos (Rat.num_pos.mpr hpos)
      have hs' : d.num.sign = 1 := hs
      rw [hs, hs', if_pos (by decide)]
      exact congrArg some (by norm_num)
  rw [if_neg hone]
  by_cases hpos : 0 < (Constant.float d).sign
  · obtain ⟨d', hread, hkept⟩ := literalValue?_kept h
    refine ⟨_, d', if_pos hpos, ?_, hkept⟩
    rw [String.append_assoc, stepValue?_append, stepValue?, String.toList_append]
    exact hread
  · have hneg : Printable (-d) := by
      unfold Printable at h ⊢
      rwa [Rat.neg_den, abs_neg]
    obtain ⟨d', hread, hkept⟩ := literalValue?_kept hneg
    refine ⟨_, -d', if_neg hpos, ?_, ?_⟩
    · rw [String.append_assoc, stepValue?_append, stepValue?, String.toList_append]
      exact congrArg (Option.map Neg.neg) hread
    · obtain ⟨hs, hz, hi⟩ := hkept
      refine ⟨by linarith [hs], by rw [neg_eq_zero, hz, abs_neg], fun hden => ?_⟩
      rw [hi (by rwa [Rat.neg_den]), neg_neg]

end Target

/-! ## Accepted sources -/

open Target

/-- The sign of the step decides, unless the limit has to be met. -/
theorem Check.terminates_of_sign (h : terminates op a z d = true) (hop : op ≠ .ne) (hs : d'.sign = d.sign) :
    terminates op a' z' d' = true := by
  unfold terminates at h ⊢
  rw [hs]
  cases op with
  | ne => exact absurd rfl hop
  | _ => exact h

theorem Constant.Kept.sign_eq (h : Kept d d') (hd : d ≠ 0) (hd' : d' ≠ 0) :
    (Constant.float d').sign = (Constant.float d).sign := by
  have hpos := lt_of_le_of_ne h.sign (mul_ne_zero hd hd').symm
  rcases pos_and_pos_or_neg_and_neg_of_mul_pos hpos with ⟨h₁, h₂⟩ | ⟨h₁, h₂⟩
  · exact (Int.sign_eq_one_of_pos (Rat.num_pos.mpr h₂)).trans (Int.sign_eq_one_of_pos (Rat.num_pos.mpr h₁)).symm
  · exact (Int.sign_eq_neg_one_of_neg (Rat.num_neg.mpr h₂)).trans
      (Int.sign_eq_neg_one_of_neg (Rat.num_neg.mpr h₁)).symm

/-- **Loops that count in floats, as they are printed.** In an accepted source such a loop makes a number of rounds in
exact arithmetic. If its numbers can be printed, the header denotes numbers, and the step is zero there only if it is one
of the least. If it is not zero, the printed loop ends too, unless it has to meet its limit. With integral numbers it
makes the same number of rounds, whatever its comparison is. -/
theorem printed_loops {options : CompileOptions} {source : String} {p : Program} (h : compile options source = .ok p) :
    ∀ b ∈ p.bodies, ∀ x ∈ b.1.top.places [], ∀ c body, x.2 = .loop c body → c.ty = .float →
      ∃ a z d : Rat, c.start = .float a ∧ c.stop = .float z ∧ c.step = .float d ∧ ∃ n, c.Lasts a z d n ∧
        ∀ v, Printable a → Printable z → Printable d → ∃ a' z' d', Denotes c v a' z' d' ∧
          (d' = 0 ↔ |d| ≤ 2 ^ (-1075 : Int)) ∧ (c.op ≠ .ne → d' ≠ 0 → ∃ n', c.Lasts a' z' d' n') ∧
          (a.den = 1 → z.den = 1 → d.den = 1 → c.Lasts a' z' d' n) := by
  intro b hb x hx c body heq ht
  obtain ⟨file, g, cs, -, hp⟩ := Check.compile_assembly h
  obtain ⟨f, -, sig, -, hchecks⟩ := hp.bodyOf hb
  have hends := (Check.body_traced hchecks.run x hx).ends c body heq
  obtain ⟨inLoop, Γ, htyped⟩ := Code.Block.Typed.place _ [] (hp.produces.typed.1 b hb) x hx
  rw [heq] at htyped
  obtain ⟨-, hkinds, hop, -⟩ : c.Typed := htyped.1
  -- constants of the type `float` are floats
  have hfloat : ∀ k ∈ [c.start, c.stop, c.step], ∃ r, k = .float r := by
    intro k hk
    have hkind := (hkinds k hk).trans ht
    cases k with
    | float r => exact ⟨r, rfl⟩
    | int n => exact absurd hkind (by decide : Ty.int ≠ .float)
    | bool v => exact absurd hkind (by decide : Ty.bool ≠ .float)
  simp only [List.forall_mem_cons] at hfloat
  obtain ⟨⟨a, ha⟩, ⟨z, hz⟩, ⟨d, hd⟩, -⟩ := hfloat
  rw [ha, hz, hd] at hends
  obtain ⟨hne, hcount⟩ := Check.terminates_counts hends rfl rfl rfl
  obtain ⟨n, hn⟩ := Code.Counter.exists_lasts hop hcount
  refine ⟨a, z, d, ha, hz, hd, n, hn, fun v hpa hpz hpd => ?_⟩
  obtain ⟨a', hreada, hka⟩ := literalValue?_kept hpa
  obtain ⟨z', hreadz, hkz⟩ := literalValue?_kept hpz
  obtain ⟨text, d', htext, hreadd, hkd⟩ := stepText_kept v hne hpd
  refine ⟨a', z', d', ⟨ha ▸ hreada, hz ▸ hreadz, text, hd ▸ htext, hreadd⟩, hkd.zero, fun hop' hd' => ?_, ?_⟩
  · have hends' : Check.terminates c.op (.float a') (.float z') (.float d') = true :=
      Check.terminates_of_sign hends hop' (hkd.sign_eq hne hd')
    exact Code.Counter.exists_lasts hop (Check.terminates_counts hends' rfl rfl rfl).2
  · intro hda hdz hdd
    rwa [hka.integral hda, hkz.integral hdz, hkd.integral hdd]

/-- A loop whose step has no exact double. -/
def tenthsSample : String := "package main
func f() float {
	x := 0.0
	for i := 0.0; i < 1; i += 0.1 {
		x += i
	}
	return x
}
"

theorem tenthsSample_ends :
    ∃ p, compile {} tenthsSample = .ok p ∧ ∃ b ∈ p.bodies, ∃ x ∈ b.1.top.places [], ∃ c body, x.2 = .loop c body ∧
      c.step = .float (1 / 10) ∧ ∃ a' z' d', Denotes c "i" a' z' d' ∧ ∃ n', c.Lasts a' z' d' n' := by
  obtain ⟨p, hp, hq⟩ : ∃ p, compile {} tenthsSample = .ok p ∧ p.anyLoop (fun c => c.ty = .float ∧ c.start = .float 0 ∧
      c.stop = .float 1 ∧ c.step = .float (1 / 10) ∧ c.op = .lt) = true := exists_compile (by decide +kernel)
  obtain ⟨b, hb, x, hx, c, body, heq, hq⟩ := Program.exists_loop hq
  obtain ⟨ht, ha, hz, hd, hop⟩ := of_decide_eq_true hq
  refine ⟨p, hp, b, hb, x, hx, c, body, heq, hd, ?_⟩
  obtain ⟨a, z, d, ha', hz', hd', n, -, hprints⟩ := printed_loops hp b hb x hx c body heq ht
  obtain rfl := Constant.float.inj (ha.symm.trans ha')
  obtain rfl := Constant.float.inj (hz.symm.trans hz')
  obtain rfl := Constant.float.inj (hd.symm.trans hd')
  have htenth : |(1 / 10 : Rat)| < 2 ^ 1023 := lt_of_lt_of_le (by norm_num) (one_le_pow₀ one_le_two)
  obtain ⟨a', z', d', hdenotes, hzero, hends, -⟩ := hprints "i" (.inl rfl) (.inl rfl) (.inr htenth)
  refine ⟨a', z', d', hdenotes, hends (by rw [hop]; decide) fun h₀ => ?_⟩
  have hleast : (2 : Rat) ^ (-1075 : Int) ≤ 2 ^ (-4 : Int) := zpow_le_zpow_right₀ one_le_two (by decide)
  have hsmall := (hzero.mp h₀).trans hleast
  norm_num at hsmall

/-- A loop that meets its limit in three steps of a third. -/
def thirdsSample : String := "package main
func f() float {
	x := 0.0
	for i := 0.0; i != 1; i += 1.0 / 3 {
		x += i
	}
	return x
}
"

/-- It is accepted, though as it is printed it has no end: the steps of 0.33333333333 miss the limit. -/
theorem thirdsSample_endless :
    ∃ p, compile {} thirdsSample = .ok p ∧ ∃ b ∈ p.bodies, ∃ x ∈ b.1.top.places [], ∃ c body, x.2 = .loop c body ∧
      c.ty = .float ∧ ∀ v, ∃ a z d, Denotes c v a z d ∧ ∀ n, ¬c.Lasts a z d n := by
  obtain ⟨p, hp, hq⟩ : ∃ p, compile {} thirdsSample = .ok p ∧ p.anyLoop (fun c => c.ty = .float ∧ c.start = .float 0 ∧
      c.stop = .float 1 ∧ c.step = .float (1 / 3) ∧ c.op = .ne) = true := exists_compile (by decide +kernel)
  obtain ⟨b, hb, x, hx, c, body, heq, hq⟩ := Program.exists_loop hq
  obtain ⟨ht, ha, hz, hd, hop⟩ := of_decide_eq_true hq
  refine ⟨p, hp, b, hb, x, hx, c, body, heq, ht, fun v => ⟨0, 1, 33333333333 / 10 ^ 11, ⟨?_, ?_, ?_⟩, ?_⟩⟩
  · rw [ha]
    decide +kernel
  · rw [hz]
    decide +kernel
  · refine ⟨v ++ (" += " ++ (Constant.float (1 / 3)).literal), ?_, ?_⟩
    · rw [hd, ← String.append_assoc, stepText, if_neg (by decide +kernel), if_neg (by decide +kernel),
        if_pos (by decide +kernel)]
    · rw [stepValue?_append]
      decide +kernel
  · rintro n ⟨hend, -⟩
    rw [hop] at hend
    have hmeets : (0 : Rat) + n * (33333333333 / 10 ^ 11) = 1 := by simpa [Constant.floatCompare?] using hend
    have hwhole : (n : Rat) * 33333333333 = 10 ^ 11 := by linarith
    have hnat : n * 33333333333 = 10 ^ 11 := by exact_mod_cast hwhole
    omega

end GameMedia.Shader
