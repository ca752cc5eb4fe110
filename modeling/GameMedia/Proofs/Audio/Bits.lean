import Mathlib
import GameMedia.Audio.Huffman

/-!
# Bits as numbers

What a reader reads is the number that its next bits spell, with zeros behind the data. So numbers read one behind the
other are what one read of all their bits gives. Whoever gathers the bits in a word of 32 bits loses none of them.
-/

namespace GameMedia.Audio

open List BitReader Huffman.Tree

/-! ## Bits of data -/

/-- The bits of bytes, from the highest of each byte down. -/
def dataBits (data : List UInt8) : List Bool := data.flatMap fun b => codeBits b.toNat 8

/-- The bits of the data, and zeros without end behind them. -/
def zeroExtended (data : Array UInt8) (i : Nat) : Bool := (dataBits data.toList).getD i false

theorem length_codeBits (code n : Nat) : (codeBits code n).length = n := by
  induction n with
  | zero => rfl
  | succ n ih => rw [codeBits, length_cons, ih]

theorem codeBits_getD (code : Nat) (h : i < n) : (codeBits code n).getD i false = code.testBit (n - 1 - i) := by
  induction n generalizing i with
  | zero => cases h
  | succ n ih =>
    cases i with
    | zero => rfl
    | succ i =>
      rw [codeBits, getD_cons_succ, ih (Nat.lt_of_succ_lt_succ h), Nat.add_sub_cancel, Nat.sub_sub, Nat.add_comm 1]

theorem dataBits_getD (data : List UInt8) (i : Nat) :
    (dataBits data).getD i false = (data.getD (i / 8) 0).toNat.testBit (7 - i % 8) := by
  induction data generalizing i with
  | nil => simp [dataBits]
  | cons b data ih =>
    have hlength := length_codeBits b.toNat 8
    rw [dataBits, flatMap_cons]
    rcases Nat.lt_or_ge i 8 with hi | hi
    · rw [getD_append _ _ _ _ (hlength.symm ▸ hi), codeBits_getD _ hi, Nat.div_eq_of_lt hi, Nat.mod_eq_of_lt hi,
        getD_cons_zero]
    · obtain ⟨i, rfl⟩ := Nat.exists_eq_add_of_le hi
      rw [getD_append_right _ _ _ _ (hlength.symm ▸ hi), hlength, Nat.add_sub_cancel_left, Nat.add_mod_left,
        Nat.add_div_left i (by decide), getD_cons_succ, ← ih, dataBits]

theorem bitAt_eq (data : Array UInt8) (i : Nat) : bitAt data i = zeroExtended data i := by
  rw [zeroExtended, dataBits_getD, bitAt, Array.getD_eq_getD_getElem?, getD_eq_getElem?_getD, Array.getElem?_toList]

/-! ## Numbers of several bits -/

theorem bitsAt_eq_ofDigits (data : Array UInt8) (pos n : Nat) :
    bitsAt data pos n = Nat.ofDigits 2 ((range n).map fun i => (zeroExtended data (pos + i)).toNat).reverse := by
  induction n with
  | zero => rfl
  | succ n ih =>
    rw [bitsAt, ih, range_succ, map_append, reverse_append, map_singleton, reverse_singleton, singleton_append,
      Nat.ofDigits_cons, bitAt_eq, Nat.add_comm]

theorem bitsAt_add (data : Array UInt8) (pos m n : Nat) :
    bitsAt data pos (m + n) = bitsAt data pos m * 2 ^ n + bitsAt data (pos + m) n := by
  induction n with
  | zero => simp [bitsAt]
  | succ n ih =>
    rw [← Nat.add_assoc, bitsAt, ih, bitsAt, Nat.pow_succ, Nat.add_assoc pos]
    ring

theorem bitsAt_succ (data : Array UInt8) (pos n : Nat) :
    bitsAt data pos (n + 1) = bitsAt data (pos + 1) n + 2 ^ n * (bitAt data pos).toNat := by
  rw [Nat.add_comm n, bitsAt_add, Nat.add_comm, Nat.mul_comm]
  simp [bitsAt]

theorem BitReader.bitsAt_lt (data : Array UInt8) (pos n : Nat) : bitsAt data pos n < 2 ^ n := by
  induction n with
  | zero => exact Nat.one_pos
  | succ n ih =>
    have := Bool.toNat_le (bitAt data (pos + n))
    rw [bitsAt, Nat.pow_succ]
    omega

namespace BitRead

/-- Numbers of so many bits each, put together with the first one highest. -/
def concatenated (parts : List (Nat × Nat)) : Nat := parts.foldl (fun number part => number * 2 ^ part.1 + part.2) 0

theorem mapM_bits (ns : List Nat) (r : BitReader) : (ns.mapM bits r).2 = ⟨r.data, r.pos + ns.sum⟩ ∧
    ∀ number, (ns.zip (ns.mapM bits r).1).foldl (fun number part => number * 2 ^ part.1 + part.2) number =
      number * 2 ^ ns.sum + bitsAt r.data r.pos ns.sum := by
  induction ns generalizing r with
  | nil => exact ⟨rfl, fun number => by simp [bitsAt]⟩
  | cons n ns ih =>
    obtain ⟨hend, hnumber⟩ := ih ⟨r.data, r.pos + n⟩
    have hrun : (n :: ns).mapM bits r = (bitsAt r.data r.pos n :: (ns.mapM bits ⟨r.data, r.pos + n⟩).1,
        (ns.mapM bits ⟨r.data, r.pos + n⟩).2) := by
      rw [mapM_cons]
      rfl
    rw [hrun, sum_cons, ← Nat.add_assoc]
    refine ⟨hend, fun number => ?_⟩
    rw [zip_cons_cons, foldl_cons, hnumber, bitsAt_add]
    ring

/-! ## Words -/

/-- Reads bits into a word: for each, the word is shifted up and the bit put into the lowest place. -/
def intoWord : Nat → UInt32 → BitRead UInt32
  | 0, word => pure word
  | n + 1, word => do intoWord n (word <<< 1 ||| (← bit).toUInt32)

theorem toNat_push {word : UInt32} (h : word.toNat * 2 < 2 ^ 32) (b : Bool) :
    (word <<< 1 ||| b.toUInt32).toNat = word.toNat * 2 + b.toNat := by
  have hb : b.toUInt32.toNat = b.toNat := by cases b <;> rfl
  have hshift : (word <<< 1).toNat = word.toNat <<< 1 := by
    rw [UInt32.toNat_shiftLeft]
    exact Nat.mod_eq_of_lt (by simpa [Nat.shiftLeft_eq] using h)
  rw [UInt32.toNat_or, hb, hshift, ← Nat.shiftLeft_add_eq_or_of_lt (Bool.toNat_lt b), Nat.shiftLeft_eq, pow_one]

/-- As long as the number fits, the word has all of its bits. -/
theorem intoWord_eq {word : UInt32} (h : word.toNat * 2 ^ n + bitsAt r.data r.pos n < 2 ^ 32) :
    (intoWord n word r).1.toNat = word.toNat * 2 ^ n + bitsAt r.data r.pos n ∧
      (intoWord n word r).2 = ⟨r.data, r.pos + n⟩ := by
  induction n generalizing word r with
  | zero => exact ⟨by rw [bitsAt, pow_zero, Nat.mul_one]; rfl, rfl⟩
  | succ n ih =>
    have hsmall : word.toNat * 2 < 2 ^ 32 := by
      have := Nat.le_mul_of_pos_right (word.toNat * 2) (Nat.two_pow_pos n)
      rw [Nat.pow_succ', ← Nat.mul_assoc] at h
      omega
    have hword : word.toNat * 2 ^ (n + 1) + bitsAt r.data r.pos (n + 1) =
        (word <<< 1 ||| (bitAt r.data r.pos).toUInt32).toNat * 2 ^ n + bitsAt r.data (r.pos + 1) n := by
      rw [toNat_push hsmall, bitsAt_succ, Nat.pow_succ]
      ring
    rw [hword] at h ⊢
    have hread := ih (r := ⟨r.data, r.pos + 1⟩) h
    rwa [Nat.add_assoc, Nat.add_comm 1] at hread

/-- **Reading `n` bits** gives the number that has the next `n` bits of the data as its binary digits, the first of them
the highest, where the data go on with zeros without end, and moves the reader by `n` bits. A word has room for up to 32
of them. Numbers read one behind the other, put together, are the number that one read of all their bits gives. -/
theorem bits_denote (r : BitReader) :
    (∀ n, bits n r = (Nat.ofDigits 2 ((range n).map fun i => (zeroExtended r.data (r.pos + i)).toNat).reverse,
      ⟨r.data, r.pos + n⟩)) ∧
    (∀ n ≤ 32, (intoWord n 0 r).1.toNat = (bits n r).1 ∧ (intoWord n 0 r).2 = (bits n r).2) ∧
    ∀ ns : List Nat,
      concatenated (ns.zip (ns.mapM bits r).1) = (bits ns.sum r).1 ∧ (ns.mapM bits r).2 = (bits ns.sum r).2 := by
  refine ⟨fun n => congrArg (·, _) (bitsAt_eq_ofDigits r.data r.pos n), fun n hn => ?_, fun ns => ?_⟩
  · have hlt : (0 : UInt32).toNat * 2 ^ n + bitsAt r.data r.pos n < 2 ^ 32 := by
      rw [UInt32.toNat_zero, Nat.zero_mul, Nat.zero_add]
      exact (bitsAt_lt r.data r.pos n).trans_le (Nat.pow_le_pow_right Nat.two_pos hn)
    have hword := intoWord_eq hlt
    rwa [UInt32.toNat_zero, Nat.zero_mul, Nat.zero_add] at hword
  · obtain ⟨hend, hnumber⟩ := mapM_bits ns r
    refine ⟨?_, hend⟩
    rw [concatenated, hnumber 0, Nat.zero_mul, Nat.zero_add, bits]

/-- A whole word, of which the last bits are behind the data. -/
theorem bits_denote_word :
    32 ≤ 32 ∧ (intoWord 32 0 ⟨#[255], 4⟩).1.toNat = 0xf0000000 ∧ (intoWord 32 0 ⟨#[255], 4⟩).2.pos = 36 := by
  obtain ⟨hvalue, hend⟩ := (bits_denote ⟨#[255], 4⟩).2.1 32 (Nat.le_refl _)
  exact ⟨Nat.le_refl _, hvalue, congrArg BitReader.pos hend⟩

end BitRead

end GameMedia.Audio
