import Mathlib
import GameMedia.Shader.Source

/-!
# Lines and columns of bytes

The position of a byte is found by counting: its line by the line feeds before it, its column by the bytes since the
last of them. A step to the next byte leads to the next column or to the start of the next line, so no two bytes have
one position.
-/

namespace GameMedia.Shader

open List
open String (utf8EncodeChar length_utf8EncodeChar)

/-- The byte that ends a line. -/
def lineFeed : UInt8 := 10

/-- A text as it is stored. -/
def textBytes (cs : List Char) : List UInt8 := cs.flatMap utf8EncodeChar

theorem length_textBytes (cs : List Char) : (textBytes cs).length = byteLength cs := by
  induction cs with
  | nil => rfl
  | cons c cs ih => rw [textBytes, flatMap_cons, length_append, length_utf8EncodeChar, byteLength, ← ih, textBytes]

/-- All bytes of a character that takes more than one are above those of the shorter ones. -/
theorem lineFeed_mem_utf8EncodeChar {c : Char} (h : lineFeed ∈ utf8EncodeChar c) : c = '\n' := by
  simp only [utf8EncodeChar, lineFeed] at h
  split_ifs at h
  · have hval : c.val.toNat = 10 := by
      simp only [mem_singleton, ← UInt8.toNat_inj, UInt8.toNat_ofNat', UInt8.reduceToNat] at h
      omega
    exact Char.ext (UInt32.toNat_inj.mp hval)
  all_goals
    simp only [mem_cons, not_mem_nil, or_false, ← UInt8.toNat_inj, UInt8.toNat_ofNat', UInt8.reduceToNat] at h
    omega

namespace Pos

/-- The position where a text starts. -/
def start : Pos := ⟨1, 1⟩

/-- The position behind one byte. -/
def step (p : Pos) (b : UInt8) : Pos := if b = lineFeed then ⟨p.line + 1, 1⟩ else ⟨p.line, p.col + 1⟩

theorem lt_step (p : Pos) (b : UInt8) : toLex (p.line, p.col) < toLex ((p.step b).line, (p.step b).col) := by
  rw [Prod.Lex.toLex_lt_toLex, step]
  split
  · exact .inl p.line.lt_succ_self
  · exact .inr ⟨rfl, p.col.lt_succ_self⟩

theorem foldl_step_of_notMem {bs : List UInt8} (h : lineFeed ∉ bs) (p : Pos) :
    bs.foldl step p = ⟨p.line, p.col + bs.length⟩ := by
  induction bs generalizing p with
  | nil => rfl
  | cons b bs ih =>
    obtain ⟨hb, hbs⟩ := not_or.mp (mem_cons.not.mp h)
    rw [foldl_cons, step, if_neg (Ne.symm hb), ih hbs, length_cons, Nat.add_right_comm, Nat.add_assoc]

theorem foldl_step_char (p : Pos) (c : Char) :
    (utf8EncodeChar c).foldl step p = if c = '\n' then ⟨p.line + 1, 1⟩ else ⟨p.line, p.col + c.utf8Size⟩ := by
  split
  · next hc => exact hc ▸ rfl
  · next hc => rw [foldl_step_of_notMem fun hmem => hc (lineFeed_mem_utf8EncodeChar hmem), length_utf8EncodeChar]

/-- Walking bytes counts the line feeds among them, and then the bytes behind the last one. -/
theorem foldl_step (bs : List UInt8) :
    bs.foldl step start = ⟨1 + bs.count lineFeed, 1 + (bs.rtakeWhile (· != lineFeed)).length⟩ := by
  induction bs using reverseRecOn with
  | nil => rfl
  | append_singleton bs b ih =>
    rw [foldl_concat, ih, count_append, rtakeWhile_concat, step]
    by_cases hb : b = lineFeed
    · simp [hb, Nat.add_assoc]
    · simp [hb, Nat.add_assoc]

theorem foldl_step_le (bs : List UInt8) :
    1 ≤ (bs.foldl step start).col ∧ (bs.foldl step start).line + (bs.foldl step start).col ≤ bs.length + 2 := by
  induction bs using reverseRecOn with
  | nil => exact ⟨Nat.le_refl 1, Nat.le_refl 2⟩
  | append_singleton bs b ih =>
    rw [foldl_concat, length_append, length_singleton, step]
    split <;> dsimp only <;> omega

end Pos

namespace LineIndex

/-- No line starts inside a character. -/
theorem le_of_mem_startsFrom (h : s ∈ startsFrom offset (c :: cs)) : offset + c.utf8Size ≤ s := by
  induction cs generalizing offset c with
  | nil =>
    rw [startsFrom] at h
    split at h
    · exact (eq_of_mem_singleton h).ge
    · cases h
  | cons d cs ih =>
    have hrest (h : s ∈ startsFrom (offset + c.utf8Size) (d :: cs)) : offset + c.utf8Size ≤ s :=
      (Nat.le_add_right _ _).trans (ih h)
    rw [startsFrom] at h
    split at h
    · exact (mem_cons.mp h).elim Eq.ge hrest
    · exact hrest h

theorem posFrom_of_lt (h : ∀ s ∈ ss, offset < s) :
    posFrom line start offset ss = ⟨line, offset - start + 1⟩ := by
  cases ss with
  | nil => rfl
  | cons s ss => exact if_neg (Nat.not_le.mpr (h s mem_cons_self))

/-- What the index says of a byte from some offset on is found by walking the bytes up to it. -/
theorem posFrom_startsFrom (line : Nat) (hstart : start ≤ offset) (h : o ≤ byteLength cs) :
    posFrom line start (offset + o) (startsFrom offset cs) =
      ((textBytes cs).take o).foldl Pos.step ⟨line, offset - start + 1⟩ := by
  induction cs generalizing line start offset o with
  | nil =>
    obtain rfl := Nat.le_zero.mp h
    rfl
  | cons c cs ih =>
    have hlength := length_utf8EncodeChar c
    have hcol (n : Nat) : offset + n - start + 1 = offset - start + 1 + n := by omega
    rw [textBytes, flatMap_cons, take_append, hlength]
    rcases Nat.lt_or_ge o c.utf8Size with ho | ho
    · -- before the end of the character there is no line feed
      have hfeed : lineFeed ∉ (utf8EncodeChar c).take o := by
        intro hmem
        obtain rfl := lineFeed_mem_utf8EncodeChar (mem_of_mem_take hmem)
        obtain rfl := Nat.lt_one_iff.mp ho
        cases hmem
      rw [posFrom_of_lt fun s hs => Nat.lt_of_lt_of_le (by omega) (le_of_mem_startsFrom hs),
        Nat.sub_eq_zero_of_le ho.le, take_zero, append_nil, Pos.foldl_step_of_notMem hfeed, length_take, hlength,
        Nat.min_eq_left ho.le, hcol]
    · obtain ⟨o, rfl⟩ := Nat.exists_eq_add_of_le ho
      have ho' : o ≤ byteLength cs := Nat.le_of_add_le_add_left h
      rw [Nat.add_sub_cancel_left, take_of_length_le (hlength.trans_le ho), foldl_append, Pos.foldl_step_char,
        ← Nat.add_assoc, startsFrom]
      split
      · rw [posFrom, if_pos (Nat.le_add_right _ _), ih _ (Nat.le_refl _) ho', Nat.sub_self, textBytes]
      · rw [ih _ (by omega) ho', hcol, textBytes]

theorem pos_eq_foldl (h : o ≤ byteLength cs) : (ofChars cs).pos o = ((textBytes cs).take o).foldl Pos.step .start := by
  have hpos := posFrom_startsFrom 1 (Nat.le_refl 0) h
  rwa [Nat.zero_add] at hpos

end LineIndex

end GameMedia.Shader
