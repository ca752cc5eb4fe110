import GameMedia.Proofs.Audio.CheckedLines

/-!
# Checked joint stereo

The sum and the difference of two channels, and bands with a direction, with checked accesses. Bands are taken one after
another from the first line on, and those that have no direction leave their lines as they are, so at each band the
lines below it have the shares that they are to have.
-/

namespace GameMedia.Audio

open List Bands Bands.Regular

/-! ## Accesses -/

def midSide? (stop : Nat) (mid side : Lines) : Option (Lines × Lines) :=
  if stop ≤ lineCount then some (midSide stop mid side) else none

/-- What the two channels have of a line with these shares of it. -/
def share (ratio : Option (Float32 × Float32)) (x y : Float32) : Float32 × Float32 :=
  match ratio with
  | some (l, r) => (x * l, x * r)
  | none => (x, y)

def shared (ratio : Nat → Option (Float32 × Float32)) (p : Lines × Lines) : Lines × Lines :=
  (Vector.ofFn fun i => (share (ratio i) (p.1.get i) (p.2.get i)).1,
    Vector.ofFn fun i => (share (ratio i) (p.1.get i) (p.2.get i)).2)

def direct? (start stop direction : Nat) (p : Lines × Lines) : Option (Lines × Lines) :=
  if start ≤ stop ∧ stop ≤ lineCount then
    some (shared (fun i => if start ≤ i ∧ i < stop then ratios? direction else none) p)
  else none

def directLong? (bands : Bands) (t : ScaleTables) (zeroFrom : Nat) : List Nat → Lines × Lines → Option (Lines × Lines)
  | [], p => some p
  | band :: rest, p => do
    let part ← longPart? bands band
    if zeroFrom ≤ part.1 then
      let direction ← t.longAt? band
      let p ← direct? part.1 part.2 direction p
      directLong? bands t zeroFrom rest p
    else directLong? bands t zeroFrom rest p

def directWindows? (t : ScaleTables) (band start width : Nat) : List Nat → Lines × Lines → Option (Lines × Lines)
  | [], p => some p
  | window :: rest, p => do
    let direction ← t.shortAt? band window
    let p ← direct? (start + window * width) (start + window * width + width) direction p
    directWindows? t band start width rest p

def directShort? (bands : Bands) (t : ScaleTables) (zeroFrom : Nat) : List Nat → Lines × Lines → Option (Lines × Lines)
  | [], p => some p
  | band :: rest, p => do
    let part ← shortPart? bands band
    if part.1 < zeroFrom then directShort? bands t zeroFrom rest p
    else
      let p ← directWindows? t band part.1 part.2 (List.range 3) p
      directShort? bands t zeroFrom rest p

def directedLong (g : GranuleInfo) : Nat := if g.isShort then if g.mixed then 8 else 0 else 21

def intensity? (g : GranuleInfo) (bands : Bands) (t : ScaleTables) (zeroFrom : Nat) (p : Lines × Lines) :
    Option (Lines × Lines) := do
  let p ← directLong? bands t zeroFrom (List.range (directedLong g)) p
  if g.isShort then directShort? bands t zeroFrom (List.range' (firstShort g) (12 - firstShort g)) p
  else return p

/-- The sum and the difference taken apart, if the channels are coded so. -/
def unmix? (h : Header) (stop : Nat) (left right : Lines) : Option (Lines × Lines) :=
  if h.usesMidSide then midSide? stop left right else some (left, right)

def unjoin? (h : Header) (bands : Bands) (g : GranuleInfo) (t : ScaleTables) (leftZero rightZero : Nat)
    (left right : Lines) : Option (Lines × Lines) := do
  let p ← unmix? h (max leftZero rightZero) left right
  if h.usesIntensity then intensity? g bands t rightZero p else return p

/-! ## Lines with shares -/

def below (ratio : Nat → Option (Float32 × Float32)) (line i : Nat) : Option (Float32 × Float32) :=
  if i < line then ratio i else none

section

variable {ratio : Nat → Option (Float32 × Float32)} {start stop : Nat}

theorem below_zero : below ratio 0 = fun _ => none := funext fun i => if_neg (Nat.not_lt_zero i)

theorem shared_none (p : Lines × Lines) : shared (fun _ => none) p = p :=
  Prod.ext (Vector.ext fun _ _ => Vector.getElem_ofFn _) (Vector.ext fun _ _ => Vector.getElem_ofFn _)

/-- Lines without shares can be left out. -/
theorem below_eq (hle : start ≤ stop) (h : ∀ i, start ≤ i → i < stop → ratio i = none) :
    below ratio start = below ratio stop := by
  funext i
  unfold below
  by_cases hstart : i < start
  · rw [if_pos hstart, if_pos (by omega)]
  · by_cases hstop : i < stop
    · rw [if_neg hstart, if_pos hstop, h i (by omega) hstop]
    · rw [if_neg hstart, if_neg hstop]

theorem direct?_shared (hle : start ≤ stop) (hstop : stop ≤ lineCount)
    (h : ∀ i, start ≤ i → i < stop → ratio i = ratios? direction) (p : Lines × Lines) :
    direct? start stop direction (shared (below ratio start) p) = some (shared (below ratio stop) p) := by
  have hshare : ∀ i x y,
      share (if start ≤ i ∧ i < stop then ratios? direction else none) (share (below ratio start i) x y).1
        (share (below ratio start i) x y).2 = share (below ratio stop i) x y := by
    intro i x y
    unfold below
    by_cases hbefore : i < start
    · rw [if_neg (by omega), if_pos hbefore, if_pos (by omega)]
      rfl
    · rw [if_neg hbefore]
      by_cases hin : i < stop
      · rw [if_pos ⟨by omega, hin⟩, if_pos hin, h i (by omega) hin]
        rfl
      · rw [if_neg (by omega), if_neg hin]
        rfl
  rw [direct?, if_pos ⟨hle, hstop⟩]
  refine congrArg some (Prod.ext (Vector.ext fun i hi => ?_) (Vector.ext fun i hi => ?_))
  · simp only [shared, Vector.getElem_ofFn, Vector.get_ofFn, hshare]
  · simp only [shared, Vector.getElem_ofFn, Vector.get_ofFn, hshare]

end

theorem intensity_eq (ratios : Array (Option (Float32 × Float32))) (left right : Lines) :
    intensity ratios left right = shared (below (ratios.getD · none) lineCount) (left, right) := by
  refine Prod.ext (Vector.ext fun i hi => ?_) (Vector.ext fun i hi => ?_)
  · simp only [intensity, shared, below, Vector.getElem_ofFn, if_pos hi]
    rcases ratios.getD i none with _ | ⟨l, r⟩ <;> rfl
  · simp only [intensity, shared, below, Vector.getElem_ofFn, if_pos hi]
    rcases ratios.getD i none with _ | ⟨l, r⟩ <;> rfl

/-! ## Bands with directions -/

section

variable {g : GranuleInfo} {bands : Bands} [bands.Regular] {zeroFrom band line count : Nat}

theorem ratio_long (h : InLong g bands band line) :
    (lineRatios g bands s zeroFrom).getD line none =
      if band < 21 ∧ zeroFrom ≤ bands.longStart band then ratios? (s.longAt band) else none :=
  spread_long _ _ none h

theorem ratio_short (h : InShort g bands band window line) :
    (lineRatios g bands s zeroFrom).getD line none =
      if band < 12 ∧ zeroFrom ≤ bands.shortStart band then ratios? (s.shortAt band window) else none :=
  spread_short _ _ none h

theorem exists_inShort (hshort : g.isShort = true) (hfirst : firstShort g ≤ band) (hband : band < 13)
    (hstart : bands.shortStart band ≤ line) (hstop : line < bands.shortStart (band + 1)) :
    ∃ window, InShort g bands band window line := by
  have hnext := shortStart_succ (b := bands) hband
  by_cases hzero : line < bands.shortStart band + bands.shortWidth band
  · exact ⟨0, hshort, hfirst, hband, by decide, by omega, by omega⟩
  · by_cases hone : line < bands.shortStart band + 2 * bands.shortWidth band
    · exact ⟨1, hshort, hfirst, hband, by decide, by omega, by omega⟩
    · exact ⟨2, hshort, hfirst, hband, by decide, by omega, by omega⟩

theorem directLong?_eq (bands : Bands) [bands.Regular] (s : Scalefactors) (zeroFrom : Nat)
    (hlast : first + count ≤ 21) (hcount : first + count ≤ longBands g) (p : Lines × Lines) :
    directLong? bands s.tables zeroFrom (range' first count)
        (shared (below ((lineRatios g bands s zeroFrom).getD · none) (bands.longStart first)) p) =
      some (shared (below ((lineRatios g bands s zeroFrom).getD · none)
        (bands.longStart (first + count))) p) := by
  induction count generalizing first with
  | zero => rfl
  | succ count ih =>
    have hlt := longStart_lt (b := bands) (by omega : first < 22)
    have hend := longStart_le (b := bands) (by omega : first + 1 ≤ 22) (Nat.le_refl _)
    rw [longStart_end] at hend
    have hrest := @ih (first + 1) (by omega) (by omega)
    rw [Nat.add_right_comm, Nat.add_assoc] at hrest
    rw [range'_succ, directLong?, longPart?_eq (by omega), some_bind]
    dsimp only
    by_cases hzero : zeroFrom ≤ bands.longStart first
    · rw [if_pos hzero, ScaleTables.longAt?_eq s (by omega), some_bind, direct?_shared hlt.le hend, some_bind, hrest]
      intro i hstart hstop
      rw [ratio_long ⟨by omega, hstart, hstop⟩, if_pos ⟨by omega, hzero⟩]
    · rw [if_neg hzero, below_eq hlt.le, hrest]
      intro i hstart hstop
      rw [ratio_long ⟨by omega, hstart, hstop⟩, if_neg fun h => hzero h.2]

theorem directWindows?_eq (hshort : g.isShort = true) (hfirst : firstShort g ≤ band) (hband : band < 12)
    (hzero : zeroFrom ≤ bands.shortStart band) (hcount : window + count ≤ 3)
    (p : Lines × Lines) :
    directWindows? s.tables band (bands.shortStart band) (bands.shortWidth band)
        (range' window count) (shared (below ((lineRatios g bands s zeroFrom).getD · none)
          (bands.shortStart band + window * bands.shortWidth band)) p) =
      some (shared (below ((lineRatios g bands s zeroFrom).getD · none)
        (bands.shortStart band + (window + count) * bands.shortWidth band)) p) := by
  induction count generalizing window with
  | zero => rfl
  | succ count ih =>
    have hnext := shortStart_succ (b := bands) (by omega : band < 13)
    have hend := shortStart_le (b := bands) (by omega : band + 1 ≤ 13) (Nat.le_refl _)
    rw [shortStart_end] at hend
    have hle := Nat.mul_le_mul_right (bands.shortWidth band) (by omega : window ≤ 2)
    have hrest := @ih (window + 1) (by omega)
    rw [Nat.succ_mul, ← Nat.add_assoc, Nat.add_right_comm window, Nat.add_assoc window] at hrest
    rw [range'_succ, directWindows?, ScaleTables.shortAt?_eq s (by omega) (by omega), some_bind,
      direct?_shared (Nat.le_add_right _ _) (by omega), some_bind, hrest]
    intro i hstart hstop
    rw [ratio_short ⟨hshort, hfirst, by omega, by omega, hstart, hstop⟩, if_pos ⟨hband, hzero⟩]

theorem directShort?_eq (hshort : g.isShort = true) (hfirst : firstShort g ≤ first)
    (hcount : first + count ≤ 12) (p : Lines × Lines) :
    directShort? bands s.tables zeroFrom (range' first count)
        (shared (below ((lineRatios g bands s zeroFrom).getD · none) (bands.shortStart first)) p) =
      some (shared (below ((lineRatios g bands s zeroFrom).getD · none)
        (bands.shortStart (first + count))) p) := by
  induction count generalizing first with
  | zero => rfl
  | succ count ih =>
    have hnext := shortStart_succ (b := bands) (by omega : first < 13)
    have hrest := @ih (first + 1) (by omega) (by omega)
    rw [Nat.add_right_comm, Nat.add_assoc] at hrest
    rw [range'_succ, directShort?, shortPart?_eq (by omega), some_bind]
    dsimp only
    by_cases hzero : bands.shortStart first < zeroFrom
    · have hle : bands.shortStart first ≤ bands.shortStart (first + 1) := by omega
      rw [if_pos hzero, below_eq hle, hrest]
      intro i hstart hstop
      obtain ⟨window, hin⟩ := exists_inShort hshort hfirst (by omega) hstart hstop
      rw [ratio_short hin, if_neg (by omega)]
    · have hwindows := directWindows?_eq (s := s) hshort hfirst (by omega) (Nat.le_of_not_lt hzero)
        (Nat.le_refl (0 + 3)) p
      rw [Nat.zero_mul, Nat.add_zero, Nat.zero_add, ← hnext, ← range_eq_range'] at hwindows
      rw [if_neg hzero, hwindows, some_bind, hrest]

/-- **Directions are applied within their tables.** -/
theorem intensity?_eq (left right : Lines) :
    intensity? g bands s.tables zeroFrom (left, right) =
      some (intensity (lineRatios g bands s zeroFrom) left right) := by
  have hdirected : directedLong g ≤ 21 ∧ directedLong g ≤ longBands g := by
    unfold directedLong longBands
    split
    · split <;> decide
    · decide
  have hlong := directLong?_eq bands s zeroFrom (by omega : 0 + directedLong g ≤ 21) (by omega : _ ≤ longBands g)
    (left, right)
  rw [longStart_zero, below_zero, shared_none, ← range_eq_range', Nat.zero_add] at hlong
  rw [intensity?, hlong, some_bind, intensity_eq]
  by_cases hshort : g.isShort = true
  · have hfirst : firstShort g ≤ 12 := by
      unfold firstShort
      split <;> decide
    -- short bands begin where the long ones end
    have hmeet : bands.longStart (directedLong g) = bands.shortStart (firstShort g) := by
      unfold directedLong firstShort
      rw [if_pos hshort]
      split
      · rw [longStart_mixed, shortStart_mixed]
      · rw [longStart_zero, shortStart_zero]
    have hlast := shortStart_le (b := bands) (by decide : 12 ≤ 13) (Nat.le_refl _)
    rw [shortStart_end] at hlast
    rw [if_pos hshort, hmeet, directShort?_eq hshort (Nat.le_refl _) (by omega), Nat.add_sub_cancel' hfirst,
      below_eq hlast]
    intro i hstart hstop
    rw [← shortStart_end (b := bands)] at hstop
    obtain ⟨window, hin⟩ := exists_inShort hshort hfirst (by decide) hstart hstop
    rw [ratio_short hin, if_neg fun h => Nat.lt_irrefl _ h.1]
  · have hcount : directedLong g = 21 := if_neg hshort
    have hbands : longBands g = 22 := if_neg hshort
    have hlast := (longStart_lt (b := bands) (by decide : 21 < 22)).le
    rw [longStart_end] at hlast
    rw [if_neg hshort, hcount, below_eq hlast]
    · rfl
    · intro i hstart hstop
      rw [← longStart_end (b := bands)] at hstop
      rw [ratio_long ⟨by omega, hstart, hstop⟩, if_neg fun h => Nat.lt_irrefl _ h.1]

/-- **Joint stereo stays within its tables.** -/
theorem unjoin?_eq (h : Header) (hleft : leftZero ≤ lineCount)
    (hright : rightZero ≤ lineCount) (left right : Lines) :
    unjoin? h bands g s.tables leftZero rightZero left right =
      some (unjoin h bands g s leftZero rightZero left right) := by
  have hunmix : unmix? h (max leftZero rightZero) left right =
      some (if h.usesMidSide then midSide (max leftZero rightZero) left right else (left, right)) := by
    unfold unmix?
    split
    · exact if_pos (Nat.max_le.mpr ⟨hleft, hright⟩)
    · rfl
  rw [unjoin?, hunmix, some_bind, unjoin]
  generalize (if h.usesMidSide then midSide (max leftZero rightZero) left right else (left, right)) = p
  obtain ⟨l, r⟩ := p
  dsimp only
  split
  · exact intensity?_eq l r
  · rfl

end

end GameMedia.Audio
