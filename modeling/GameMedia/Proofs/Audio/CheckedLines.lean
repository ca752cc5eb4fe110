import GameMedia.Proofs.Audio.CheckedSpectrum

/-!
# Checked frequency lines

Requantization and the order of short blocks with checked accesses. Their loops move a line and a band together, and
whether the two still belong together depends on the tables of bands: a line between the starts of a band and of the
next, a short band that begins where the one before it ended.
-/

namespace GameMedia.Audio

open List hiding Vector
open Option Nat

variable {band width : Nat}

/-! ## Bands -/

namespace Bands

open Regular

variable {b : Bands} [b.Regular] {band : Nat}

theorem short_eq (h : band < 14) : b.short[band]? = some (b.short.getD band 192) :=
  array_getElem? (h.trans_eq size_short.symm) _

theorem longStart_le (hij : i ≤ j) (hj : j ≤ 22) : b.longStart i ≤ b.longStart j := by
  induction j, hij using le_induction with
  | base => exact Nat.le_refl _
  | succ j _ ih => exact (ih (by omega)).trans (longStart_lt (by omega)).le

theorem shortStart_succ (h : band < 13) :
    b.shortStart (band + 1) = b.shortStart band + 3 * b.shortWidth band := by
  have hle := short_le (b := b) h
  simp only [shortStart, shortWidth]
  omega

theorem shortStart_le (hij : i ≤ j) (hj : j ≤ 13) : b.shortStart i ≤ b.shortStart j := by
  induction j, hij using le_induction with
  | base => exact Nat.le_refl _
  | succ j _ ih =>
    rw [shortStart_succ (by omega)]
    exact (ih (by omega)).trans (Nat.le_add_right _ _)

end Bands

open Bands Bands.Regular

def longPart? (bands : Bands) (band : Nat) : Option (Nat × Nat) := do
  let start ← bands.long[band]?
  let stop ← bands.long[band + 1]?
  return (start, stop)

def shortPart? (bands : Bands) (band : Nat) : Option (Nat × Nat) := do
  let start ← bands.short[band]?
  let stop ← bands.short[band + 1]?
  let width ← minus? stop start
  return (3 * start, width)

theorem longPart?_eq {bands : Bands} [bands.Regular] (h : band < 22) :
    longPart? bands band = some (bands.longStart band, bands.longStart (band + 1)) := by
  rw [longPart?, long_eq (by omega), long_eq (by omega)]
  rfl

theorem shortPart?_eq {bands : Bands} [bands.Regular] (h : band < 13) :
    shortPart? bands band = some (bands.shortStart band, bands.shortWidth band) := by
  rw [shortPart?, short_eq (by omega), short_eq (by omega), some_bind,
    some_bind, minus?_eq (short_le h)]
  rfl

/-! ## Bands by line -/

def longBands (g : GranuleInfo) : Nat := if g.isShort then if g.mixed then 8 else 0 else 22

def firstShort (g : GranuleInfo) : Nat := if g.mixed then 3 else 0

structure InLong (g : GranuleInfo) (bands : Bands) (band line : Nat) : Prop where
  band_lt : band < longBands g
  start : bands.longStart band ≤ line
  stop : line < bands.longStart (band + 1)

structure InShort (g : GranuleInfo) (bands : Bands) (band window line : Nat) : Prop where
  isShort : g.isShort = true
  first : firstShort g ≤ band
  band_lt : band < 13
  window_lt : window < 3
  start : bands.shortStart band + window * bands.shortWidth band ≤ line
  stop : line < bands.shortStart band + window * bands.shortWidth band + bands.shortWidth band

section

variable {g : GranuleInfo} {bands : Bands} [bands.Regular] {band window line count : Nat}

theorem longBands_le : longBands g ≤ 22 := by
  unfold longBands
  split
  · split <;> decide
  · exact Nat.le_refl _

theorem InLong.lt (h : InLong g bands band line) : line < lineCount := by
  have hband := h.band_lt
  have hle := longBands_le (g := g)
  have hend := longStart_le (b := bands) (by omega : band + 1 ≤ 22) (Nat.le_refl _)
  rw [longStart_end] at hend
  exact h.stop.trans_le hend

theorem InShort.lt (h : InShort g bands band window line) : line < lineCount := by
  have hband := h.band_lt
  have hnext := shortStart_succ (b := bands) hband
  have hend := shortStart_le (b := bands) (by omega : band + 1 ≤ 13) (Nat.le_refl _)
  rw [shortStart_end] at hend
  have hwindow : window * bands.shortWidth band ≤ 2 * bands.shortWidth band :=
    Nat.mul_le_mul_right _ (le_of_lt_succ h.window_lt)
  have hstop := h.stop
  omega

omit [bands.Regular] in
theorem spreadLong_succ (value : Nat → α) (count : Nat) : spreadLong bands value (count + 1) =
    spreadLong bands value count ++
      replicate (bands.longStart (count + 1) - bands.longStart count) (value count) := by
  rw [spreadLong, range_succ, flatMap_append, flatMap_singleton]
  rfl

theorem length_spreadLong (bands : Bands) [bands.Regular] (value : Nat → α) (h : count ≤ 22) :
    (spreadLong bands value count).length = bands.longStart count := by
  induction count with
  | zero => rw [longStart_zero]; rfl
  | succ count ih =>
    have hlt := longStart_lt (b := bands) (by omega : count < 22)
    rw [spreadLong_succ, length_append, ih (by omega), length_replicate]
    omega

theorem getElem?_spreadLong (value : Nat → α) (hcount : count ≤ 22) (hband : band < count)
    (hstart : bands.longStart band ≤ line) (hstop : line < bands.longStart (band + 1)) :
    (spreadLong bands value count)[line]? = some (value band) := by
  induction count with
  | zero => omega
  | succ count ih =>
    have hlength := length_spreadLong bands value (by omega : count ≤ 22)
    rw [spreadLong_succ]
    rcases Nat.lt_succ_iff_lt_or_eq.mp hband with hlt | rfl
    · have hle := longStart_le (b := bands) (by omega : band + 1 ≤ count) (by omega)
      rw [List.getElem?_append_left (by omega)]
      exact ih (by omega) hlt
    · rw [List.getElem?_append_right (by omega), List.getElem?_replicate, if_pos (by omega)]

theorem getElem?_windows (value : Nat → α) (hwindow : window < 3) (hj : j < width) :
    ((range 3).flatMap fun w => replicate width (value w))[window * width + j]? = some (value window) := by
  have hparts : ((range 3).flatMap fun w => replicate width (value w)) =
      replicate width (value 0) ++ (replicate width (value 1) ++ replicate width (value 2)) := by
    simp [range_succ]
  rw [hparts]
  have hlength : ∀ w, (replicate width (value w)).length = width := fun _ => length_replicate
  obtain rfl | rfl | rfl : window = 0 ∨ window = 1 ∨ window = 2 := by omega
  · rw [List.getElem?_append_left (by rw [hlength]; omega), List.getElem?_replicate, if_pos (by omega)]
  · rw [List.getElem?_append_right (by rw [hlength]; omega), hlength, List.getElem?_append_left (by rw [hlength]; omega),
      List.getElem?_replicate, if_pos (by omega)]
  · rw [List.getElem?_append_right (by rw [hlength]; omega), hlength,
      List.getElem?_append_right (by rw [hlength]; omega),
      hlength, List.getElem?_replicate, if_pos (by omega)]

theorem length_windows (value : Nat → α) (width : Nat) :
    ((range 3).flatMap fun w => replicate width (value w)).length = 3 * width := by
  simp [range_succ]
  omega

theorem getElem?_spreadShort (value : Nat → Nat → α) (hfirst : first ≤ band) (hband : band < 13)
    (hwindow : window < 3) (hj : j < bands.shortWidth band) :
    (spreadShort bands value first)[bands.shortStart band - bands.shortStart first +
      (window * bands.shortWidth band + j)]? = some (value band window) := by
  have hcount : 13 - first = 12 - first + 1 := by omega
  rw [spreadShort, hcount, range'_succ, flatMap_cons]
  induction hskip : band - first generalizing first with
  | zero =>
    obtain rfl : first = band := by omega
    have hle := Nat.mul_le_mul_right (bands.shortWidth first) (le_of_lt_succ hwindow)
    rw [Nat.sub_self, Nat.zero_add, List.getElem?_append_left (by rw [length_windows]; omega)]
    exact getElem?_windows (value first) hwindow hj
  | succ skip ih =>
    have hnext := shortStart_succ (b := bands) (by omega : first < 13)
    have hle := shortStart_le (b := bands) (by omega : first + 1 ≤ band) (by omega)
    have hrest : 12 - first = 12 - (first + 1) + 1 := by omega
    rw [List.getElem?_append_right (by rw [length_windows]; omega), length_windows, hrest, range'_succ,
      flatMap_cons, ← @ih (first + 1) (by omega) (by omega) (by omega)]
    congr 1
    omega

/-- **A line of a long band has the value of its band.** -/
theorem spread_long (long : Nat → α) (short : Nat → Nat → α) (d : α) (h : InLong g bands band line) :
    (spread g bands long short).toArray.getD line d = long band := by
  have hfound : (spread g bands long short)[line]? = some (long band) := by
    have hband := h.band_lt
    unfold longBands at hband
    unfold spread
    cases hshort : g.isShort
    · rw [hshort] at hband
      exact getElem?_spreadLong long (Nat.le_refl _) hband h.start h.stop
    · cases hmixed : g.mixed
      · rw [hshort, hmixed] at hband
        exact absurd hband (Nat.not_lt_zero _)
      · rw [hshort, hmixed] at hband
        have hlast := longStart_le (b := bands) (succ_le_of_lt hband) (by decide)
        have hlt : line < (spreadLong bands long 8).length := by
          rw [length_spreadLong bands long (by decide)]
          exact h.stop.trans_le hlast
        exact (List.getElem?_append_left hlt).trans (getElem?_spreadLong long (by decide) hband h.start h.stop)
  rw [Array.getD_eq_getD_getElem?, List.getElem?_toArray, hfound, getD_some]

/-- **A line of a short band has the value of its band and window.** -/
theorem spread_short (long : Nat → α) (short : Nat → Nat → α) (d : α) (h : InShort g bands band window line) :
    (spread g bands long short).toArray.getD line d = short band window := by
  have hstart := h.start
  have hstop := h.stop
  have hfirst := h.first
  have hj : line - (bands.shortStart band + window * bands.shortWidth band) <
      bands.shortWidth band := by omega
  have hfound : (spread g bands long short)[line]? = some (short band window) := by
    have hspread := getElem?_spreadShort short hfirst h.band_lt h.window_lt hj
    have hle := shortStart_le (b := bands) hfirst h.band_lt.le
    unfold firstShort at hspread hle
    unfold spread
    rw [h.isShort]
    cases hmixed : g.mixed
    · rw [hmixed] at hspread
      refine Eq.trans ?_ hspread
      change (spreadShort bands short 0)[line]? = (spreadShort bands short 0)[_]?
      congr 1
      rw [if_neg Bool.false_ne_true, shortStart_zero]
      omega
    · rw [hmixed, if_pos rfl, shortStart_mixed] at hle
      rw [hmixed, if_pos rfl, shortStart_mixed] at hspread
      have hlength := length_spreadLong bands long (by decide : 8 ≤ 22)
      rw [longStart_mixed] at hlength
      refine (List.getElem?_append_right (by omega)).trans (Eq.trans ?_ hspread)
      congr 1
      omega
  rw [Array.getD_eq_getD_getElem?, List.getElem?_toArray, hfound, getD_some]

end

/-! ## Requantization -/

def lineValue (gain : Int) (x : Int) : Float32 := if x = 0 then 0 else quarterPower gain * power43 x

def power43? (x : Int) : Option Float32 := do
  let size ← powerTable[min x.natAbs maxMagnitude]?
  return if x < 0 then -size else size

def added? (g : GranuleInfo) (band : Nat) : Option Nat := if g.preflag then preemphasis[band]? else some 0

def longLine? (g : GranuleInfo) (t : ScaleTables) (band : Nat) (x : Int) : Option Float32 := do
  let added ← added? g band
  let scale ← t.longAt? band
  let power ← power43? x
  return if x = 0 then 0 else quarterPower (baseGain g - scaleStep g * ((scale + added : Nat) : Int)) * power

def shortLine? (g : GranuleInfo) (t : ScaleTables) (band window : Nat) (x : Int) : Option Float32 := do
  let gain ← g.subblockGains[window]?
  let scale ← t.shortAt? band window
  let power ← power43? x
  return if x = 0 then 0 else quarterPower (baseGain g - 8 * (gain : Int) - scaleStep g * (scale : Int)) * power

/-- Long bands from a line up to `stop`. The band changes where the next one begins. -/
def longLines? (g : GranuleInfo) (bands : Bands) (t : ScaleTables) (v : Vector Int lineCount) (stop line band : Nat)
    (out : Lines) : Option Lines := do
  if line < stop then
    let next ← bands.long[band + 1]?
    let band := if line = next then band + 1 else band
    let x ← v[line]?
    let value ← longLine? g t band x
    let out ← write? out line value
    longLines? g bands t v stop (line + 1) band out
  else return out
termination_by stop - line

def windowLines? (g : GranuleInfo) (t : ScaleTables) (v : Vector Int lineCount) (band window : Nat) :
    Nat → Nat → Lines → Option Lines
  | 0, _, out => some out
  | n + 1, line, out => do
    let x ← v[line]?
    let value ← shortLine? g t band window x
    let out ← write? out line value
    windowLines? g t v band window n (line + 1) out

/-- Short bands as long as a band begins below `stop`. A band that does not begin at the line gives nothing. -/
def shortLines? (g : GranuleInfo) (bands : Bands) (t : ScaleTables) (v : Vector Int lineCount) (stop line band : Nat)
    (out : Lines) : Option Lines := do
  if line < stop ∧ band < 13 then
    let part ← shortPart? bands band
    if line = part.1 then
      let out ← windowLines? g t v band 0 part.2 line out
      let out ← windowLines? g t v band 1 part.2 (line + part.2) out
      let out ← windowLines? g t v band 2 part.2 (line + 2 * part.2) out
      shortLines? g bands t v stop (line + 3 * part.2) (band + 1) out
    else none
  else return out
termination_by 13 - band

def requantize? (g : GranuleInfo) (bands : Bands) (c : CheckedChannel) : Option Lines := do
  let out : Lines := Vector.replicate lineCount 0
  if g.isShort then
    if g.mixed then
      let out ← longLines? g bands c.scale c.lines 36 0 0 out
      shortLines? g bands c.scale c.lines c.zeroFrom 36 3 out
    else shortLines? g bands c.scale c.lines c.zeroFrom 0 0 out
  else longLines? g bands c.scale c.lines c.zeroFrom 0 0 out

def scaled (gains : Array Int) (v : Vector Int lineCount) (line : Nat) : Lines :=
  Vector.ofFn fun i => if i.val < line then lineValue (gains.getD i 0) (v.get i) else 0

theorem power43?_eq (x : Int) : power43? x = some (power43 x) := by
  have hlt : min x.natAbs maxMagnitude < powerTable.size := by
    rw [powerTable, Array.size_map, Array.size_range]
    omega
  obtain ⟨size, hsize⟩ : ∃ size, powerTable[min x.natAbs maxMagnitude]? = some size := ⟨_, Array.getElem?_eq_getElem hlt⟩
  rw [power43?, power43, Array.getD_eq_getD_getElem?, hsize]
  rfl

theorem longLine?_eq (g : GranuleInfo) (s : Scalefactors) (h : band < 22) (x : Int) :
    longLine? g s.tables band x = some (lineValue (longGain g s band) x) := by
  have hadded : added? g band = some (if g.preflag then preemphasis.getD band 0 else 0) := by
    unfold added?
    split
    · rw [Array.getD_eq_getD_getElem?, Array.getElem?_eq_getElem h, getD_some]
    · rfl
  rw [longLine?, hadded, ScaleTables.longAt?_eq s h, power43?_eq]
  rfl

theorem shortLine?_eq (hg : g.Valid) (s : Scalefactors) (hband : band < 13) (hwindow : window < 3) (x : Int) :
    shortLine? g s.tables band window x = some (lineValue (shortGain g s band window) x) := by
  have hgain : g.subblockGains[window]? = some (g.subblockGains.getD window 0) := by
    have hlt : window < g.subblockGains.length := hg.gains ▸ hwindow
    rw [getD_eq_getElem _ _ hlt, List.getElem?_eq_getElem hlt]
  rw [shortLine?, hgain, ScaleTables.shortAt?_eq s hband hwindow, power43?_eq]
  rfl

theorem scaled_zero (gains : Array Int) (v : Vector Int lineCount) :
    scaled gains v 0 = Vector.replicate lineCount 0 := by
  refine Vector.ext fun i hi => ?_
  rw [scaled, Vector.getElem_ofFn, Vector.getElem_replicate]
  exact if_neg (Nat.not_lt_zero _)

theorem write?_scaled (gains : Array Int) (v : Vector Int lineCount) (h : line < lineCount) :
    write? (scaled gains v line) line (lineValue (gains.getD line 0) (v.get ⟨line, h⟩)) =
      some (scaled gains v (line + 1)) := by
  rw [write?_eq h]
  refine congrArg some (Vector.ext fun i hi => ?_)
  rw [Vector.getElem_set, scaled, scaled, Vector.getElem_ofFn, Vector.getElem_ofFn]
  by_cases hline : line = i
  · subst hline
    rw [if_pos rfl, if_pos (lt_succ_self _)]
  · rw [if_neg hline]
    by_cases hlt : i < line
    · rw [if_pos hlt, if_pos (lt_succ_of_lt hlt)]
    · rw [if_neg hlt, if_neg (by change ¬ i < line + 1; omega)]

section

variable {g : GranuleInfo} {bands : Bands} [bands.Regular] {v : Vector Int lineCount} {band line : Nat}
  {c : CodedChannel}

theorem gain_long (h : InLong g bands band line) :
    (lineGains g bands s).getD line 0 = longGain g s band := spread_long _ _ 0 h

theorem gain_short (h : InShort g bands band window line) :
    (lineGains g bands s).getD line 0 = shortGain g s band window := spread_short _ _ 0 h

/-- **Long bands are scaled within their tables**: the band of a line is the one that the loop has come to. -/
theorem longLines?_eq (hband : band < longBands g) (hstart : bands.longStart band ≤ line)
    (hnext : line ≤ bands.longStart (band + 1)) (hline : line ≤ stop)
    (hstop : stop ≤ bands.longStart (longBands g)) :
    longLines? g bands s.tables v stop line band (scaled (lineGains g bands s) v line) =
      some (scaled (lineGains g bands s) v stop) := by
  have hcount := longBands_le (g := g)
  induction hleft : stop - line generalizing line band with
  | zero =>
    obtain rfl : line = stop := by omega
    rw [longLines?, if_neg (Nat.lt_irrefl _)]
    rfl
  | succ left ih =>
    have hlt : line < stop := by omega
    -- the band of the line, which is the next one where that begins here
    obtain ⟨b, hb, hin⟩ : ∃ b, (if line = bands.longStart (band + 1) then band + 1 else band) = b ∧
        InLong g bands b line := by
      by_cases heq : line = bands.longStart (band + 1)
      · have hmore : band + 1 < longBands g := by
          rcases Nat.lt_or_ge (band + 1) (longBands g) with h | h
          · exact h
          · have hlast : band + 1 = longBands g := by omega
            rw [hlast] at heq
            omega
        exact ⟨band + 1, if_pos heq, hmore, heq.ge, heq ▸ longStart_lt (by omega)⟩
      · exact ⟨band, if_neg heq, hband, hstart, by omega⟩
    have hvalue := longLine?_eq g s (hin.band_lt.trans_le hcount) (v.get ⟨line, hin.lt⟩)
    rw [← gain_long hin] at hvalue
    rw [longLines?, if_pos hlt, long_eq (by omega), some_bind, hb,
      Vector.getElem?_eq_getElem hin.lt]
    change (longLine? g s.tables b (v.get ⟨line, hin.lt⟩) >>= _) = _
    rw [hvalue, some_bind, write?_scaled, some_bind]
    exact ih hin.band_lt (hin.start.trans (le_succ _)) hin.stop (by omega) (by omega)

/-- The lines of a window are scaled within their tables. -/
theorem windowLines?_eq (hg : g.Valid) {window count : Nat}
    (h : ∀ j < count, InShort g bands band window (line + j)) :
    windowLines? g s.tables v band window count line (scaled (lineGains g bands s) v line) =
      some (scaled (lineGains g bands s) v (line + count)) := by
  induction count generalizing line with
  | zero => rfl
  | succ count ih =>
    have hin : InShort g bands band window line := h 0 (succ_pos _)
    have hvalue := shortLine?_eq hg s hin.band_lt hin.window_lt (v.get ⟨line, hin.lt⟩)
    rw [← gain_short hin] at hvalue
    rw [windowLines?, Vector.getElem?_eq_getElem hin.lt]
    change (shortLine? g s.tables band window (v.get ⟨line, hin.lt⟩) >>= _) = _
    rw [hvalue, some_bind, write?_scaled, some_bind, Nat.add_comm count 1, ← Nat.add_assoc]
    refine ih fun j hj => ?_
    have hj' := h (j + 1) (by omega)
    rw [Nat.add_comm j 1, ← Nat.add_assoc] at hj'
    exact hj'

/-- **Short bands are scaled within their tables**: each begins at the line where the one before it ended. -/
theorem shortLines?_eq (hg : g.Valid) (hshort : g.isShort = true) (hfirst : firstShort g ≤ band)
    (hband : band ≤ 13) (hline : line = bands.shortStart band) (hstop : stop ≤ lineCount) :
    ∃ last, stop ≤ last ∧
      shortLines? g bands s.tables v stop line band (scaled (lineGains g bands s) v line) =
        some (scaled (lineGains g bands s) v last) := by
  induction hleft : 13 - band generalizing line band with
  | zero =>
    obtain rfl : band = 13 := by omega
    rw [shortLines?, if_neg (by omega)]
    rw [shortStart_end] at hline
    exact ⟨line, hline ▸ hstop, rfl⟩
  | succ left ih =>
    have hlt : band < 13 := by omega
    by_cases hmore : line < stop
    · have hwindow : ∀ {w}, w < 3 → ∀ j < bands.shortWidth band,
          InShort g bands band w (line + w * bands.shortWidth band + j) := by
        intro w hw j hj
        exact ⟨hshort, hfirst, hlt, hw, by omega, by omega⟩
      have hzero := windowLines?_eq (s := s) (v := v) hg (hwindow (by decide : 0 < 3))
      have hone := windowLines?_eq (s := s) (v := v) hg (hwindow (by decide : 1 < 3))
      have htwo := windowLines?_eq (s := s) (v := v) hg (hwindow (by decide : 2 < 3))
      have hnext := shortStart_succ (b := bands) hlt
      rw [Nat.zero_mul, Nat.add_zero] at hzero
      rw [Nat.one_mul] at hone
      have htotal : ∀ w : Nat, line + w + w = line + 2 * w := by
        intro w
        omega
      have hthree : ∀ w : Nat, line + 2 * w + w = line + 3 * w := by
        intro w
        omega
      rw [htotal] at hone
      rw [hthree] at htwo
      rw [shortLines?, if_pos ⟨hmore, hlt⟩, shortPart?_eq hlt, some_bind, if_pos hline]
      dsimp only
      rw [hzero, some_bind, hone, some_bind, htwo, some_bind]
      exact ih (by omega) (by omega) (by omega) (by omega)
    · rw [shortLines?, if_neg (by omega)]
      exact ⟨line, by omega, rfl⟩

omit [bands.Regular] in
/-- All lines below the zeros, with zeros behind them, are all lines. -/
theorem scaled_eq (hc : c.Fits) (hlast : c.zeroFrom ≤ last) :
    scaled (lineGains g bands c.scale) (padded c.lines) last = requantize g bands c := by
  refine Vector.ext fun i hi => ?_
  rw [scaled, requantize, Vector.getElem_ofFn, Vector.getElem_ofFn, padded, Vector.get_ofFn]
  by_cases hlt : i < last
  · rw [if_pos hlt]
    rfl
  · have hpast : c.lines.size ≤ i := hc.lines.trans (hlast.trans (Nat.le_of_not_lt hlt))
    have hzero : c.lines.getD i 0 = 0 := by
      rw [Array.getD_eq_getD_getElem?, Array.getElem?_eq_none hpast, getD_none]
    rw [if_neg hlt]
    exact (if_pos hzero).symm

/-- **Requantization stays within its tables.** -/
theorem requantize?_eq (hg : g.Valid) (hc : c.Fits) :
    requantize? g bands c.checked = some (requantize g bands c) := by
  have hzero := scaled_zero (lineGains g bands c.scale) (padded c.lines)
  unfold requantize? CodedChannel.checked
  dsimp only
  rw [← hzero]
  by_cases hshort : g.isShort = true
  · rw [if_pos hshort]
    by_cases hmixed : g.mixed = true
    · have hcount : longBands g = 8 := by rw [longBands, if_pos hshort, if_pos hmixed]
      have hfirst : firstShort g = 3 := if_pos hmixed
      have hlong := longLines?_eq (g := g) (s := c.scale) (v := padded c.lines) (by omega : 0 < longBands g)
        (longStart_zero (b := bands)).le (Nat.zero_le _) (Nat.zero_le 36)
        (by rw [hcount, longStart_mixed])
      obtain ⟨last, hlast, hrest⟩ := shortLines?_eq (s := c.scale) (v := padded c.lines) hg hshort hfirst.le (by decide)
        (shortStart_mixed (b := bands)).symm hc.zeroFrom
      rw [if_pos hmixed, hlong, some_bind, hrest, scaled_eq hc hlast]
    · have hfirst : firstShort g = 0 := if_neg hmixed
      obtain ⟨last, hlast, hrest⟩ := shortLines?_eq (s := c.scale) (v := padded c.lines) hg hshort hfirst.le (by decide)
        (shortStart_zero (b := bands)).symm hc.zeroFrom
      rw [if_neg hmixed, hrest, scaled_eq hc hlast]
  · have hcount : longBands g = 22 := if_neg hshort
    have hlong := longLines?_eq (g := g) (s := c.scale) (v := padded c.lines) (by omega : 0 < longBands g)
      (longStart_zero (b := bands)).le (Nat.zero_le _) (Nat.zero_le c.zeroFrom)
      (by rw [hcount, longStart_end]; exact hc.zeroFrom)
    rw [if_neg hshort, hlong, scaled_eq hc (Nat.le_refl _)]

end

/-! ## Short windows -/

/-- The windows of a short band and the lines of each. -/
def windowPlaces (width : Nat) : List (Nat × Nat) :=
  (List.range 3).flatMap fun w => (List.range width).map fun j => (w, j)

/-- A table that begins with the lines of a short band in order of frequency. -/
def gather? (lines : Lines) (start width : Nat) : Option Lines := do
  let ws ← (windowPlaces width).mapM fun p => do
    let x ← lines[start + p.1 * width + p.2]?
    return (3 * p.2 + p.1, x)
  writes? (Vector.replicate lineCount 0) ws

def reorderBand? (bands : Bands) (lines : Lines) (band : Nat) : Option Lines := do
  let part ← shortPart? bands band
  let scratch ← gather? lines part.1 part.2
  let ordered ← slice? scratch.toArray 0 (3 * part.2)
  writes? lines ((List.range' part.1 (3 * part.2)).zip ordered.toList)

/-- Reorders bands up to one that begins above the lines that are not zero. The first band is not asked. -/
def reorderBands? (bands : Bands) (zeroFrom first : Nat) : List Nat → Lines → Option Lines
  | [], lines => some lines
  | band :: rest, lines => do
    let part ← shortPart? bands band
    if zeroFrom ≤ part.1 ∧ first < band then return lines
    else
      let lines ← reorderBand? bands lines band
      reorderBands? bands zeroFrom first rest lines

def reorder? (g : GranuleInfo) (bands : Bands) (zeroFrom : Nat) (lines : Lines) : Option Lines :=
  if g.isShort then reorderBands? bands zeroFrom (firstShort g) (List.range' (firstShort g) (13 - firstShort g)) lines
  else some lines

theorem mem_windowPlaces : p ∈ windowPlaces width ↔ p.1 < 3 ∧ p.2 < width := by
  obtain ⟨w, j⟩ := p
  simp only [windowPlaces, mem_flatMap, List.mem_map, mem_range, Prod.mk.injEq]
  constructor
  · rintro ⟨_, hw, _, hj, rfl, rfl⟩
    exact ⟨hw, hj⟩
  · rintro ⟨hw, hj⟩
    exact ⟨w, hw, j, hj, rfl, rfl⟩

def orderedLine (lines : Lines) (start width place : Nat) : Float32 :=
  (lines[start + place % 3 * width + place / 3]?).getD 0

theorem gather?_eq (lines : Lines) (h : start + 3 * width ≤ lineCount) :
    gather? lines start width =
      some (Vector.ofFn fun i => if i.val < 3 * width then orderedLine lines start width i else 0) := by
  have hfound : ∀ p ∈ windowPlaces width, (do
      let x ← lines[start + p.1 * width + p.2]?
      return (3 * p.2 + p.1, x)) = some (3 * p.2 + p.1, orderedLine lines start width (3 * p.2 + p.1)) := by
    intro p hp
    obtain ⟨hw, hj⟩ := mem_windowPlaces.mp hp
    have hle := Nat.mul_le_mul_right width (le_of_lt_succ hw)
    have hlt : start + p.1 * width + p.2 < lineCount := by omega
    have hmod : (3 * p.2 + p.1) % 3 = p.1 := by omega
    have hdiv : (3 * p.2 + p.1) / 3 = p.2 := by omega
    rw [orderedLine, hmod, hdiv, Vector.getElem?_eq_getElem hlt]
    rfl
  have hmem : ∀ m, m ∈ ((windowPlaces width).map fun p =>
      (3 * p.2 + p.1, orderedLine lines start width (3 * p.2 + p.1))).map Prod.fst ↔ m < 3 * width := by
    intro m
    rw [List.map_map, List.mem_map]
    constructor
    · rintro ⟨p, hp, rfl⟩
      obtain ⟨hw, hj⟩ := mem_windowPlaces.mp hp
      change 3 * p.2 + p.1 < 3 * width
      omega
    · intro hm
      refine ⟨(m % 3, m / 3), mem_windowPlaces.mpr ⟨mod_lt _ (by decide), by omega⟩, ?_⟩
      change 3 * (m / 3) + m % 3 = m
      omega
  rw [gather?, mapM_eq hfound, some_bind, writes?_eq _ (orderedLine lines start width)]
  · refine congrArg some (Vector.ext fun i hi => ?_)
    rw [Vector.getElem_ofFn, Vector.getElem_ofFn]
    by_cases hlt : i < 3 * width
    · rw [if_pos ((hmem i).mpr hlt), if_pos hlt]
    · rw [if_neg fun hi => hlt ((hmem i).mp hi), if_neg hlt]
      exact Vector.getElem_replicate _
  · intro w hw
    have := (hmem w.1).mp (List.mem_map_of_mem hw)
    omega
  · intro w hw
    obtain ⟨p, -, rfl⟩ := List.mem_map.mp hw
    rfl

theorem short_room (bands : Bands) [bands.Regular] (h : band < 13) :
    bands.shortStart band + 3 * bands.shortWidth band ≤ lineCount := by
  rw [← shortStart_succ (b := bands) h, ← shortStart_end (b := bands)]
  exact shortStart_le h (Nat.le_refl _)

theorem reorderBand?_eq {bands : Bands} [bands.Regular] (lines : Lines) (h : band < 13) :
    reorderBand? bands lines band = some (reorderBand bands lines band) := by
  have hroom := short_room bands h
  rw [reorderBand?, shortPart?_eq h, some_bind, reorderBand]
  generalize bands.shortStart band = start at *
  generalize bands.shortWidth band = width at *
  dsimp only
  rw [gather?_eq lines hroom, some_bind, slice?_eq (Nat.zero_le _) (by rw [Vector.size_toArray]; omega), some_bind]
  have hordered : ((Vector.ofFn fun i : Fin lineCount =>
      if i.val < 3 * width then orderedLine lines start width i else 0).toArray.extract 0 (3 * width)).toList = (range (3 * width)).map (orderedLine lines start width) := by
    refine ext_getElem (by simp; omega) fun i hi hi' => ?_
    rw [length_map, length_range] at hi'
    simp [hi']
  rw [hordered, writes?_zip (by rw [length_map, length_range]) hroom]
  refine congrArg some (Vector.ext fun i hi => ?_)
  rw [laid, Vector.getElem_ofFn, Vector.getElem_ofFn]
  dsimp only
  by_cases hle : start ≤ i
  · rw [if_pos hle]
    by_cases hlt : i < start + 3 * width
    · have hplace : (i - start) % 3 * width ≤ 2 * width :=
        Nat.mul_le_mul_right width (le_of_lt_succ (mod_lt _ (by decide)))
      have hfound : start + (i - start) % 3 * width + (i - start) / 3 < lineCount := by omega
      rw [if_pos ⟨hle, hlt⟩, getD_eq_getElem _ _ (by rw [length_map, length_range]; omega),
        getElem_map, getElem_range, orderedLine, Vector.getElem?_eq_getElem hfound]
      rfl
    · rw [if_neg fun h => hlt h.2, getD_eq_default _ _ (by rw [length_map, length_range]; omega)]
      rfl
  · rw [if_neg hle, if_neg fun h => hle h.1]
    rfl

theorem reorderBands?_eq {bands : Bands} [bands.Regular] (zeroFrom : Nat) (hbs : ∀ b ∈ bs, first < b ∧ b < 13)
    (lines : Lines) :
    reorderBands? bands zeroFrom first bs lines =
      some ((bs.takeWhile fun b => bands.shortStart b < zeroFrom).foldl (reorderBand bands)
        lines) := by
  induction bs generalizing lines with
  | nil => rfl
  | cons band bs ih =>
    obtain ⟨hfirst, hband⟩ := hbs band mem_cons_self
    rw [reorderBands?, shortPart?_eq hband, some_bind]
    by_cases hzero : zeroFrom ≤ bands.shortStart band
    · rw [if_pos ⟨hzero, hfirst⟩, takeWhile_cons_of_neg (by simpa using hzero)]
      rfl
    · rw [if_neg fun h => hzero h.1, reorderBand?_eq lines hband, some_bind,
        ih fun b hb => hbs b (mem_cons_of_mem _ hb), takeWhile_cons_of_pos (by simpa using hzero),
        foldl_cons]

theorem firstShort_lt (g : GranuleInfo) : firstShort g < 13 := by
  unfold firstShort
  split <;> decide

theorem shortBands_eq (g : GranuleInfo) :
    shortBands g = firstShort g :: range' (firstShort g + 1) (12 - firstShort g) := by
  unfold shortBands firstShort
  cases g.mixed <;> rfl

/-- **Reordering stays within its tables.** -/
theorem reorder?_eq (g : GranuleInfo) (bands : Bands) [bands.Regular] (zeroFrom : Nat) (lines : Lines) :
    reorder? g bands zeroFrom lines = some (reorder g bands zeroFrom lines) := by
  have hfirst := firstShort_lt g
  have hcount : 13 - firstShort g = 12 - firstShort g + 1 := by omega
  unfold reorder? reorder
  split
  · rw [codedBands, shortBands_eq, hcount, range'_succ, reorderBands?, shortPart?_eq hfirst, some_bind,
      if_neg fun h => Nat.lt_irrefl _ h.2, reorderBand?_eq lines hfirst, some_bind, reorderBands?_eq]
    · rw [foldl_cons]
    · intro b hb
      rw [mem_range'_1] at hb
      omega
  · rfl

end GameMedia.Audio
